import AnchorScript.Quicksort

/-!
# Quicksort loses nothing

Every change that the sort makes exchanges two elements, so whatever the comparison is, the result
is a permutation of the given list.
-/

namespace AnchorScript.Quicksort

variable {α : Type}

theorem swapIfInBounds_perm (xs : Array α) (i j : Nat) : (xs.swapIfInBounds i j).Perm xs := by
  unfold Array.swapIfInBounds
  split
  · split
    · exact Array.swap_perm _ _
    · exact .rfl
  · exact .rfl

/-- A chain of steps that each permute an array permutes it. -/
theorem foldl_perm {β : Type} {f : Array α → β → Array α} (h : ∀ xs b, (f xs b).Perm xs)
    (bs : List β) (xs : Array α) : (bs.foldl f xs).Perm xs := by
  induction bs generalizing xs with
  | nil => exact .rfl
  | cons b bs ih => exact (ih (f xs b)).trans (h xs b)

theorem ite_perm {p : Prop} [Decidable p] {xs ys zs : Array α} (hThen : xs.Perm zs)
    (hElse : ys.Perm zs) : (if p then xs else ys).Perm zs := by
  split
  · exact hThen
  · exact hElse

variable (less : α → α → Bool)

theorem sink_perm (bottom place : Nat) (xs : Array α) : (sink less bottom place xs).Perm xs := by
  fun_induction sink less bottom place xs with
  | case1 => exact .rfl
  | case2 i xs _ ih => exact ih.trans (swapIfInBounds_perm xs _ _)
  | case3 => exact .rfl

theorem raise_perm (n i : Nat) (xs : Array α) : (raise less n i xs).Perm xs := by
  fun_induction raise less n i xs with
  | case1 => exact .rfl
  | case2 n i xs _ ih => exact ih.trans (swapIfInBounds_perm xs _ _)
  | case3 => exact .rfl

theorem insertionSort_perm (first last : Nat) (xs : Array α) :
    (insertionSort less first last xs).Perm xs :=
  foldl_perm (fun xs i => sink_perm less first i xs) _ xs

theorem mend_perm (first last tries i : Nat) (xs : Array α) :
    (mend less first last tries i xs).1.Perm xs := by
  induction tries generalizing i xs with
  | zero => exact .rfl
  | succ tries ih =>
    rw [mend]
    split
    · exact .rfl
    split
    · exact .rfl
    exact (ih _ _).trans ((ite_perm (raise_perm less _ _ _) .rfl).trans
      ((ite_perm (sink_perm less _ _ _) .rfl).trans (swapIfInBounds_perm xs _ _)))

theorem siftDown_perm (first size steps root : Nat) (xs : Array α) :
    (siftDown less first size steps root xs).Perm xs := by
  fun_induction siftDown less first size steps root xs with
  | case1 => exact .rfl
  | case2 => exact .rfl
  | case3 _ _ xs _ _ _ _ ih => exact ih.trans (swapIfInBounds_perm xs _ _)
  | case4 => exact .rfl

theorem heapSort_perm (first last : Nat) (xs : Array α) : (heapSort less first last xs).Perm xs := by
  refine (foldl_perm ?_ _ _).trans (foldl_perm ?_ _ xs)
  · intro ys i
    exact (siftDown_perm less _ _ _ _ _).trans (swapIfInBounds_perm ys _ _)
  · intro ys root
    exact siftDown_perm less _ _ _ _ ys

theorem reverseRange_perm (first last : Nat) (xs : Array α) : (reverseRange first last xs).Perm xs :=
  foldl_perm (fun xs _ => swapIfInBounds_perm xs _ _) _ xs

theorem scatter_perm (first last : Nat) (xs : Array α) : (scatter first last xs).Perm xs := by
  simp only [scatter, List.range, List.range.loop, List.foldl_cons, List.foldl_nil]
  exact (swapIfInBounds_perm _ _ _).trans
    ((swapIfInBounds_perm _ _ _).trans (swapIfInBounds_perm xs _ _))

theorem separate_perm (isLow isHigh : Array α → Nat → Bool) (steps i j : Nat) (untouched : Bool)
    (xs : Array α) : (separate isLow isHigh steps i j untouched xs).1.Perm xs := by
  fun_induction separate isLow isHigh steps i j untouched xs with
  | case1 => exact .rfl
  | case2 => exact .rfl
  | case3 _ _ _ _ xs _ _ _ ih => exact ih.trans (swapIfInBounds_perm xs _ _)

theorem partition_perm (first last pivot : Nat) (xs : Array α) :
    (partition less first last pivot xs).1.Perm xs :=
  (swapIfInBounds_perm _ _ _).trans
    ((separate_perm _ _ _ _ _ _ _).trans (swapIfInBounds_perm xs _ _))

theorem partitionEqual_perm (first last pivot : Nat) (xs : Array α) :
    (partitionEqual less first last pivot xs).1.Perm xs :=
  (separate_perm _ _ _ _ _ _ _).trans (swapIfInBounds_perm xs _ _)

theorem sortRange_perm (steps first last limit : Nat) (balanced partitioned : Bool) (xs : Array α) :
    (sortRange less steps first last limit balanced partitioned xs).Perm xs := by
  induction steps generalizing first last limit balanced partitioned xs with
  | zero => exact .rfl
  | succ steps ih =>
    rw [sortRange]
    split
    · exact insertionSort_perm less first last xs
    split
    · exact heapSort_perm less first last xs
    -- each stage before the split hands on a permutation of what it was given
    split
    rename_i ys limit' hStart
    have hStart : ys.Perm xs := by
      split at hStart <;> cases hStart
      · exact .rfl
      · exact scatter_perm first last xs
    split
    rename_i pivot trend _
    split
    rename_i zs pivot' trend' hTurned
    have hTurned : zs.Perm ys := by
      split at hTurned <;> cases hTurned
      · exact reverseRange_perm first last ys
      · exact .rfl
    split
    rename_i ws isSorted hMended
    have hMended : ws.Perm zs := by
      split at hMended
      · have hPerm := mend_perm less first last 5 (first + 1) zs
        rwa [hMended] at hPerm
      · cases hMended
        exact .rfl
    have hGiven : ws.Perm xs := hMended.trans (hTurned.trans hStart)
    split
    · exact hGiven
    split
    · exact (ih _ _ _ _ _ _).trans ((partitionEqual_perm less first last pivot' ws).trans hGiven)
    · have hParts := (partition_perm less first last pivot' ws).trans hGiven
      exact ite_perm ((ih _ _ _ _ _ _).trans ((ih _ _ _ _ _ _).trans hParts))
        ((ih _ _ _ _ _ _).trans ((ih _ _ _ _ _ _).trans hParts))

/-- The result is a permutation of the list, whatever the comparison. -/
theorem sort_perm (xs : List α) : (sort less xs).Perm xs :=
  (sortRange_perm less _ _ _ _ _ _ xs.toArray).toList

end AnchorScript.Quicksort
