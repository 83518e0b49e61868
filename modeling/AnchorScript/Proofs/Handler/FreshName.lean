import AnchorScript.Handler.Basic
import Mathlib.Data.Finset.Card

/-!
# Fresh names are free

The candidates for a name are pairwise different, because numerals are. So among one more of them
than there are taken names one is free, and the search ends at the first that is. A search that goes
on until it meets a free candidate ends there, too, and needs no bound.
-/

namespace AnchorScript

namespace Text

theorem natValue_append_digit (s : Text) (b : UInt8) :
    natValue (s ++ [b]) = 10 * natValue s + (b.toNat - 48) := by
  simp [natValue]

theorem digit_toNat {n : Nat} (h : n < 10) : ((48 + n.toUInt8 : UInt8).toNat) - 48 = n := by
  have hByte : n.toUInt8.toNat = n := by
    rw [Nat.toUInt8, UInt8.toNat_ofNat']
    omega
  rw [UInt8.toNat_add, hByte]
  simp only [UInt8.reduceToNat]
  omega

theorem natValue_ofNat (n : Nat) : natValue (ofNat n) = n := by
  induction n using Nat.strongRecOn with
  | ind n ih =>
    rw [ofNat]
    split
    · rename_i hSmall
      simp only [natValue, List.foldl_cons, List.foldl_nil, digit_toNat hSmall]
      omega
    · rename_i hLarge
      rw [natValue_append_digit, ih (n / 10) (by omega), digit_toNat (by omega)]
      omega

theorem ofNat_injective {m n : Nat} (h : ofNat m = ofNat n) : m = n := by
  rw [← natValue_ofNat m, h, natValue_ofNat]

theorem ofNat_ne_nil (n : Nat) : ofNat n ≠ [] := by
  rw [ofNat]
  split <;> simp

end Text

namespace FreshName

theorem candidate_injective {base : Text} {m n : Nat} (h : candidate base m = candidate base n) :
    m = n := by
  cases m with
  | zero =>
    cases n with
    | zero => rfl
    | succ n => exact absurd (List.self_eq_append_right.mp h) (Text.ofNat_ne_nil _)
  | succ m =>
    cases n with
    | zero => exact absurd (List.append_right_eq_self.mp h) (Text.ofNat_ne_nil _)
    | succ n =>
      have hNumber := Text.ofNat_injective (List.append_cancel_left h)
      omega

theorem prefix_candidate (base : Text) (n : Nat) : base <+: candidate base n := by
  cases n with
  | zero => exact List.prefix_rfl
  | succ n => exact List.prefix_append _ _

/-- The search passes over taken candidates only, and stops early only at a free one. -/
theorem search_spec (taken : List Text) (base : Text) (tries i : Nat) :
    ∃ j, search taken base tries i = candidate base j ∧ j ≤ i + tries ∧
      (∀ k, i ≤ k → k < j → candidate base k ∈ taken) ∧
      (j < i + tries → candidate base j ∉ taken) := by
  induction tries generalizing i with
  | zero => exact ⟨i, rfl, Nat.le_refl i, by omega, by omega⟩
  | succ tries ih =>
    rw [search]
    split
    · rename_i hTaken
      obtain ⟨j, hj, hBound, hPassed, hFree⟩ := ih (i + 1)
      refine ⟨j, hj, by omega, ?_, fun hLess => hFree (by omega)⟩
      intro k hik hkj
      rcases Nat.eq_or_lt_of_le hik with rfl | hik
      · simpa using hTaken
      · exact hPassed k hik hkj
    · rename_i hFree
      exact ⟨i, rfl, by omega, by omega, fun _ => by simpa using hFree⟩

/-- The candidates are different names, so no more of them are taken than there are taken names. -/
theorem le_card_of_taken {taken : List Text} {base : Text} {n : Nat}
    (h : ∀ k < n, candidate base k ∈ taken) : n ≤ taken.toFinset.card := by
  have hSubset : (Finset.range n).image (candidate base) ⊆ taken.toFinset := by
    intro name hName
    obtain ⟨k, hk, rfl⟩ := Finset.mem_image.mp hName
    exact List.mem_toFinset.mpr (h k (Finset.mem_range.mp hk))
  calc n = ((Finset.range n).image (candidate base)).card := by
        rw [Finset.card_image_of_injective _ fun _ _ => candidate_injective, Finset.card_range]
    _ ≤ taken.toFinset.card := Finset.card_le_card hSubset

/-- The name in use is the first candidate that is free. -/
theorem exists_avoid_eq (taken : List Text) (base : Text) : ∃ j ≤ taken.toFinset.card,
    avoid taken base = candidate base j ∧ (∀ k < j, candidate base k ∈ taken) ∧
      candidate base j ∉ taken := by
  obtain ⟨j, hj, hBound, hPassed, hFree⟩ := search_spec taken base taken.length 0
  have hBefore : ∀ k < j, candidate base k ∈ taken := fun k hk => hPassed k (Nat.zero_le k) hk
  refine ⟨j, le_card_of_taken hBefore, hj, hBefore, fun hMem => ?_⟩
  have hLast : taken.length ≤ j := by
    by_contra hLess
    exact hFree (by omega) hMem
  have hTaken : ∀ k < j + 1, candidate base k ∈ taken := fun k hk => by
    rcases Nat.lt_or_eq_of_le (Nat.le_of_lt_succ hk) with hk | rfl
    · exact hBefore k hk
    · exact hMem
  have hCard := le_card_of_taken hTaken
  have hLength := taken.toFinset_card_le
  omega

theorem avoid_not_mem (taken : List Text) (base : Text) : avoid taken base ∉ taken := by
  obtain ⟨j, _, hj, _, hFree⟩ := exists_avoid_eq taken base
  rw [hj]
  exact hFree

theorem prefix_avoid (taken : List Text) (base : Text) : base <+: avoid taken base := by
  obtain ⟨j, hj, _⟩ := search_spec taken base taken.length 0
  rw [avoid, hj]
  exact prefix_candidate base j

/-- Candidates are tried from the `i`-th on until one is free, which is this name after so many
tries. -/
inductive Finds (taken : List Text) (base : Text) : (i tries : Nat) → Text → Prop
  | free {i : Nat} (hFree : candidate base i ∉ taken) : Finds taken base i 1 (candidate base i)
  | next {i tries : Nat} {name : Text} (hTaken : candidate base i ∈ taken)
      (hRest : Finds taken base (i + 1) tries name) : Finds taken base i (tries + 1) name

theorem Finds.unique {taken : List Text} {base name name' : Text} {i tries tries' : Nat}
    (h : Finds taken base i tries name) (h' : Finds taken base i tries' name') :
    tries = tries' ∧ name = name' := by
  induction h generalizing tries' with
  | free hFree =>
    cases h' with
    | free => exact ⟨rfl, rfl⟩
    | next hTaken => exact absurd hTaken hFree
  | next hTaken _ ih =>
    cases h' with
    | free hFree => exact absurd hTaken hFree
    | next _ hRest =>
      obtain ⟨rfl, rfl⟩ := ih hRest
      exact ⟨rfl, rfl⟩

/-- The search passes over the taken candidates and stops at the free one behind them. -/
theorem finds_of_passed {taken : List Text} {base : Text} {i j : Nat} (d : Nat) (hj : j = i + d)
    (hPassed : ∀ k, i ≤ k → k < j → candidate base k ∈ taken) (hFree : candidate base j ∉ taken) :
    Finds taken base i (d + 1) (candidate base j) := by
  induction d generalizing i with
  | zero =>
    obtain rfl : j = i := hj
    exact .free hFree
  | succ d ih =>
    exact .next (hPassed i (Nat.le_refl i) (by omega))
      (ih (by omega) fun k hik hkj => hPassed k (by omega) hkj)

theorem candidate_cases (base : Text) (n : Nat) :
    candidate base n = base ∨ ∃ m, 2 ≤ m ∧ candidate base n = base ++ Text.ofNat m := by
  cases n with
  | zero => exact .inl rfl
  | succ n => exact .inr ⟨n + 2, by omega, rfl⟩

/-- The names that a new name avoids: those in scope and, if it is to be unique, all generated
names. -/
def reserved (scope generated : List Text) (unique : Bool) : List Text :=
  if unique then generated ++ scope else scope

theorem reserved_toFinset_card_le (scope generated : List Text) (unique : Bool) :
    (reserved scope generated unique).toFinset.card ≤
      scope.toFinset.card + generated.toFinset.card := by
  rw [reserved]
  split
  · rw [List.toFinset_append, Nat.add_comm]
    exact Finset.card_union_le _ _
  · exact Nat.le_add_right _ _

/-- The search without a bound ends after at most one more try than there are names, and finds the
name in use, which is the base or numbered from two on, and free. -/
theorem search_ends (scope generated : List Text) (unique : Bool) (base : Text) :
    ∃ tries ≤ scope.toFinset.card + generated.toFinset.card + 1,
      (∀ t name, Finds (reserved scope generated unique) base 0 t name ↔
        t = tries ∧ name = avoid (reserved scope generated unique) base) ∧
      (avoid (reserved scope generated unique) base = base ∨
        ∃ n, 2 ≤ n ∧ avoid (reserved scope generated unique) base = base ++ Text.ofNat n) ∧
      avoid (reserved scope generated unique) base ∉ scope ∧
      (unique = true → avoid (reserved scope generated unique) base ∉ generated) := by
  obtain ⟨j, hCard, hAvoid, hPassed, hFree⟩ :=
    exists_avoid_eq (reserved scope generated unique) base
  have hFinds := finds_of_passed j (Nat.zero_add j).symm (fun k _ hk => hPassed k hk) hFree
  have hReserved := reserved_toFinset_card_le scope generated unique
  rw [hAvoid]
  refine ⟨j + 1, by omega, fun t name => ⟨fun hOther => hOther.unique hFinds, ?_⟩,
    candidate_cases base j, ?_, ?_⟩
  · rintro ⟨rfl, rfl⟩
    exact hFinds
  · intro hScope
    refine hFree ?_
    rw [reserved]
    split
    · exact List.mem_append_right _ hScope
    · exact hScope
  · rintro rfl hGenerated
    exact hFree (List.mem_append_left _ hGenerated)

end FreshName

end AnchorScript
