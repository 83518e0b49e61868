import AnchorScript.Proofs.FileTree.Entries
import AnchorScript.Proofs.Outcome

/-!
# The files after a series of writes

Work on a tree makes directories and writes files; it takes nothing away. So after any of it a place
holds the text last written there, and else what it held before or, where nothing stood, perhaps a
new directory.
-/

namespace AnchorScript.FileTree

/-- The text last written to a place. -/
def lastWrite? (q : List Text) : List (List Text × Text) → Option Text
  | [] => none
  | (p, d) :: ws => (lastWrite? q ws).or (if p = q then some d else none)

theorem lastWrite?_append (q : List Text) (ws ws' : List (List Text × Text)) :
    lastWrite? q (ws ++ ws') = (lastWrite? q ws').or (lastWrite? q ws) := by
  induction ws with
  | nil => rw [List.nil_append, lastWrite?, Option.or_none]
  | cons w ws ih =>
    obtain ⟨p, d⟩ := w
    rw [List.cons_append, lastWrite?, lastWrite?, ih, Option.or_assoc]

theorem lastWrite?_concat_self (q : List Text) (ws : List (List Text × Text)) (d : Text) :
    lastWrite? q (ws ++ [(q, d)]) = some d := by
  simp [lastWrite?_append, lastWrite?]

theorem lastWrite?_concat_of_ne {p q : List Text} (h : q ≠ p) (ws : List (List Text × Text))
    (d : Text) : lastWrite? q (ws ++ [(p, d)]) = lastWrite? q ws := by
  simp [lastWrite?_append, lastWrite?, h.symm]

theorem mem_of_lastWrite? {q : List Text} {ws : List (List Text × Text)} {d : Text}
    (h : lastWrite? q ws = some d) : (q, d) ∈ ws := by
  induction ws with
  | nil => cases h
  | cons w ws ih =>
    obtain ⟨p, e⟩ := w
    rw [lastWrite?, Option.or_eq_some_iff] at h
    rcases h with h | ⟨_, h⟩
    · exact List.mem_cons_of_mem _ (ih h)
    · split at h
      · rename_i hp
        cases h
        rw [hp]
        exact List.mem_cons_self
      · cases h

/-- The tree that these writes, in this order, leave behind. -/
def After (t : FileTree) (ws : List (List Text × Text)) (t' : FileTree) : Prop :=
  ∀ q, match lastWrite? q ws with
    | some d => t'.view? q = some (some d)
    | none => t'.view? q = t.view? q ∨ t.view? q = none ∧ t'.view? q = some none

namespace After

theorem refl (t : FileTree) : After t [] t := fun _ => .inl rfl

theorem trans {t₁ t₂ t₃ : FileTree} {ws ws' : List (List Text × Text)} (h : After t₁ ws t₂)
    (h' : After t₂ ws' t₃) : After t₁ (ws ++ ws') t₃ := by
  intro q
  have hq := h q
  have hq' := h' q
  rw [lastWrite?_append]
  cases hLater : lastWrite? q ws' with
  | some d =>
    rw [hLater] at hq'
    exact hq'
  | none =>
    rw [hLater] at hq'
    rw [Option.none_or]
    cases hEarlier : lastWrite? q ws with
    | some d =>
      rw [hEarlier] at hq
      rcases hq' with hSame | ⟨hNone, _⟩
      · exact hSame.trans hq
      · rw [hq] at hNone
        cases hNone
    | none =>
      rw [hEarlier] at hq
      rcases hq' with hSame | ⟨hNone, hNew⟩
      · rcases hq with hSame' | ⟨hNone', hNew'⟩
        · exact .inl (hSame.trans hSame')
        · exact .inr ⟨hNone', hSame.trans hNew'⟩
      · rcases hq with hSame' | ⟨_, hNew'⟩
        · exact .inr ⟨hSame'.symm.trans hNone, hNew⟩
        · rw [hNew'] at hNone
          cases hNone

variable {t t' : FileTree} {ws : List (List Text × Text)} {q : List Text} {d : Text}

theorem view?_of_lastWrite? (h : After t ws t') (hLast : lastWrite? q ws = some d) :
    t'.view? q = some (some d) := by
  have hq := h q
  rw [hLast] at hq
  exact hq

/-- A file that was not written keeps its text, and no other file appears. -/
theorem view?_eq_file_iff (h : After t ws t') (hLast : lastWrite? q ws = none) :
    t'.view? q = some (some d) ↔ t.view? q = some (some d) := by
  have hq := h q
  rw [hLast] at hq
  rcases hq with hSame | ⟨hNone, hNew⟩
  · rw [hSame]
  · rw [hNone, hNew]
    simp

/-- A file holds what was last written to it or what it held before. -/
theorem written_or_kept (h : After t ws t') (hFile : t'.view? q = some (some d)) :
    (q, d) ∈ ws ∨ t.view? q = some (some d) := by
  cases hLast : lastWrite? q ws with
  | none => exact .inr ((h.view?_eq_file_iff hLast).mp hFile)
  | some e =>
    rw [h.view?_of_lastWrite? hLast] at hFile
    cases hFile
    exact .inl (mem_of_lastWrite? hLast)

end After

theorem after_put {t : FileTree} {dir : List Text} {n : Text} (hDir : t.view? dir = some none)
    (hPlace : t.view? (dir ++ [n]) ≠ some none) (d : Text) :
    After t [(dir ++ [n], d)] (put (file d) t (dir ++ [n])) := by
  intro q
  have hEntry := view?_put (isLeaf_file d) hDir hPlace q
  rw [lastWrite?, lastWrite?, Option.none_or]
  split
  · rename_i hq
    split at hq
    · rename_i hSame
      cases hq
      rw [hEntry, if_pos hSame.symm]
      rfl
    · cases hq
  · rename_i hq
    split at hq
    · cases hq
    · rename_i hSame
      rw [hEntry, if_neg (Ne.symm hSame)]
      exact .inl rfl

theorem write_eq_ok {t t' : FileTree} {p d : Text} (h : t.write p d = .ok t') :
    ∃ dir n, Path.place p = dir ++ [n] ∧ t.view? dir = some none ∧
      t.view? (Path.place p) ≠ some none ∧ t' = put (file d) t (Path.place p) := by
  rw [write] at h
  split at h
  · cases h
  · rename_i q hPlace
    obtain ⟨rfl, hAbove⟩ := locate_eq hPlace
    have hFile : t.view? (Path.place p) ≠ some none := by
      intro hDirectory
      obtain ⟨es, hes⟩ := view?_eq_directory_iff.mp hDirectory
      rw [hes] at h
      cases h
    rcases hAbove with hDirectory | ⟨dir, n, hq, hDir⟩
    · exact absurd hDirectory hFile
    · refine ⟨dir, n, hq, hDir, hFile, ?_⟩
      split at h
      · cases h
      · cases h
        rfl

theorem after_write {t t' : FileTree} {p d : Text} (h : t.write p d = .ok t') :
    After t [(Path.place p, d)] t' := by
  obtain ⟨dir, n, hPlace, hDir, hFile, rfl⟩ := write_eq_ok h
  rw [hPlace] at hFile ⊢
  exact after_put hDir hFile d

theorem follow_of_directories {t t' : FileTree}
    (h : ∀ q, t.view? q = some none → t'.view? q = some none) {here ns q : List Text}
    (hFollow : t.follow here ns = .ok q) : t'.follow here ns = .ok q := by
  induction ns generalizing here with
  | nil =>
    rw [follow] at hFollow ⊢
    exact hFollow
  | cons n ns ih =>
    obtain ⟨hDir, hRest⟩ := follow_cons_eq_ok hFollow
    rw [follow_cons, h here hDir]
    exact ih hRest

/-- A written file reads as it was written. -/
theorem read_of_write {t t' : FileTree} {p d : Text} (h : t.write p d = .ok t') :
    t'.read p = .ok d := by
  obtain ⟨dir, n, hPlace, hDir, hFile, rfl⟩ := write_eq_ok h
  rw [hPlace] at hFile ⊢
  have hView := view?_put (isLeaf_file d) hDir hFile
  obtain ⟨q, hLocate⟩ : ∃ q, t.locate p = .ok q := by
    rw [write] at h
    cases hLocate : t.locate p with
    | error e =>
      rw [hLocate] at h
      cases h
    | ok q => exact ⟨q, rfl⟩
  obtain ⟨rfl, _⟩ := locate_eq hLocate
  have hLocate' : (put (file d) t (dir ++ [n])).locate p = .ok (Path.place p) := by
    rw [locate] at hLocate ⊢
    split at hLocate
    · cases hLocate
    · rename_i hText
      rw [if_neg hText]
      refine follow_of_directories (fun r hr => ?_) hLocate
      rw [hView, if_neg (by rintro rfl; exact hFile hr), hr]
  rw [read_eq, hLocate']
  dsimp only
  rw [hPlace, hView, if_pos rfl]
  rfl

/-- A file that can be read can be written. -/
theorem write_of_read {t : FileTree} {p d : Text} (h : t.read p = .ok d) (d' : Text) :
    t.write p d' = .ok (put (file d') t (Path.place p)) := by
  have hHere := view?_eq_file_iff.mp (view?_of_read h)
  rw [read_eq] at h
  cases hLocate : t.locate p with
  | error e =>
    rw [hLocate] at h
    cases h
  | ok q =>
    obtain ⟨rfl, _⟩ := locate_eq hLocate
    rw [write, hLocate]
    dsimp only
    rw [hHere]

/-- Whether a file can be written does not depend on its text. -/
theorem write_congr (t : FileTree) (p d d' : Text) :
    (∃ e, t.write p d = .error e ∧ t.write p d' = .error e) ∨
      ∃ t₁ t₂, t.write p d = .ok t₁ ∧ t.write p d' = .ok t₂ := by
  rw [write, write]
  split
  · exact .inl ⟨_, rfl, rfl⟩
  · split
    · exact .inl ⟨_, rfl, rfl⟩
    · exact .inr ⟨_, _, rfl, rfl⟩

theorem after_makeDirectory {t t' : FileTree} {p : Text} (h : t.makeDirectory p = .ok t') :
    After t [] t' := by
  rw [makeDirectory] at h
  split at h
  · cases h
  · rename_i place hPlace
    split at h
    · cases h
    · rename_i hNone
      cases h
      have hNone := view?_eq_none_iff.mpr hNone
      obtain ⟨_, hDirectory | ⟨dir, n, rfl, hDir⟩⟩ := locate_eq hPlace
      · rw [hNone] at hDirectory
        cases hDirectory
      · intro q
        have hEntry := view?_put isLeaf_empty hDir
          (by rw [hNone]; exact Option.some_ne_none _ ∘ Eq.symm) q
        change _ ∨ _
        by_cases hq : q = dir ++ [n]
        · rw [hEntry, if_pos hq, hq]
          exact .inr ⟨hNone, rfl⟩
        · rw [hEntry, if_neg hq]
          exact .inl rfl

theorem after_makeDirectories {t t' : FileTree} {p : Text} (h : t.makeDirectories p = .ok t') :
    After t [] t' := by
  fun_induction makeDirectories t p generalizing t' with
  | case1 =>
    cases h
    exact .refl t
  | case2 => cases h
  | case3 =>
    rename_i ih
    obtain ⟨t₁, hAbove, hLast⟩ := Outcome.bind_eq_ok_iff.mp h
    exact (ih hAbove).trans (after_makeDirectory hLast)
  | case4 => exact after_makeDirectory h

theorem makeDirectories_of_find {t : FileTree} {p : Text} {es : List (Text × FileTree)}
    (h : t.find p = .ok (directory es)) : t.makeDirectories p = .ok t := by
  rw [makeDirectories, h]

/-- Writing a file again as it is, below the directory it is in, changes nothing. -/
theorem write_again {t : FileTree} {p d : Text} (hTame : Path.IsTame p) (hPlace : Path.place p ≠ [])
    (h : t.read p = .ok d) :
    t.makeDirectories (Path.parent p) = .ok t ∧ t.write p d = .ok t := by
  have hFile := view?_of_read h
  have hSome : t.view? (Path.place p) ≠ none := by
    rw [hFile]
    exact Option.some_ne_none _
  have hRoot := root_of_view? hPlace hSome
  constructor
  · obtain ⟨dir, n, hSplit⟩ : ∃ dir n, Path.place p = dir ++ [n] :=
      ⟨_, _, (List.dropLast_append_getLast hPlace).symm⟩
    have hParent := Path.place_parent hTame hSplit
    rw [hSplit] at hSome
    obtain ⟨es, hes⟩ := view?_eq_directory_iff.mp (isDirectory_of_below hSome)
    exact makeDirectories_of_find (find_of_isTame (Path.isTame_clean _) hRoot (hParent ▸ hes))
  · have hHere := view?_eq_file_iff.mp hFile
    rw [write, locate_of_isTame hTame hRoot hSome]
    dsimp only
    rw [hHere]
    dsimp only
    rw [put_self hHere]

/-- The trees differ at most in the text of the file at this place. -/
def SameBut (q : List Text) (t t' : FileTree) : Prop :=
  ∀ r, (t.view? r).map Option.isSome = (t'.view? r).map Option.isSome ∧
    (r ≠ q → t.view? r = t'.view? r)

theorem SameBut.refl (q : List Text) (t : FileTree) : SameBut q t t := fun _ => ⟨rfl, fun _ => rfl⟩

theorem SameBut.follow {q : List Text} {t t' : FileTree} (h : SameBut q t t') (here ns : List Text) :
    t.follow here ns = t'.follow here ns := by
  induction ns generalizing here with
  | nil => rw [FileTree.follow, FileTree.follow]
  | cons n ns ih =>
    have hShape := (h here).1
    rw [follow_cons, follow_cons, ih]
    generalize t.view? here = e at hShape ⊢
    generalize t'.view? here = e' at hShape ⊢
    cases e with
    | none =>
      cases e' with
      | none => rfl
      | some d' => cases hShape
    | some d =>
      cases e' with
      | none => cases hShape
      | some d' =>
        cases d <;> cases d'
        · rfl
        · cases hShape
        · cases hShape
        · rfl

/-- Any other file reads the same. -/
theorem SameBut.read {q : List Text} {t t' : FileTree} (h : SameBut q t t') {p : Text}
    (hp : Path.place p ≠ q) : t.read p = t'.read p := by
  have hLocate : t.locate p = t'.locate p := by rw [locate, locate, h.follow]
  rw [read_eq, read_eq, ← hLocate]
  cases hPlace : t.locate p with
  | error e => rfl
  | ok r =>
    obtain ⟨rfl, _⟩ := locate_eq hPlace
    dsimp only
    rw [(h _).2 hp]

/-- Writing other texts to one file. -/
theorem sameBut_write {t t₁ t₂ : FileTree} {p d d' : Text} (h₁ : t.write p d = .ok t₁)
    (h₂ : t.write p d' = .ok t₂) : SameBut (Path.place p) t₁ t₂ := by
  obtain ⟨dir, n, hPlace, hDir, hFile, rfl⟩ := write_eq_ok h₁
  obtain ⟨_, _, _, _, _, rfl⟩ := write_eq_ok h₂
  rw [hPlace] at hFile ⊢
  intro r
  rw [view?_put (isLeaf_file d) hDir hFile, view?_put (isLeaf_file d') hDir hFile]
  by_cases hr : r = dir ++ [n]
  · rw [if_pos hr, if_pos hr]
    exact ⟨rfl, fun hNe => absurd hr hNe⟩
  · rw [if_neg hr, if_neg hr]
    exact ⟨rfl, fun _ => rfl⟩

end AnchorScript.FileTree
