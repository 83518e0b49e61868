import AnchorScript.FileTree.Basic
import AnchorScript.Proofs.FileTree.Paths

/-!
# What stands where in a tree

A tree is known by what stands at its places: nothing, a directory or a file with its text. Paths are
followed through directories to the places they mean, and writing a file changes its own place only.
-/

namespace AnchorScript.FileTree

/-- The text of a file; a directory has none. -/
def content : FileTree → Option Text
  | file d => some d
  | directory _ => none

/-- What stands at a place: nothing, a directory, or a file with this text. -/
def view? (t : FileTree) (q : List Text) : Option (Option Text) := (t.get? q).map content

theorem view?_eq_file_iff {t : FileTree} {q : List Text} {d : Text} :
    t.view? q = some (some d) ↔ t.get? q = some (file d) := by
  rw [view?]
  cases t.get? q with
  | none => simp
  | some u => cases u <;> simp [content]

theorem view?_eq_directory_iff {t : FileTree} {q : List Text} :
    t.view? q = some none ↔ ∃ es, t.get? q = some (directory es) := by
  rw [view?]
  cases t.get? q with
  | none => simp
  | some u => cases u <;> simp [content]

theorem view?_eq_none_iff {t : FileTree} {q : List Text} : t.view? q = none ↔ t.get? q = none := by
  rw [view?, Option.map_eq_none_iff]

theorem get?_append (t : FileTree) (q r : List Text) :
    t.get? (q ++ r) = (t.get? q).bind (·.get? r) := by
  fun_induction get? t q with
  | case1 t => rw [List.nil_append, Option.bind_some]
  | case2 d n ns => rw [List.cons_append, get?, Option.bind_none]
  | case3 es n ns ih =>
    rw [List.cons_append, get?, Option.bind_assoc]
    cases es.lookup n with
    | none => rfl
    | some u => exact ih u

/-- What has something below it is a directory. -/
theorem isDirectory_of_below {t : FileTree} {q : List Text} {n : Text} {r : List Text}
    (h : t.view? (q ++ n :: r) ≠ none) : t.view? q = some none := by
  rw [ne_eq, view?_eq_none_iff, get?_append] at h
  rw [view?_eq_directory_iff]
  cases hHere : t.get? q with
  | none => simp [hHere] at h
  | some u =>
    cases u with
    | file d => simp [hHere, get?] at h
    | directory es => exact ⟨es, rfl⟩

/-- The place that one more part of a path leads to. -/
def next (here : List Text) (n : Text) : List Text :=
  if n = [] || n = "." then here else if n = ".." then here.dropLast else here ++ [n]

theorem next_eq {here : List Text} (hHere : Text.ofString ".." ∉ here) (n : Text) :
    next here n = (Path.pushed true here.reverse n).reverse := by
  rw [next, Path.pushed.eq_def]
  split
  · exact (List.reverse_reverse here).symm
  split
  · rcases List.eq_nil_or_concat here with rfl | ⟨above, r, rfl⟩
    · rfl
    · have hr : ¬r = Text.ofString ".." := by
        rintro rfl
        simp at hHere
      simp [hr]
  · rw [List.reverse_cons, List.reverse_reverse]

theorem up_not_mem_next {here : List Text} (hHere : Text.ofString ".." ∉ here) (n : Text) :
    Text.ofString ".." ∉ next here n := by
  unfold next
  split
  · exact hHere
  split
  · exact fun hMem => hHere (List.dropLast_subset here hMem)
  · rename_i hUp
    rw [List.mem_append, List.mem_singleton, not_or]
    exact ⟨hHere, Ne.symm hUp⟩

/-- Every part of a path leads through a directory. -/
theorem follow_cons (t : FileTree) (here : List Text) (n : Text) (ns : List Text) :
    t.follow here (n :: ns) = match t.view? here with
      | none => .error .noEntry
      | some (some _) => .error .notDirectory
      | some none => t.follow (next here n) ns := by
  rw [follow, view?, next]
  cases t.get? here with
  | none => rfl
  | some u =>
    cases u with
    | file d => rfl
    | directory es =>
      dsimp only [Option.map_some, content]
      split
      · rfl
      split
      · rfl
      · rfl

theorem follow_cons_eq_ok {t : FileTree} {here : List Text} {n : Text} {ns q : List Text}
    (h : t.follow here (n :: ns) = .ok q) :
    t.view? here = some none ∧ t.follow (next here n) ns = .ok q := by
  rw [follow_cons] at h
  split at h
  · cases h
  · cases h
  · rename_i hHere
    exact ⟨hHere, h⟩

theorem follow_eq {t : FileTree} {here ns q : List Text} (hHere : Text.ofString ".." ∉ here)
    (h : t.follow here ns = .ok q) : q = (ns.foldl (Path.pushed true) here.reverse).reverse := by
  induction ns generalizing here with
  | nil =>
    rw [follow] at h
    cases h
    rw [List.foldl_nil, List.reverse_reverse]
  | cons n ns ih =>
    obtain ⟨_, hRest⟩ := follow_cons_eq_ok h
    rw [ih (up_not_mem_next hHere n) hRest, next_eq hHere, List.reverse_reverse, List.foldl_cons]

/-- What a path leads to is a directory or stands in one. -/
theorem follow_above {t : FileTree} {here ns q : List Text} (h : t.follow here ns = .ok q) :
    q = here ∨ t.view? q = some none ∨ ∃ dir n, q = dir ++ [n] ∧ t.view? dir = some none := by
  induction ns generalizing here with
  | nil =>
    rw [follow] at h
    cases h
    exact .inl rfl
  | cons n ns ih =>
    obtain ⟨hDir, hRest⟩ := follow_cons_eq_ok h
    rcases ih hRest with hSame | hAbove
    · refine .inr ?_
      rw [hSame, next]
      split
      · exact .inl hDir
      split
      · rcases List.eq_nil_or_concat here with rfl | ⟨above, r, rfl⟩
        · exact .inl hDir
        · rw [List.concat_eq_append] at hDir ⊢
          rw [List.dropLast_concat]
          refine .inl (isDirectory_of_below (n := r) (r := []) ?_)
          rw [hDir]
          exact Option.some_ne_none _
      · exact .inr ⟨here, n, rfl, hDir⟩
    · exact .inr hAbove

theorem locate_eq {t : FileTree} {p : Text} {q : List Text} (h : t.locate p = .ok q) :
    q = Path.place p ∧ (t.view? q = some none ∨ ∃ dir n, q = dir ++ [n] ∧ t.view? dir = some none) := by
  rw [locate] at h
  split at h
  · cases h
  · refine ⟨?_, ?_⟩
    · rw [follow_eq List.not_mem_nil h, Path.place, Path.resolve_eq_foldl]
      rfl
    · rcases follow_above h with rfl | hAbove
      · obtain ⟨n, ns, hParts⟩ := List.exists_cons_of_ne_nil (Text.splitOn_ne_nil Path.slash p)
        rw [hParts] at h
        exact .inl (follow_cons_eq_ok h).1
      · exact hAbove

theorem follow_dots {t : FileTree} (hRoot : t.view? [] = some none) {dots : List Text}
    (h : ∀ n ∈ dots, n = [] ∨ n = "." ∨ n = "..") (ns : List Text) :
    t.follow [] (dots ++ ns) = t.follow [] ns := by
  induction dots with
  | nil => rfl
  | cons n dots ih =>
    obtain ⟨hn, hDots⟩ := List.forall_mem_cons.mp h
    have hNext : next [] n = [] := by
      rcases hn with rfl | rfl | rfl
      · rfl
      · rfl
      · rfl
    rw [List.cons_append, follow_cons, hRoot, hNext]
    exact ih hDots

theorem follow_names {t : FileTree} {here ns : List Text} (hNames : ∀ n ∈ ns, Path.IsName n)
    (hSome : t.view? (here ++ ns) ≠ none) : t.follow here ns = .ok (here ++ ns) := by
  induction ns generalizing here with
  | nil => rw [follow, List.append_nil]
  | cons n ns ih =>
    obtain ⟨hn, hNames⟩ := List.forall_mem_cons.mp hNames
    have hNext : next here n = here ++ [n] := by
      rw [next, if_neg (by simp [hn.1, hn.2.1]), if_neg hn.2.2.1]
    have hText : here ++ n :: ns = here ++ [n] ++ ns := List.append_cons here n ns
    rw [follow_cons, isDirectory_of_below hSome, hNext, hText]
    exact ih hNames (hText ▸ hSome)

/-- A tame path leads to its place as soon as something stands there. -/
theorem locate_of_isTame {t : FileTree} {p : Text} (h : Path.IsTame p)
    (hRoot : t.view? [] = some none) (hSome : t.view? (Path.place p) ≠ none) :
    t.locate p = .ok (Path.place p) := by
  obtain ⟨hText, dots, names, hSplit, hDots, hNames⟩ := h
  have hPlace := Path.place_of_split hSplit hDots hNames
  rw [hPlace] at hSome ⊢
  rw [locate, if_neg (by simpa using hText), hSplit, follow_dots hRoot hDots, follow_names hNames hSome]
  rfl

theorem find_eq_ok_iff {t u : FileTree} {p : Text} :
    t.find p = .ok u ↔ ∃ q, t.locate p = .ok q ∧ t.get? q = some u := by
  rw [find]
  cases t.locate p with
  | error e => simp [bind, Except.bind]
  | ok q =>
    cases hHere : t.get? q with
    | none => simp [bind, Except.bind, hHere, throw, throwThe, MonadExceptOf.throw]
    | some u' => simp [bind, Except.bind, hHere, pure, Except.pure]

theorem get?_of_find {t u : FileTree} {p : Text} (h : t.find p = .ok u) :
    t.get? (Path.place p) = some u := by
  obtain ⟨q, hPlace, hHere⟩ := find_eq_ok_iff.mp h
  obtain ⟨rfl, _⟩ := locate_eq hPlace
  exact hHere

theorem find_of_isTame {t u : FileTree} {p : Text} (h : Path.IsTame p)
    (hRoot : t.view? [] = some none) (hHere : t.get? (Path.place p) = some u) : t.find p = .ok u := by
  have hSome : t.view? (Path.place p) ≠ none := by
    rw [view?, hHere]
    exact Option.some_ne_none _
  exact find_eq_ok_iff.mpr ⟨_, locate_of_isTame h hRoot hSome, hHere⟩

theorem read_eq (t : FileTree) (p : Text) : t.read p = match t.locate p with
    | .error e => .error ⟨"open", p, e⟩
    | .ok q => match t.view? q with
      | none => .error ⟨"open", p, .noEntry⟩
      | some none => .error ⟨"read", p, .isDirectory⟩
      | some (some d) => .ok d := by
  rw [read, find]
  cases t.locate p with
  | error e => rfl
  | ok q =>
    dsimp only [bind, Except.bind]
    rw [view?]
    cases t.get? q with
    | none => rfl
    | some u =>
      cases u with
      | file d => rfl
      | directory es => rfl

theorem view?_of_read {t : FileTree} {p d : Text} (h : t.read p = .ok d) :
    t.view? (Path.place p) = some (some d) := by
  rw [read] at h
  split at h
  · cases h
  · cases h
  · rename_i d' hFound
    cases h
    exact view?_eq_file_iff.mpr (get?_of_find hFound)

theorem root_of_view? {t : FileTree} {q : List Text} (hq : q ≠ []) (h : t.view? q ≠ none) :
    t.view? [] = some none := by
  obtain ⟨n, r, rfl⟩ := List.exists_cons_of_ne_nil hq
  exact isDirectory_of_below (q := []) h

theorem read_of_view? {t : FileTree} {p d : Text} (h : Path.IsTame p) (hPlace : Path.place p ≠ [])
    (hHere : t.view? (Path.place p) = some (some d)) : t.read p = .ok d := by
  have hRoot := root_of_view? hPlace (by rw [hHere]; exact Option.some_ne_none _)
  rw [read, find_of_isTame h hRoot (view?_eq_file_iff.mp hHere)]

theorem read_eq_ok_iff {t : FileTree} {p d : Text} (h : Path.IsTame p) (hPlace : Path.place p ≠ []) :
    t.read p = .ok d ↔ t.view? (Path.place p) = some (some d) :=
  ⟨view?_of_read, read_of_view? h hPlace⟩

theorem lookup_cons_eq (m : Text) (v : FileTree) (es : List (Text × FileTree)) (n : Text) :
    ((m, v) :: es).lookup n = if n = m then some v else es.lookup n := by
  rw [List.lookup_cons]
  by_cases h : n = m
  · rw [if_pos h, beq_iff_eq.mpr h]
  · rw [if_neg h, beq_eq_false_iff_ne.mpr h]

theorem lookup_putEntry (name : Text) (u : FileTree) (es : List (Text × FileTree)) (n : Text) :
    (putEntry name u es).lookup n = if n = name then some u else es.lookup n := by
  induction es with
  | nil => rw [putEntry, lookup_cons_eq]
  | cons e es ih =>
    obtain ⟨m, v⟩ := e
    rw [putEntry]
    by_cases hm : m = name
    · subst hm
      rw [if_pos rfl, lookup_cons_eq, lookup_cons_eq]
      split
      · rfl
      · rfl
    · rw [if_neg hm, lookup_cons_eq, lookup_cons_eq, ih]
      split
      · rename_i h
        rw [if_neg (h ▸ hm)]
      · rfl

/-- Nothing stands below this tree. -/
def IsLeaf (u : FileTree) : Prop := ∀ n ns, u.get? (n :: ns) = none

theorem isLeaf_file (d : Text) : IsLeaf (file d) := by
  intro n ns
  rw [get?]

theorem isLeaf_empty : IsLeaf empty := by
  intro n ns
  rw [empty, get?]
  rfl

theorem view?_cons (es : List (Text × FileTree)) (n : Text) (q : List Text) :
    (directory es).view? (n :: q) = (es.lookup n).bind (·.view? q) := by
  rw [view?, get?, Option.map_bind]
  rfl

/-- A file or an empty directory put where no directory stands changes its own place only. -/
theorem view?_put {u : FileTree} (hu : IsLeaf u) {t : FileTree} {dir : List Text} {n : Text}
    (hDir : t.view? dir = some none) (hPlace : t.view? (dir ++ [n]) ≠ some none) (q : List Text) :
    (put u t (dir ++ [n])).view? q = if q = dir ++ [n] then some u.content else t.view? q := by
  induction dir generalizing t q with
  | nil =>
    obtain ⟨es, hes⟩ := view?_eq_directory_iff.mp hDir
    cases hes
    have hPut : put u (directory es) ([] ++ [n]) = directory (putEntry n u es) := by
      rw [List.nil_append, put]
      cases es.lookup n with
      | none => rfl
      | some v => rfl
    rw [hPut]
    cases q with
    | nil => rfl
    | cons m r =>
      rw [view?_cons, lookup_putEntry]
      by_cases hm : m = n
      · subst hm
        rw [if_pos rfl, Option.bind_some]
        cases r with
        | nil =>
          rw [List.nil_append, if_pos rfl, view?, get?]
          rfl
        | cons k r =>
          have hBelow : (directory es).view? (m :: k :: r) = none := by
            by_contra hSome
            exact hPlace (isDirectory_of_below (q := [m]) hSome)
          rw [hBelow, view?, hu k r]
          simp
      · rw [if_neg hm, if_neg (by simp [hm]), view?_cons]
  | cons k dir ih =>
    have hRoot : t.view? [] = some none :=
      root_of_view? (List.cons_ne_nil k dir) (by rw [hDir]; exact Option.some_ne_none _)
    obtain ⟨es, hes⟩ := view?_eq_directory_iff.mp hRoot
    cases hes
    rw [view?_cons] at hDir
    obtain ⟨v, hv, hInner⟩ := Option.bind_eq_some_iff.mp hDir
    rw [List.cons_append, view?_cons, hv, Option.bind_some] at hPlace
    rw [List.cons_append, put, hv]
    cases q with
    | nil => rfl
    | cons m r =>
      rw [view?_cons, lookup_putEntry, view?_cons]
      by_cases hm : m = k
      · subst hm
        rw [if_pos rfl, Option.bind_some, ih hInner hPlace, hv, Option.bind_some]
        simp
      · rw [if_neg hm, if_neg (by simp [hm])]

theorem putEntry_self {es : List (Text × FileTree)} {n : Text} {v : FileTree}
    (h : es.lookup n = some v) : putEntry n v es = es := by
  induction es with
  | nil => cases h
  | cons e es ih =>
    obtain ⟨m, w⟩ := e
    rw [lookup_cons_eq] at h
    rw [putEntry]
    split
    · rename_i hm
      rw [if_pos hm.symm, Option.some.injEq] at h
      rw [h]
    · rename_i hm
      rw [if_neg (Ne.symm hm)] at h
      rw [ih h]

/-- Putting a tree where it stands already changes nothing. -/
theorem put_self {t u : FileTree} {q : List Text} (h : t.get? q = some u) : put u t q = t := by
  induction q generalizing t with
  | nil =>
    rw [get?] at h
    cases h
    rw [put]
  | cons n q ih =>
    cases t with
    | file d => rw [put]
    | directory es =>
      rw [get?] at h
      obtain ⟨v, hv, hInner⟩ := Option.bind_eq_some_iff.mp h
      rw [put, hv]
      dsimp only
      rw [ih hInner, putEntry_self hv]

theorem putEntry_putEntry (n : Text) (u v : FileTree) (es : List (Text × FileTree)) :
    putEntry n u (putEntry n v es) = putEntry n u es := by
  induction es with
  | nil => exact if_pos rfl
  | cons e es ih =>
    obtain ⟨m, w⟩ := e
    by_cases hm : m = n
    · simp only [putEntry, if_pos hm]
    · simp only [putEntry, if_neg hm, ih]

/-- Of two trees that are put at one place the last stays. -/
theorem put_put (u v t : FileTree) (q : List Text) : put u (put v t q) q = put u t q := by
  induction q generalizing t with
  | nil => rw [put, put]
  | cons n q ih =>
    cases t with
    | file d => rw [put]
    | directory es =>
      cases hFound : es.lookup n with
      | some w =>
        have hNext : (putEntry n (put v w q) es).lookup n = some (put v w q) := by
          rw [lookup_putEntry, if_pos rfl]
        simp only [put, hFound, hNext, ih, putEntry_putEntry]
      | none =>
        cases q with
        | nil =>
          have hNext : (putEntry n v es).lookup n = some v := by rw [lookup_putEntry, if_pos rfl]
          simp only [put, hFound, hNext, List.isEmpty_nil, if_true, putEntry_putEntry]
        | cons => simp [put, hFound]

end AnchorScript.FileTree
