import AnchorScript.FileTree.Basic
import Mathlib.Data.List.Basic

/-!
# The places that paths mean

A path means a place: the names from the top of the tree with dots resolved. The operations on the
texts of paths are faithful to places. A cleaned path means the same place, and its dots, if any, stand
in front of all other names, so no directory has to exist that the path does not end below.
-/

namespace AnchorScript

namespace Text

theorem splitOn_of_not_mem {b : UInt8} {s : Text} (h : b ∉ s) : splitOn b s = [s] := by
  induction s with
  | nil => rfl
  | cons c r ih =>
    rw [List.mem_cons, not_or] at h
    rw [splitOn, if_neg (Ne.symm h.1), ih h.2]

theorem splitOn_append_cons (b : UInt8) (s r : Text) :
    splitOn b (s ++ b :: r) = splitOn b s ++ splitOn b r := by
  induction s with
  | nil => simp [splitOn]
  | cons c s ih =>
    rw [List.cons_append, splitOn, splitOn, ih]
    split
    · rfl
    · cases hParts : splitOn b s with
      | nil => exact absurd hParts (splitOn_ne_nil b s)
      | cons p ps => rfl

theorem not_mem_of_mem_splitOn {b : UInt8} {s part : Text} (h : part ∈ splitOn b s) : b ∉ part := by
  induction s generalizing part with
  | nil =>
    rw [List.mem_singleton.mp h]
    exact List.not_mem_nil
  | cons c s ih =>
    rw [splitOn] at h
    split at h
    · rcases List.mem_cons.mp h with rfl | h
      · exact List.not_mem_nil
      · exact ih h
    · rename_i hc
      cases hParts : splitOn b s with
      | nil => exact absurd hParts (splitOn_ne_nil b s)
      | cons p ps =>
        rw [hParts] at h ih
        rcases List.mem_cons.mp h with rfl | h
        · rw [List.mem_cons, not_or]
          exact ⟨Ne.symm hc, ih List.mem_cons_self⟩
        · exact ih (List.mem_cons_of_mem p h)

/-- Joined parts are split again where no part has the separator in it. -/
theorem splitOn_join {b : UInt8} {parts : List Text} (hParts : parts ≠ []) (h : ∀ p ∈ parts, b ∉ p) :
    splitOn b (join [b] parts) = parts := by
  induction parts with
  | nil => exact absurd rfl hParts
  | cons p ps ih =>
    obtain ⟨hp, hps⟩ := List.forall_mem_cons.mp h
    cases ps with
    | nil =>
      rw [join, List.intercalate_singleton, splitOn_of_not_mem hp]
    | cons q qs =>
      rw [join_cons_cons, List.append_assoc, List.singleton_append, splitOn_append_cons,
        splitOn_of_not_mem hp, ih (List.cons_ne_nil q qs) hps]
      rfl

end Text

namespace Path

/-- A name that stands for itself. -/
def IsName (n : Text) : Prop := n ≠ [] ∧ n ≠ "." ∧ n ≠ ".." ∧ slash ∉ n

/-- The place that a path means. -/
def place (p : Text) : List Text := resolve true [] (Text.splitOn slash p)

/-- The names read so far, last first, after one more. -/
def pushed (rooted : Bool) (read : List Text) (n : Text) : List Text :=
  if n = [] || n = "." then read
  else if n = ".." then
    match read with
    | [] => if rooted then [] else [n]
    | r :: rs => if r = ".." then n :: r :: rs else rs
  else n :: read

theorem resolve_eq_foldl (rooted : Bool) (read ns : List Text) :
    resolve rooted read ns = (ns.foldl (pushed rooted) read).reverse := by
  fun_induction resolve rooted read ns <;> simp_all [pushed]

theorem pushed_here {n : Text} (h : n = [] ∨ n = ".") (rooted : Bool) (read : List Text) :
    pushed rooted read n = read := by
  rw [pushed.eq_def, if_pos (by simpa using h)]

theorem pushed_name {n : Text} (h : IsName n) (rooted : Bool) (read : List Text) :
    pushed rooted read n = n :: read := by
  rw [pushed.eq_def, if_neg (by simp [h.1, h.2.1]), if_neg h.2.2.1]

theorem pushed_up (rooted : Bool) (read : List Text) : pushed rooted read ".." =
    match read with
    | [] => if rooted then [] else [".."]
    | r :: rs => if r = ".." then ".." :: r :: rs else rs := by
  rw [pushed.eq_def, if_neg (by decide), if_pos rfl]

/-- Every part of a path is a name or dots. -/
theorem isName_or_dots {n : Text} (h : slash ∉ n) : (n = [] ∨ n = ".") ∨ n = ".." ∨ IsName n := by
  by_cases hHere : n = [] ∨ n = "."
  · exact .inl hHere
  · by_cases hUp : n = ".."
    · exact .inr (.inl hUp)
    · rw [not_or] at hHere
      exact .inr (.inr ⟨hHere.1, hHere.2, hUp, h⟩)

theorem foldl_pushed_names {ns : List Text} (h : ∀ n ∈ ns, IsName n) (rooted : Bool)
    (read : List Text) : ns.foldl (pushed rooted) read = ns.reverse ++ read := by
  induction ns generalizing read with
  | nil => rfl
  | cons n ns ih =>
    obtain ⟨hn, hns⟩ := List.forall_mem_cons.mp h
    rw [List.foldl_cons, pushed_name hn, ih hns, List.reverse_cons, List.append_assoc,
      List.singleton_append]

/-- From the root, dots lead nowhere. -/
theorem foldl_pushed_dots {ns : List Text} (h : ∀ n ∈ ns, n = [] ∨ n = "." ∨ n = "..") :
    ns.foldl (pushed true) [] = [] := by
  induction ns with
  | nil => rfl
  | cons n ns ih =>
    obtain ⟨hn, hns⟩ := List.forall_mem_cons.mp h
    rw [List.foldl_cons]
    rcases hn with hn | hn | rfl
    · rw [pushed_here (.inl hn), ih hns]
    · rw [pushed_here (.inr hn), ih hns]
    · rw [pushed_up, if_pos rfl, ih hns]

/-- What has been read of a path: names above steps upwards, of which there are none at a root. -/
theorem foldl_pushed_split {rooted : Bool} {ns : List Text} (h : ∀ n ∈ ns, slash ∉ n)
    {names : List Text} (hNames : ∀ n ∈ names, IsName n) {ups : Nat} (hUps : rooted = true → ups = 0) :
    ∃ names' ups', ns.foldl (pushed rooted) (names ++ List.replicate ups (Text.ofString "..")) =
        names' ++ List.replicate ups' (Text.ofString "..") ∧ (∀ n ∈ names', IsName n) ∧
      (rooted = true → ups' = 0) ∧ ns.foldl (pushed true) names = names' := by
  induction ns generalizing names ups with
  | nil => exact ⟨names, ups, rfl, hNames, hUps, rfl⟩
  | cons n ns ih =>
    obtain ⟨hn, hns⟩ := List.forall_mem_cons.mp h
    rw [List.foldl_cons, List.foldl_cons]
    rcases isName_or_dots hn with hHere | rfl | hName
    · rw [pushed_here hHere, pushed_here hHere]
      exact ih hns hNames hUps
    · cases names with
      | nil =>
        cases rooted with
        | true =>
          rw [hUps rfl]
          exact ih hns hNames fun _ => rfl
        | false =>
          have hPush : pushed false ([] ++ List.replicate ups (Text.ofString "..")) ".." =
              [] ++ List.replicate (ups + 1) (Text.ofString "..") := by
            rw [pushed_up]
            cases ups with
            | zero => rfl
            | succ ups => rfl
          rw [hPush]
          exact ih hns hNames fun hFalse => by cases hFalse
      | cons r rs =>
        obtain ⟨hr, hrs⟩ := List.forall_mem_cons.mp hNames
        rw [List.cons_append, pushed_up, pushed_up]
        simp only [hr.2.2.1, if_false]
        exact ih hns hrs hUps
    · rw [pushed_name hName, pushed_name hName, ← List.cons_append]
      exact ih hns (List.forall_mem_cons.mpr ⟨hName, hNames⟩) hUps

theorem resolve_names {ns : List Text} (h : ∀ n ∈ ns, IsName n) (rooted : Bool) :
    resolve rooted [] ns = ns := by
  rw [resolve_eq_foldl, foldl_pushed_names h, List.append_nil, List.reverse_reverse]

theorem isName_of_mem_place {p n : Text} (h : n ∈ place p) : IsName n := by
  obtain ⟨names, ups, _, hNames, _, hFold⟩ := foldl_pushed_split
    (fun n (hn : n ∈ Text.splitOn slash p) => Text.not_mem_of_mem_splitOn hn)
    (List.forall_mem_nil IsName) (fun _ : true = true => (rfl : 0 = 0))
  rw [place, resolve_eq_foldl, hFold] at h
  exact hNames n (List.mem_reverse.mp h)

theorem place_name {n : Text} (h : IsName n) : place n = [n] := by
  rw [place, Text.splitOn_of_not_mem h.2.2.2, resolve_names (by simpa using h)]

/-- Below a directory a name is one step further. -/
theorem place_below (dir : Text) {n : Text} (h : IsName n) :
    place (dir ++ slash :: n) = place dir ++ [n] := by
  rw [place, Text.splitOn_append_cons, Text.splitOn_of_not_mem h.2.2.2, resolve_eq_foldl,
    List.foldl_append, List.foldl_cons, List.foldl_nil, pushed_name h, List.reverse_cons,
    ← resolve_eq_foldl, ← place]

/-- A path whose dots stand in front of its names. -/
def IsTame (p : Text) : Prop :=
  p ≠ [] ∧ ∃ dots names, Text.splitOn slash p = dots ++ names ∧
    (∀ n ∈ dots, n = [] ∨ n = "." ∨ n = "..") ∧ ∀ n ∈ names, IsName n

theorem place_of_split {p : Text} {dots names : List Text}
    (h : Text.splitOn slash p = dots ++ names) (hDots : ∀ n ∈ dots, n = [] ∨ n = "." ∨ n = "..")
    (hNames : ∀ n ∈ names, IsName n) : place p = names := by
  rw [place, h, resolve_eq_foldl, List.foldl_append, foldl_pushed_dots hDots,
    foldl_pushed_names hNames, List.append_nil, List.reverse_reverse]

/-- What resolving leaves of a path: steps upwards, unless it is rooted, and then its place. -/
theorem exists_resolve (p : Text) : ∃ ups, resolve (isAbsolute p) [] (Text.splitOn slash p) =
    List.replicate ups (Text.ofString "..") ++ place p ∧ (isAbsolute p = true → ups = 0) := by
  obtain ⟨names, ups, hFold, _, hUps, hPlace⟩ := foldl_pushed_split
    (fun n (hn : n ∈ Text.splitOn slash p) => Text.not_mem_of_mem_splitOn hn)
    (List.forall_mem_nil IsName) (fun _ : isAbsolute p = true => (rfl : 0 = 0))
  refine ⟨ups, ?_, hUps⟩
  rw [List.nil_append, List.replicate_zero] at hFold
  rw [place, resolve_eq_foldl, resolve_eq_foldl, hFold, hPlace, List.reverse_append,
    List.reverse_replicate]

/-- A cleaned path has its dots in front and means what it meant. -/
theorem exists_split_clean (p : Text) : clean p ≠ [] ∧ ∃ dots,
    Text.splitOn slash (clean p) = dots ++ place p ∧ ∀ n ∈ dots, n = [] ∨ n = "." ∨ n = ".." := by
  obtain ⟨ups, hResolved, hUps⟩ := exists_resolve p
  have hUp : ∀ n ∈ List.replicate ups (Text.ofString ".."), n = [] ∨ n = "." ∨ n = ".." :=
    fun n hn => .inr (.inr (List.eq_of_mem_replicate hn))
  have hParts : ∀ n ∈ List.replicate ups (Text.ofString "..") ++ place p, n ≠ [] ∧ slash ∉ n := by
    intro n hn
    rcases List.mem_append.mp hn with hn | hn
    · rw [List.eq_of_mem_replicate hn]
      decide
    · exact ⟨(isName_of_mem_place hn).1, (isName_of_mem_place hn).2.2.2⟩
  rw [clean, hResolved]
  by_cases hNone : List.replicate ups (Text.ofString "..") ++ place p = []
  · obtain ⟨_, hPlace⟩ := List.append_eq_nil_iff.mp hNone
    rw [hNone, hPlace]
    by_cases hRoot : isAbsolute p = true
    · rw [if_pos hRoot]
      exact ⟨by decide, [[], []], rfl, by simp⟩
    · rw [if_neg hRoot]
      exact ⟨by decide, [Text.ofString "."], rfl, by simp⟩
  · have hSplit :
        Text.splitOn slash (Text.join "/" (List.replicate ups (Text.ofString "..") ++ place p)) =
          List.replicate ups (Text.ofString "..") ++ place p :=
      Text.splitOn_join hNone fun n hn => (hParts n hn).2
    by_cases hRoot : isAbsolute p = true
    · rw [if_pos hRoot]
      refine ⟨List.cons_ne_nil _ _, [[]], ?_, by simp⟩
      rw [← List.nil_append (slash :: _), Text.splitOn_append_cons, hSplit, hUps hRoot]
      rfl
    · have hText : Text.join "/" (List.replicate ups (Text.ofString "..") ++ place p) ≠ [] := by
        intro hEmpty
        rw [hEmpty] at hSplit
        exact (hParts [] (hSplit ▸ List.mem_singleton_self _)).1 rfl
      rw [if_neg hRoot, if_neg (by simpa using hText)]
      exact ⟨hText, _, hSplit, hUp⟩

theorem isTame_clean (p : Text) : IsTame (clean p) := by
  obtain ⟨hText, dots, hSplit, hDots⟩ := exists_split_clean p
  exact ⟨hText, dots, place p, hSplit, hDots, fun _ hn => isName_of_mem_place hn⟩

theorem place_clean (p : Text) : place (clean p) = place p := by
  obtain ⟨_, dots, hSplit, hDots⟩ := exists_split_clean p
  exact place_of_split hSplit hDots fun _ hn => isName_of_mem_place hn

theorem join_pair (dir : Text) {n : Text} (h : n ≠ []) :
    join [dir, n] = clean (if dir = [] then n else dir ++ slash :: n) := by
  have hName : n.isEmpty = false := by simpa using h
  by_cases hDir : dir = []
  · simp [join, hDir, hName, Text.join]
  · have hParts : [dir, n].filter (!·.isEmpty) = [dir, n] := by simp [hDir, hName]
    have hText : Text.join "/" [dir, n] = dir ++ slash :: n := by
      rw [Text.join_cons_cons, List.append_assoc, Text.join, List.intercalate_singleton]
      rfl
    rw [join, hParts, if_neg hDir, ← hText]

theorem isTame_join (dir : Text) {n : Text} (h : n ≠ []) : IsTame (join [dir, n]) := by
  rw [join_pair dir h]
  exact isTame_clean _

theorem place_join (dir : Text) {n : Text} (h : IsName n) :
    place (join [dir, n]) = place dir ++ [n] := by
  rw [join_pair dir h.1, place_clean]
  split
  · rename_i hDir
    rw [hDir, place_name h]
    rfl
  · exact place_below dir h

/-- A path is cut behind its last slash, and what precedes the cut means the place above. -/
theorem exists_split_upToSlash (p : Text) : ∃ parts n, slash ∉ n ∧ p = upToSlash p ++ n ∧
    (upToSlash p = [] ∨ ∃ u, upToSlash p = u ++ [slash]) ∧
    Text.splitOn slash p = parts ++ [n] ∧ Text.splitOn slash (upToSlash p) = parts ++ [[]] := by
  have hCut : p = upToSlash p ++ (p.reverse.takeWhile (· ≠ slash)).reverse := by
    rw [upToSlash, Text.trimRight, ← List.reverse_append, List.takeWhile_append_dropWhile,
      List.reverse_reverse]
  have hName : slash ∉ (p.reverse.takeWhile (· ≠ slash)).reverse := by
    intro hMem
    have hKept := List.all_eq_true.mp List.all_takeWhile _ (List.mem_reverse.mp hMem)
    simp at hKept
  generalize (p.reverse.takeWhile (· ≠ slash)).reverse = n at hCut hName
  cases hDropped : p.reverse.dropWhile (· ≠ slash) with
  | nil =>
    have hNone : upToSlash p = [] := by rw [upToSlash, Text.trimRight, hDropped, List.reverse_nil]
    refine ⟨[], n, hName, hCut, .inl hNone, ?_, ?_⟩
    · rw [hNone, List.nil_append] at hCut
      rw [hCut, Text.splitOn_of_not_mem hName, List.nil_append]
    · rw [hNone]
      rfl
  | cons b r =>
    have hSlash : b = slash := by
      have hStop := List.head?_dropWhile_not (· ≠ slash) p.reverse
      rw [hDropped] at hStop
      simpa using hStop
    have hUp : upToSlash p = r.reverse ++ [slash] := by
      rw [upToSlash, Text.trimRight, hDropped, List.reverse_cons, hSlash]
    refine ⟨Text.splitOn slash r.reverse, n, hName, hCut, .inr ⟨_, hUp⟩, ?_, ?_⟩
    · rw [hCut, hUp, List.append_assoc, List.singleton_append, Text.splitOn_append_cons,
        Text.splitOn_of_not_mem hName]
    · rw [hUp, Text.splitOn_append_cons]
      rfl

/-- The place of a path that ends in a name is one step below the place of its directory. -/
theorem place_eq_of_split {p n : Text} {parts : List Text} (h : Text.splitOn slash p = parts ++ [n])
    (hName : IsName n) : place p = place (upToSlash p) ++ [n] := by
  obtain ⟨parts', last, _, _, _, hSplit, hUp⟩ := exists_split_upToSlash p
  obtain ⟨rfl, hLast⟩ := List.append_inj' (h.symm.trans hSplit) rfl
  rw [place, place, h, hUp, resolve_eq_foldl, resolve_eq_foldl, List.foldl_append,
    List.foldl_append]
  simp only [List.foldl_cons, List.foldl_nil, pushed_name hName, pushed_here (.inl rfl),
    List.reverse_cons]

theorem place_parent {p : Text} (h : IsTame p) {dir : List Text} {n : Text}
    (hPlace : place p = dir ++ [n]) : place (parent p) = dir := by
  obtain ⟨_, dots, names, hSplit, hDots, hNames⟩ := h
  have hSame : dir ++ [n] = names := hPlace.symm.trans (place_of_split hSplit hDots hNames)
  rw [← hSame, ← List.append_assoc] at hSplit
  have hName : IsName n := hNames n (hSame ▸ List.mem_append_right _ List.mem_cons_self)
  have hBelow := place_eq_of_split hSplit hName
  rw [hPlace] at hBelow
  rw [parent, place_clean]
  exact (List.append_inj_left' hBelow rfl).symm

theorem isName_append {s e : Text} (hs : slash ∉ s) (he : slash ∉ e) (hLong : 3 ≤ e.length) :
    IsName (s ++ e) := by
  have hLength : 3 ≤ (s ++ e).length := by
    rw [List.length_append]
    omega
  refine ⟨?_, ?_, ?_, ?_⟩
  · rintro hEq
    rw [hEq] at hLength
    simp at hLength
  · rintro hEq
    rw [hEq] at hLength
    revert hLength
    decide
  · rintro hEq
    rw [hEq] at hLength
    revert hLength
    decide
  · rw [List.mem_append, not_or]
    exact ⟨hs, he⟩

/-- A path that ends like a file of some kind ends in the name of such a file. -/
theorem exists_name_of_suffix {p e : Text} (he : slash ∉ e) (hLong : 3 ≤ e.length) (h : e <:+ p) :
    ∃ s, slash ∉ s ∧ p = upToSlash p ++ (s ++ e) ∧ place p = place (upToSlash p) ++ [s ++ e] := by
  obtain ⟨parts, n, hn, hCut, hEdge, hSplit, _⟩ := exists_split_upToSlash p
  have hEnds : e <:+ n := by
    rcases List.suffix_or_suffix_of_suffix h ⟨_, hCut.symm⟩ with hEnds | ⟨x, rfl⟩
    · exact hEnds
    · -- what the ending has before the last name would be a slash
      obtain ⟨y, hy⟩ := h
      rw [← List.append_assoc] at hy
      have hBefore : y ++ x = upToSlash p := List.append_cancel_right (hy.trans hCut)
      rcases List.eq_nil_or_concat x with rfl | ⟨x', b, rfl⟩
      · exact List.suffix_rfl
      · rcases hEdge with hNone | ⟨u, hu⟩
        · rw [hNone] at hBefore
          simp at hBefore
        · rw [hu, List.concat_eq_append, ← List.append_assoc] at hBefore
          have hLast := List.append_inj_right' hBefore rfl
          rw [List.cons.injEq] at hLast
          simp [hLast.1] at he
  obtain ⟨s, rfl⟩ := hEnds
  rw [List.mem_append, not_or] at hn
  exact ⟨s, hn.1, hCut, place_eq_of_split hSplit (isName_append hn.1 he hLong)⟩

theorem slash_not_mem_stem {p e : Text} (he : slash ∉ e) (hLong : 3 ≤ e.length) (h : e <:+ p) :
    slash ∉ stem p := by
  obtain ⟨s, hs, hCut, _⟩ := exists_name_of_suffix he hLong h
  have hTrim : Text.trimRight (· = slash) p = p := by
    obtain ⟨b, r, hReverse⟩ := List.exists_cons_of_ne_nil (l := e.reverse) (by
      intro hNone
      rw [List.reverse_eq_nil_iff.mp hNone] at hLong
      simp at hLong)
    have hb : b ≠ slash := by
      rintro rfl
      exact he (List.mem_reverse.mp (hReverse ▸ List.mem_cons_self))
    have hText : p.reverse = b :: (r ++ (upToSlash p ++ s).reverse) := by
      conv_lhs => rw [hCut]
      rw [← List.append_assoc, List.reverse_append, hReverse, List.cons_append]
    rw [Text.trimRight, hText, List.dropWhile_cons_of_neg (by simpa using hb), ← hText,
      List.reverse_reverse]
  have hBase : base p = s ++ e := by
    have hSome : p.isEmpty = false := by
      rw [hCut]
      cases e with
      | nil => simp at hLong
      | cons b e => simp
    have hName : p.drop (upToSlash p).length = s ++ e := by
      conv_lhs => rw [hCut]
      rw [List.drop_left' (congrArg (fun q => (upToSlash q).length) hCut)]
    simp only [base, hTrim, hSome, Bool.false_eq_true, if_false, hName]
  intro hMem
  have hInBase : slash ∈ base p := by
    rw [stem, Text.dropEnd?] at hMem
    split at hMem
    · exact List.mem_of_mem_take hMem
    · exact hMem
  rw [hBase, List.mem_append] at hInBase
  exact hInBase.elim hs he

end Path

end AnchorScript
