import AnchorScript.Proofs.FileTree.Paths
import AnchorScript.Proofs.Toml.Lines
import AnchorScript.ProgramTable
import Mathlib.Data.List.TakeWhile

/-!
# The edited text, line by line

A text is a list of blocks with line breaks between them, where a block may hold line breaks of its
own. The editor rewrites or adds one line below the header of a cluster and keeps all blocks around it;
without the header it adds blocks at the end.
-/

namespace AnchorScript

namespace Text

open Toml

theorem join_splitOn (b : UInt8) (s : Text) : join [b] (splitOn b s) = s := by
  induction s with
  | nil => rfl
  | cons c s ih =>
    rw [splitOn]
    cases hParts : splitOn b s with
    | nil => exact absurd hParts (splitOn_ne_nil b s)
    | cons p ps =>
      rw [hParts] at ih
      split
      · rename_i hc
        rw [join_cons_cons, ih, hc]
        rfl
      · dsimp only
        rw [← ih]
        cases ps with
        | nil => simp [join]
        | cons q qs => rw [join_cons_cons, join_cons_cons]; rfl

theorem unlines_lines (s : Text) : unlines (lines s) = s := join_splitOn 10 s

theorem following_append (ls ls' : List Text) :
    following (ls ++ ls') = following ls ++ following ls' :=
  List.flatMap_append

theorem unlines_eq_of_following {ls ls' : List Text} (h : ls ≠ []) (h' : ls' ≠ [])
    (hFollowing : following ls = following ls') : unlines ls = unlines ls' := by
  obtain ⟨l, ls, rfl⟩ := List.exists_cons_of_ne_nil h
  obtain ⟨l', ls', rfl⟩ := List.exists_cons_of_ne_nil h'
  rw [unlines_cons, unlines_cons]
  exact (List.cons.inj hFollowing).2

theorem unlines_append {ls ls' : List Text} (h : ls ≠ []) :
    unlines (ls ++ ls') = unlines ls ++ following ls' := by
  obtain ⟨l, ls, rfl⟩ := List.exists_cons_of_ne_nil h
  rw [List.cons_append, unlines_cons, unlines_cons, following_append, List.append_assoc]

theorem following_flatMap_lines (bs : List Text) : following (bs.flatMap lines) = following bs := by
  induction bs with
  | nil => rfl
  | cons b bs ih =>
    have hLines : following (lines b) = 10 :: b := by
      obtain ⟨l, ls, hSplit⟩ := List.exists_cons_of_ne_nil (splitOn_ne_nil 10 b)
      have hText := unlines_lines b
      rw [lines, hSplit, unlines_cons] at hText
      rw [lines, hSplit, ← hText]
      rfl
    rw [List.flatMap_cons, following_append, ih, hLines]
    rfl

theorem lines_unlines {bs : List Text} (h : bs ≠ []) : lines (unlines bs) = bs.flatMap lines := by
  induction bs with
  | nil => exact (h rfl).elim
  | cons b bs ih =>
    cases bs with
    | nil => simp [unlines, join]
    | cons b' bs =>
      rw [unlines, join_cons_cons, List.append_assoc, List.singleton_append, lines,
        splitOn_append_cons, ← lines, ← lines, ← unlines, ih (by simp)]
      rfl

theorem not_mem_of_mem_lines {s l : Text} (h : l ∈ lines s) : 10 ∉ l := not_mem_of_mem_splitOn h

theorem flatMap_lines {ls : List Text} (h : ∀ l ∈ ls, 10 ∉ l) : ls.flatMap lines = ls := by
  induction ls with
  | nil => rfl
  | cons l ls ih =>
    obtain ⟨hl, hls⟩ := List.forall_mem_cons.mp h
    rw [List.flatMap_cons, ih hls, lines, splitOn_of_not_mem hl]
    rfl

theorem following_breaks (k : Nat) : following (List.replicate k []) = List.replicate k 10 := by
  induction k with
  | zero => rfl
  | succ k ih => rw [List.replicate_succ, List.replicate_succ, ← ih]; rfl

theorem exists_trimRight_breaks (text : Text) :
    ∃ k, text = trimRight (· = 10) text ++ List.replicate k 10 := by
  have hTaken : ∀ b ∈ text.reverse.takeWhile (· = 10), b = 10 := fun b hb =>
    of_decide_eq_true (List.all_eq_true.mp List.all_takeWhile b hb)
  have hSplit := congrArg List.reverse
    (List.takeWhile_append_dropWhile (p := fun b : UInt8 => b = 10) (l := text.reverse))
  rw [List.reverse_append, List.reverse_reverse, List.eq_replicate_of_mem hTaken,
    List.reverse_replicate] at hSplit
  exact ⟨_, hSplit.symm⟩

theorem lines_trimRight_subset (text : Text) : lines (trimRight (· = 10) text) ⊆ lines text := by
  intro l hl
  obtain ⟨k, hBreaks⟩ := exists_trimRight_breaks text
  have hNonempty : lines (trimRight (· = 10) text) ≠ [] := splitOn_ne_nil 10 _
  have hText : text = unlines (lines (trimRight (· = 10) text) ++ List.replicate k []) := by
    rw [unlines_append hNonempty, unlines_lines, following_breaks]
    exact hBreaks
  rw [hText, lines_unlines (by simp [hNonempty]), List.flatMap_append,
    flatMap_lines fun l hl => not_mem_of_mem_lines hl]
  exact List.mem_append_left _ hl

end Text

namespace ProgramTable

open Toml Text

/-- The first line that sets the name gives way to the new one. -/
theorem editSection_append {name old : Text} {before : List Text}
    (hBefore : ∀ l ∈ before, sets name l = false) (hOld : sets name old = true) (new : Text)
    (after : List Text) :
    editSection name new (before ++ old :: after) = before ++ new :: after := by
  rw [editSection, if_pos (by simp [hOld])]
  induction before with
  | nil => rw [List.nil_append, replaceEntry, if_pos hOld]; rfl
  | cons l before ih =>
    obtain ⟨hl, hBefore⟩ := List.forall_mem_cons.mp hBefore
    rw [List.cons_append, replaceEntry, if_neg (by simp [hl]), ih hBefore]
    rfl

theorem exists_of_insertEntry (ls : List Text) :
    ∃ before after, ls = before ++ after ∧ ∀ new, insertEntry new ls = before ++ new :: after := by
  generalize hAfter : ls.reverse.takeWhile (!saysSomething ·) = after
  have hSplit : ls = (ls.reverse.dropWhile (!saysSomething ·)).reverse ++ after.reverse := by
    rw [← hAfter, ← List.reverse_append, List.takeWhile_append_dropWhile, List.reverse_reverse]
  generalize (ls.reverse.dropWhile (!saysSomething ·)).reverse = before at hSplit
  subst hSplit
  refine ⟨before, after.reverse, rfl, fun new => ?_⟩
  rw [insertEntry, hAfter, List.length_append, List.length_reverse, Nat.add_sub_cancel, List.take_left]

theorem exists_of_appendSection {text : Text} {blocks : List Text} (hBlocks : blocks ≠ [])
    (hText : trimRight (· = 10) text = unlines blocks) : ∃ kept blank blank', kept ⊆ blocks ∧
      kept ++ blank ≠ [] ∧ text = unlines (kept ++ blank) ∧ (∀ l ∈ blank, l = []) ∧
      (∀ l ∈ blank', l = []) ∧ ∀ header new,
        appendSection text header new = unlines (kept ++ (blank' ++ [header, new, []])) := by
  obtain ⟨k, hBreaks⟩ := exists_trimRight_breaks text
  rw [hText] at hBreaks
  have hBreak : ofString "\n" = [10] := rfl
  have hEnd (header new : Text) :
      unlines [header, new, []] = header ++ ofString "\n" ++ new ++ ofString "\n" := by
    simp [unlines, join, List.intercalate, hBreak]
  have hBlank {k : Nat} : ∀ l ∈ List.replicate k ([] : Text), l = [] :=
    fun l hl => List.eq_of_mem_replicate hl
  cases hKept : unlines blocks with
  | nil =>
    refine ⟨[], List.replicate (k + 1) [], [], by simp, by simp, ?_, hBlank, by simp,
      fun header new => ?_⟩
    · rw [hBreaks, hKept, List.nil_append, List.nil_append, List.replicate_succ, unlines_cons,
        following_breaks, List.nil_append]
    · rw [appendSection, hText, hKept]
      exact (hEnd header new).symm
  | cons b kept =>
    refine ⟨blocks, List.replicate k [], [[]], List.Subset.refl _, by simp [hBlocks], ?_, hBlank,
      by simp, fun header new => ?_⟩
    · rw [hBreaks, unlines_append hBlocks, following_breaks]
    · rw [appendSection, hText, unlines_append hBlocks, List.singleton_append]
      have hTwo : ofString "\n\n" = [10, 10] := rfl
      simp [hKept, following, hTwo, hBreak]

/-- The section with an entry in it: in the place of the first line that sets the name, or as a new
line. -/
theorem exists_of_editSection (name : Text) (body : List Text) : ∃ before old after,
    body = before ++ (Option.toList old ++ after) ∧ (∀ l ∈ before, sets name l = false) ∧
      (∀ l ∈ old, sets name l = true) ∧
      ∀ new, editSection name new body = before ++ new :: after := by
  cases hFound : body.find? (sets name) with
  | some old =>
    obtain ⟨hOld, before, after, rfl, hBefore⟩ := List.find?_eq_some_iff_append.mp hFound
    have hBefore : ∀ l ∈ before, sets name l = false := fun l hl => by simpa using hBefore l hl
    exact ⟨before, some old, after, rfl, hBefore, by simpa using hOld,
      fun new => editSection_append hBefore hOld new after⟩
  | none =>
    have hNone : ∀ l ∈ body, sets name l = false := by simpa using List.find?_eq_none.mp hFound
    obtain ⟨before, after, rfl, hInserted⟩ := exists_of_insertEntry body
    have hAny : ¬(before ++ after).any (sets name) = true := by
      rw [List.any_eq_true]
      rintro ⟨l, hl, hSets⟩
      rw [hNone l hl] at hSets
      cases hSets
    exact ⟨before, none, after, rfl, fun l hl => hNone l (List.mem_append_left _ hl), by simp,
      fun new => by rw [editSection, if_neg hAny, hInserted]⟩

/-- The lines before the table of a cluster, its header, its lines and those from the next table on. -/
structure Section (c : Text) (before : List Text) (h : Text) (body after : List Text) : Prop where
  before : ∀ l ∈ before, trimSpace l ≠ header c
  header : trimSpace h = header c
  body : ∀ l ∈ body, beginsTable l = false
  after : ∀ l ∈ after.head?, beginsTable l = true

/-- A text has a table of the cluster or no line that looks like its header. -/
theorem exists_section (c text : Text) : (∀ l ∈ lines text, trimSpace l ≠ header c) ∨
    ∃ before h body after, lines text = before ++ h :: (body ++ after) ∧
      Section c before h body after := by
  cases hDrop : (lines text).dropWhile (fun l => !decide (trimSpace l = header c)) with
  | nil =>
    refine .inl fun l hl => ?_
    simpa using List.dropWhile_eq_nil_iff.1 hDrop l hl
  | cons h rest =>
    have hSplit := List.takeWhile_append_dropWhile (p := fun l => !decide (trimSpace l = header c))
      (l := lines text)
    have hRest := List.takeWhile_append_dropWhile (p := fun l => !beginsTable l) (l := rest)
    have hHeader := List.head?_dropWhile_not (fun l => !decide (trimSpace l = header c)) (lines text)
    have hAfter := List.head?_dropWhile_not (fun l => !beginsTable l) rest
    rw [hDrop] at hSplit hHeader
    refine .inr ⟨_, h, _, _, by rw [hRest, hSplit], ⟨fun l hl => ?_, by simpa using hHeader,
      fun l hl => ?_, fun l hl => ?_⟩⟩
    · simpa using List.all_eq_true.mp List.all_takeWhile l hl
    · simpa using List.all_eq_true.mp List.all_takeWhile l hl
    · rw [hl] at hAfter
      simpa using hAfter

variable {c name id : Text}

theorem edit_without {text : Text} (h : ∀ l ∈ lines text, trimSpace l ≠ header c) :
    edit text c name id = appendSection text (header c) (entry name id) := by
  have hNone : (lines text).dropWhile (fun l => !decide (trimSpace l = header c)) = [] :=
    List.dropWhile_eq_nil_iff.2 fun l hl => by simp [h l hl]
  rw [edit]
  dsimp only
  rw [hNone]

theorem edit_within {before body after : List Text} {h : Text}
    (hBefore : ∀ b ∈ before, ∀ l ∈ lines b, trimSpace l ≠ header c)
    (hHeader : trimSpace h = header c) (hLine : 10 ∉ h)
    (hBody : ∀ l ∈ body, 10 ∉ l ∧ beginsTable l = false)
    (hAfter : ∀ l ∈ (after.flatMap lines).head?, beginsTable l = true) :
    edit (unlines (before ++ h :: (body ++ after))) c name id =
      unlines (before ++ h :: (editSection name (entry name id) body ++ after)) := by
  have hLines : lines (unlines (before ++ h :: (body ++ after))) =
      before.flatMap lines ++ h :: (body ++ after.flatMap lines) := by
    rw [lines_unlines (by simp), List.flatMap_append, List.flatMap_cons, List.flatMap_append,
      flatMap_lines fun l hl => (hBody l hl).1, lines, splitOn_of_not_mem hLine]
    rfl
  have hPassed : ∀ l ∈ before.flatMap lines, (!decide (trimSpace l = header c)) = true :=
    fun l hl => by
      obtain ⟨b, hb, hl⟩ := List.mem_flatMap.mp hl
      simp [hBefore b hb l hl]
  have hEntries : ∀ l ∈ body, (!beginsTable l) = true := fun l hl => by simp [(hBody l hl).2]
  have hTaken : (body ++ after.flatMap lines).takeWhile (!beginsTable ·) = body := by
    rw [List.takeWhile_append_of_pos hEntries]
    cases hLast : after.flatMap lines with
    | nil => simp
    | cons l ls =>
      rw [hLast] at hAfter
      rw [List.takeWhile_cons_of_neg (by simp [hAfter l rfl]), List.append_nil]
  rw [edit]
  dsimp only
  rw [hLines, List.dropWhile_append_of_pos hPassed, List.takeWhile_append_of_pos hPassed,
    List.dropWhile_cons_of_neg (by simp [hHeader]), List.takeWhile_cons_of_neg (by simp [hHeader])]
  dsimp only
  rw [hTaken, List.drop_left]
  refine unlines_eq_of_following (by simp) (by simp) ?_
  have hCons (l : Text) (ls : List Text) : following (l :: ls) = 10 :: l ++ following ls := rfl
  simp only [List.append_nil, following_append, hCons, following_flatMap_lines, List.append_assoc,
    List.cons_append]

end ProgramTable

end AnchorScript
