import AnchorScript.Proofs.ProgramTable.Editing
import AnchorScript.Proofs.Rust.Spelling
import AnchorScript.Proofs.Toml.Quoted

/-!
# Entries overwrite one another

The line of an entry is one line, is kept when it is trimmed, begins no table and sets its own name. So
an editor that looks for the name finds the line it wrote before, and a second id leaves the text that
it leaves alone. All other lines are kept.
-/

namespace AnchorScript

namespace Text

theorem trimSpace_nil : trimSpace [] = [] :=
  trimSpace_of_forall (by rw [pieces]; simp)

theorem trimLeft_of_forall {drop : UInt8 → Bool} {s : Text} (h : ∀ b ∈ s, drop b = false) :
    trimLeft drop s = s := by
  cases s with
  | nil => rfl
  | cons b s => rw [trimLeft, List.dropWhile_cons_of_neg (by simp [h b])]

theorem trimRight_of_forall {drop : UInt8 → Bool} {s : Text} (h : ∀ b ∈ s, drop b = false) :
    trimRight drop s = s := by
  have hKept : s.reverse.dropWhile drop = s.reverse :=
    trimLeft_of_forall fun b hb => h b (List.mem_reverse.mp hb)
  rw [trimRight, hKept, List.reverse_reverse]

end Text

namespace ProgramTable

open Text

/-- A name that a line can set as it stands. The bytes are those that end a line, quote a key, begin a
comment, end a key and begin a table. -/
structure IsKey (name : Text) : Prop where
  nonempty : name ≠ []
  seen : ∀ p ∈ pieces name, p.isSpace = false
  plain : ∀ b ∈ name, b ∉ [10, 34, 35, 61, 91]

/-- Names of letters, digits, underscores and dollar signs can be set. -/
theorem isKey_of_isWord {name : Text} (h : IsWord name) : IsKey name := by
  have hPart (b : UInt8) (hb : b < 128) : Lexer.isIdentPart b = true →
      isSpaceChar (byteChar b) = false ∧ b ∉ [10, 34, 35, 61, 91] :=
    forall_ascii (P := fun b => Lexer.isIdentPart b = true →
      isSpaceChar (byteChar b) = false ∧ b ∉ [10, 34, 35, 61, 91]) (by decide) hb
  have hAscii := isAscii_of_isWord h
  refine ⟨h.1, fun p hp => ?_, fun b hb => (hPart b (hAscii b hb) (h.2 b hb)).2⟩
  rw [pieces_of_isAscii hAscii] at hp
  obtain ⟨b, hb, rfl⟩ := List.mem_map.mp hp
  exact (hPart b (hAscii b hb) (h.2 b hb)).1

section Entry

variable {name : Text} (hName : IsKey name) (id : Text)

theorem entry_eq (name id : Text) : ∃ r, entry name id = name ++ 32 :: 61 :: r ++ [34] := by
  refine ⟨32 :: 34 :: (pieces id).flatMap Quoted.escapePiece, ?_⟩
  have hEquals : Text.ofString " = " = [32, 61, 32] := rfl
  have hQuote : Text.ofString "\"" = [34] := rfl
  simp [entry, quoted, hEquals, hQuote]

include hName

theorem not_mem_entry : 10 ∉ entry name id := by
  have hQuoted : 10 ∉ quoted id := fun hMem => absurd (Toml.le_of_mem_quoted hMem) (by decide)
  have hKey : 10 ∉ name := fun hMem => hName.plain 10 hMem (by decide)
  simp only [entry, List.mem_append, not_or]
  exact ⟨⟨hKey, by decide⟩, hQuoted⟩

theorem trimSpace_entry : trimSpace (entry name id) = entry name id := by
  obtain ⟨r, hr⟩ := entry_eq name id
  rw [hr]
  refine trimSpace_concat (by decide) (by decide) fun p hp => hName.seen p ?_
  rw [List.append_assoc, List.cons_append, pieces_append_cons (by decide)] at hp
  obtain ⟨q, qs, hPieces⟩ := List.exists_cons_of_ne_nil (pieces_ne_nil hName.nonempty)
  rw [hPieces] at hp ⊢
  cases hp
  exact List.mem_cons_self

/-- What a line with this name in front begins with is in the name. -/
theorem head?_entry_ne {b : UInt8} (hb : b ∈ [10, 34, 35, 61, 91]) :
    (entry name id).head? ≠ some b := by
  obtain ⟨c, r, rfl⟩ := List.exists_cons_of_ne_nil hName.nonempty
  rintro ⟨⟩
  exact hName.plain _ List.mem_cons_self hb

theorem beginsTable_entry : beginsTable (entry name id) = false := by
  rw [beginsTable, trimSpace_entry hName]
  exact decide_eq_false (head?_entry_ne hName id (by decide))

theorem sets_entry : sets name (entry name id) = true := by
  have hTrim := trimSpace_entry hName id
  have hComment := head?_entry_ne hName id (b := 35) (by decide)
  obtain ⟨r, hr⟩ := entry_eq name id
  have hSays : saysSomething (entry name id) = true := by
    rw [saysSomething, hTrim, Bool.and_eq_true]
    exact ⟨by simp [hr], decide_eq_true hComment⟩
  -- the key of the line is the name and the space in front of the equals sign
  have hTaken : (entry name id).takeWhile (· ≠ 61) = name ++ [32] := by
    have hNone : ∀ b ∈ name, decide (b ≠ 61) = true := fun b hb => by
      refine decide_eq_true ?_
      rintro rfl
      exact hName.plain 61 hb (by decide)
    rw [hr, List.append_assoc, List.takeWhile_append_of_pos hNone]
    rfl
  have hUnquoted : ∀ b ∈ name, decide (b = 34) = false := fun b hb => by
    refine decide_eq_false ?_
    rintro rfl
    exact hName.plain 34 hb (by decide)
  have hEquals : (entry name id).contains 61 = true := by simp [hr]
  rw [sets, hTrim, hTaken, trimSpace_append_space, trimSpace_of_forall hName.seen,
    trimLeft_of_forall hUnquoted, trimRight_of_forall hUnquoted, hSays, hEquals]
  simp

end Entry

theorem trimSpace_header (c : Text) : trimSpace (header c) = header c := by
  have hOpen : Text.ofString "[programs." = 91 :: Text.ofString "programs." := rfl
  have hHeader : header c = [] ++ 91 :: (Text.ofString "programs." ++ c ++ [93]) := by
    simp [header, hOpen, show Text.ofString "]" = [93] from rfl]
  have hEnd : header c = Text.ofString "[programs." ++ c ++ [93] := rfl
  rw [hEnd]
  refine trimSpace_concat (by decide) (by decide) fun p hp => ?_
  rw [← hEnd, hHeader, pieces_append_cons (by decide), pieces] at hp
  cases hp
  decide

variable {c name text h : Text} {before lead body tail after : List Text}

theorem Section.mono (hSection : Section c before h body after) (hSub : tail ⊆ body) :
    Section c before h tail after :=
  { hSection with body := fun l hl => hSection.body l (hSub hl) }

theorem Section.insert {l : Text} (hSection : Section c before h (lead ++ tail) after)
    (hLine : beginsTable l = false) : Section c before h (lead ++ l :: tail) after := by
  refine { hSection with body := ?_ }
  have hBody := hSection.body
  simp only [List.forall_mem_append, List.forall_mem_cons] at hBody ⊢
  exact ⟨hBody.1, hLine, hBody.2⟩

/-- In a text with a table of the cluster, only the lines of this table are edited. -/
theorem lines_edit (hName : IsKey name) (hLines : lines text = before ++ h :: (body ++ after))
    (hSection : Section c before h body after) (id : Text) :
    lines (edit text c name id) =
      before ++ h :: (editSection name (entry name id) body ++ after) := by
  have hBreak : ∀ l ∈ before ++ h :: (body ++ after), 10 ∉ l :=
    fun l hl => not_mem_of_mem_lines (hLines ▸ hl)
  simp only [List.forall_mem_append, List.forall_mem_cons] at hBreak
  obtain ⟨hBefore, hHeader, hBody, hAfter⟩ := hBreak
  have hEdited : ∀ l ∈ editSection name (entry name id) body, 10 ∉ l := by
    obtain ⟨lead, old, tail, rfl, _, _, hEdit⟩ := exists_of_editSection name body
    rw [hEdit]
    simp only [List.forall_mem_append, List.forall_mem_cons] at hBody ⊢
    exact ⟨hBody.1, not_mem_entry hName id, hBody.2.2⟩
  have hAbove : ∀ b ∈ before, ∀ l ∈ lines b, trimSpace l ≠ header c := by
    intro b hb l hl
    rw [lines, splitOn_of_not_mem (hBefore b hb)] at hl
    exact List.mem_singleton.mp hl ▸ hSection.before b hb
  have hBelow : ∀ l ∈ (after.flatMap lines).head?, beginsTable l = true := by
    rw [flatMap_lines hAfter]
    exact hSection.after
  rw [← unlines_lines text, hLines, edit_within hAbove hSection.header hHeader
    (fun l hl => ⟨hBody l hl, hSection.body l hl⟩) hBelow, lines_unlines (by simp), flatMap_lines]
  simp only [List.forall_mem_append, List.forall_mem_cons]
  exact ⟨hBefore, hHeader, hEdited, hAfter⟩

/-- Where every id leaves its entry at the same place, in front of which no line of the table sets the
name, a second id goes to the place of the first. -/
theorem edit_edit (hName : IsKey name) (hSection : Section c before h (lead ++ tail) after)
    (hLead : ∀ l ∈ lead, sets name l = false)
    (hOnce : ∀ id, lines (edit text c name id) =
      before ++ h :: (lead ++ entry name id :: tail ++ after)) (id id' : Text) :
    edit (edit text c name id) c name id' = edit text c name id' := by
  have hTwice : lines (edit (edit text c name id) c name id') = lines (edit text c name id') := by
    rw [lines_edit hName (hOnce id) (hSection.insert (beginsTable_entry hName id)),
      editSection_append hLead (sets_entry hName id), hOnce]
  rw [← unlines_lines (edit (edit text c name id) c name id'), hTwice, unlines_lines]

/-- Without a table of the cluster, every id leaves its entry below a new header. -/
theorem exists_lines_edit (hCluster : 10 ∉ c) (hName : IsKey name)
    (hNone : ∀ l ∈ lines text, trimSpace l ≠ header c) :
    ∃ before, Section c before (header c) [[]] [] ∧
      ∀ id, lines (edit text c name id) = before ++ header c :: [entry name id, []] := by
  obtain ⟨kept, _, blank, hKept, _, _, _, hBlank, hAppended⟩ :=
    exists_of_appendSection (splitOn_ne_nil 10 _) (unlines_lines (trimRight (· = 10) text)).symm
  have hLines : ∀ l ∈ kept, l ∈ lines text := fun l hl => lines_trimRight_subset text (hKept hl)
  have hEmpty : beginsTable [] = false := by
    rw [beginsTable, trimSpace_nil]
    rfl
  refine ⟨kept ++ blank, ⟨?_, trimSpace_header c, by simpa using hEmpty, by simp⟩, fun id => ?_⟩
  · refine List.forall_mem_append.mpr ⟨fun l hl => hNone l (hLines l hl), fun l hl hEq => ?_⟩
    rw [hBlank l hl, trimSpace_nil] at hEq
    exact absurd (List.append_eq_nil_iff.mp hEq.symm).2 (by decide)
  · rw [edit_without hNone, hAppended, lines_unlines (by simp), flatMap_lines, List.append_assoc]
    simp only [List.forall_mem_append, List.forall_mem_cons]
    refine ⟨fun l hl => not_mem_of_mem_lines (hLines l hl), fun l hl => ?_, ?_, not_mem_entry hName id,
      by simp⟩
    · rw [hBlank l hl]
      exact List.not_mem_nil
    · simp only [header, List.mem_append, not_or]
      exact ⟨⟨by decide, hCluster⟩, by decide⟩

/-- Recording an id overwrites the id recorded before. In a text with a table of the cluster one line
gives way to the entry or the entry is put between two lines, and all lines around it stay; to any other
text, without the line breaks at its end, a table with the entry is added. -/
theorem edit_overwrites (hCluster : 10 ∉ c) (hName : IsKey name) (text : Text) :
    (∀ id id', edit (edit text c name id) c name id' = edit text c name id') ∧
      ((∃ l ∈ lines text, trimSpace l = header c) → ∃ above old below,
        lines text = above ++ (Option.toList old ++ below) ∧
        (∃ l ∈ above, trimSpace l = header c) ∧ (∀ l ∈ old, sets name l = true) ∧
        ∀ id, lines (edit text c name id) = above ++ entry name id :: below) ∧
      ((∀ l ∈ lines text, trimSpace l ≠ header c) → ∀ id, edit text c name id =
        (if trimRight (· = 10) text = [] then [] else trimRight (· = 10) text ++ ofString "\n\n") ++
          header c ++ ofString "\n" ++ entry name id ++ ofString "\n") := by
  rcases exists_section c text with hNone | ⟨before, h, body, after, hLines, hSection⟩
  · obtain ⟨before, hSection, hOnce⟩ := exists_lines_edit hCluster hName hNone
    have hTable : Section c before (header c) ([] ++ [[]]) [] := hSection
    refine ⟨edit_edit hName hTable (by simp) hOnce, ?_, fun _ id => ?_⟩
    · rintro ⟨l, hl, hHeader⟩
      exact absurd hHeader (hNone l hl)
    · rw [edit_without hNone, appendSection]
      simp only [List.isEmpty_iff]
  · obtain ⟨lead, old, tail, rfl, hLead, hOld, hEdit⟩ := exists_of_editSection name body
    have hOnce (id : Text) : lines (edit text c name id) =
        before ++ h :: (lead ++ entry name id :: tail ++ after) := by
      rw [lines_edit hName hLines hSection, hEdit]
    have hRest : Section c before h (lead ++ tail) after :=
      hSection.mono ((List.sublist_append_right _ tail).append_left lead).subset
    refine ⟨edit_edit hName hRest hLead hOnce, fun _ => ?_, fun hNone => ?_⟩
    · refine ⟨before ++ h :: lead, old, tail ++ after, ?_, ⟨h, by simp, hSection.header⟩, hOld,
        fun id => ?_⟩
      · rw [hLines]
        simp
      · rw [hOnce]
        simp
    · have hMem : h ∈ lines text := hLines ▸ List.mem_append_right _ List.mem_cons_self
      exact absurd hSection.header (hNone h hMem)

theorem vault_edit_overwrites : IsKey "vault" ∧
    edit (edit (unlines ["[programs.localnet]", "# none yet"]) "localnet" "vault" "A") "localnet"
      "vault" "B" = edit (unlines ["[programs.localnet]", "# none yet"]) "localnet" "vault" "B" := by
  have hName : IsKey "vault" := isKey_of_isWord (isWord_of_all rfl (by decide))
  exact ⟨hName, (edit_overwrites (by decide) hName _).1 "A" "B"⟩

end ProgramTable

end AnchorScript
