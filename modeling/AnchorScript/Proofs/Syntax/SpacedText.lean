import AnchorScript.Proofs.Syntax.Semicolons

/-!
# Sources without line breaks

The tokens of a source that is a file are words, so they can be written on one line with single
spaces between them. With a semicolon for every line break that ended something, the line is the
same file at other places.
-/

namespace AnchorScript.Syntax

open AnchorScript.Lexer AnchorScript.Syntax.Parser

/-- The tokens on one line, with single spaces between them. -/
def spaced (ts : List Token) : Text := Text.join [32] (ts.map Token.literal)

theorem exists_of_itemRest? {region : Region} {ts rest : List Token}
    (h : region.itemRest? ts = some rest) :
    ∃ taken, ts = taken ++ rest ∧ ∀ t ∈ taken, blocks t = false := by
  have hRead : ∀ {α : Type} {x : Except Token (α × List Token)}, restOf x = some rest →
      Stays ts x → ∃ taken, ts = taken ++ rest ∧ ∀ t ∈ taken, blocks t = false := by
    intro α x hRest hStays
    obtain ⟨a, rfl⟩ := restOf_eq_some_iff.mp hRest
    cases hStays with
    | read hTokens hTaken => exact ⟨_, hTokens, hTaken⟩
  match region with
  | .file => exact hRead h (importDecl_stays ts)
  | .head _ => cases h
  | .body .cls =>
    obtain ⟨p, hProperty⟩ := restOf_eq_some_iff.mp h
    exact hRead (restOf_eq_some_iff.mpr ⟨_, propertyFrom_eq_ok_iff.mp hProperty⟩) (member_stays ts)
  | .body .method =>
    cases ts with
    | nil => cases h
    | cons t r => exact hRead h (statement_stays t r)
  | .body .interface =>
    refine hRead h (.bind (field_stays "field" ts) fun f r _ => ?_)
    exact .map (endOfField_stays f.name r) fun _ => rfl

theorem kind_ne_endOfInput {t : Token} (h : blocks t = false) : t.kind ≠ .endOfInput := by
  intro hKind
  rw [blocks, hKind] at h
  cases h

theorem mem_closed {ends : TokenKind → Bool} {item : List Token} {t : Token}
    (h : t ∈ closed ends item) : t = semicolon ∨ t ∈ item := by
  unfold closed at h
  split at h
  · exact .inr h
  · exact (List.mem_append.mp h).symm.imp_left List.mem_singleton.mp

theorem mem_withSemicolons {region : Region} {ts : List Token} {t : Token}
    (ht : t ∈ withSemicolons region ts) : t = semicolon ∨ t ∈ ts ∧ t.kind ≠ .endOfInput := by
  fun_induction withSemicolons region ts with
  | case1 => cases ht
  | case2 => cases ht
  | case3 region u r _ rest hItem ih =>
    obtain ⟨taken, hTokens, hTaken⟩ := exists_of_itemRest? hItem
    rw [hTokens, between_append] at ht
    rw [hTokens]
    rcases List.mem_append.mp ht with ht | ht
    · exact (mem_closed ht).imp_right fun ht =>
        ⟨List.mem_append_left rest ht, kind_ne_endOfInput (hTaken t ht)⟩
    · exact (ih ht).imp_right fun h => ⟨List.mem_append_right taken h.1, h.2⟩
  | case4 region u r hEnd hItem ih =>
    rcases List.mem_cons.mp ht with rfl | ht
    · exact .inr ⟨List.mem_cons_self, hEnd⟩
    · exact (ih ht).imp_right fun h => ⟨List.mem_cons_of_mem u h.1, h.2⟩

/-- Before its end, a file has no token that blocks. -/
theorem blocks_of_mem_tokens {src : Text} {f : File} (h : located (file (tokens src)) = .ok f)
    {t : Token} (ht : t ∈ tokens src) (hEnd : t.kind ≠ .endOfInput) : blocks t = false := by
  have hStays := file_stays (tokens src)
  rw [h] at hStays
  cases hStays with
  | @read _ taken rest hTokens hTaken hStop =>
    rw [hTokens] at ht
    rcases List.mem_append.mp ht with ht | ht
    · exact hTaken t ht
    · cases rest with
      | nil => cases ht
      | cons last rest =>
        cases eq_nil_of_tokensFrom hTokens hStop
        cases List.mem_singleton.mp ht
        exact absurd hStop hEnd

theorem exists_word_of_blocks {src : Text} {t : Token} (ht : t ∈ tokens src)
    (h : blocks t = false) : ∃ w, t.Is w := by
  refine exists_word_of_mem ht (fun hKind => ?_) (kind_ne_endOfInput h) fun hKind => ?_
  · rw [blocks, hKind] at h
    cases h
  · rw [blocks, hKind] at h
    rwa [← Option.not_isNone, Bool.not_eq_true']

theorem exists_word_of_mem_withSemicolons {src : Text} {f : File}
    (h : located (file (tokens src)) = .ok f) {t : Token}
    (ht : t ∈ withSemicolons .file (tokens src)) : ∃ w, t.Is w := by
  rcases mem_withSemicolons ht with rfl | ⟨ht, hEnd⟩
  · exact ⟨.punct .semicolon, rfl, rfl⟩
  · exact exists_word_of_blocks ht (blocks_of_mem_tokens h ht hEnd)

theorem exists_spell {ts : List Token} (h : ∀ t ∈ ts, ∃ w, t.Is w) : ∃ ws, Spell ts ws := by
  induction ts with
  | nil => exact ⟨[], .nil⟩
  | cons t ts ih =>
    obtain ⟨⟨w, hw⟩, hRest⟩ := List.forall_mem_cons.mp h
    obtain ⟨ws, hws⟩ := ih hRest
    exact ⟨w :: ws, .cons hw hws⟩

theorem spaced_eq_line {ts : List Token} {ws : List Word} (h : Spell ts ws) :
    spaced ts = Word.line ws := by
  have hTexts : ts.map Token.literal = ws.map Word.text := by
    induction h with
    | nil => rfl
    | cons hw _ ih => rw [List.map_cons, List.map_cons, hw.2, ih]
  rw [spaced, hTexts, Word.line]

theorem unplaced_of_spell {ts ts' : List Token} {ws : List Word} (h : Spell ts ws)
    (h' : Spell ts' ws) (hLine : ∀ t ∈ ts', t.newlineBefore = false) :
    ts'.map Token.unplaced = (onLine ts).map Token.unplaced := by
  induction h generalizing ts' with
  | nil =>
    cases h'
    rfl
  | @cons t w ts ws hw _ ih =>
    cases h' with
    | @cons t' _ ts' _ hw' hRest =>
      obtain ⟨hFirst, hOthers⟩ := List.forall_mem_cons.mp hLine
      have hSame : t'.unplaced = t.joined.unplaced := by
        simp [Token.unplaced, Token.joined, hw.1, hw.2, hw'.1, hw'.2, hFirst]
      rw [onLine_cons, List.map_cons, List.map_cons, hSame, ih hRest hOthers]

theorem file_of_unplaced_eq {ts ts' : List Token} {f : File}
    (h : ts'.map Token.unplaced = ts.map Token.unplaced) (hFile : located (file ts) = .ok f) :
    ∃ f', located (file ts') = .ok f' ∧ f'.unplaced = f.unplaced := by
  have hRight := file_alike ts'
  rw [h] at hRight
  have hAgree := Outcome.Agree.meet (file_alike ts) hRight
  rw [Outcome.mapError_eq_ok_iff.mp hFile] at hAgree
  generalize file ts' = x at hAgree ⊢
  cases hAgree with
  | ok hSame =>
    obtain ⟨_, rfl, hUnplaced⟩ := hSame
    exact ⟨_, rfl, hUnplaced.symm⟩

/-- Words that are read as a file on one line are a source of it. -/
theorem parse_line {name : Text} {ts : List Token} {ws : List Word} {f : File} (h : Spell ts ws)
    (hFile : ∀ stop, stop.kind = .endOfInput → located (file (onLine ts ++ [stop])) = .ok f) :
    ∃ f', parse name (Word.line ws) = .ok f' ∧ f'.unplaced = f.unplaced := by
  obtain ⟨us, stop, hTokens, hSpell, hLine, hStop⟩ := tokensFrom_line ws .start
  -- The tokens of the line stand at other places than `ts`, and readers do not look there.
  have hSame : (us ++ [stop]).map Token.unplaced = (onLine ts ++ [stop]).map Token.unplaced := by
    rw [List.map_append, List.map_append, unplaced_of_spell h hSpell hLine]
  obtain ⟨f', hFile', hUnplaced⟩ := file_of_unplaced_eq hSame (hFile stop hStop)
  refine ⟨f', parse_eq_ok_iff.mpr ?_, hUnplaced⟩
  rw [tokens, hTokens]
  exact hFile'

/-- Optional semicolons do not change the file. -/
theorem parse_spaced_withSemicolons {name src : Text} {f : File} (h : parse name src = .ok f) :
    ∃ f', parse name (spaced (withSemicolons .file (tokens src))) = .ok f' ∧
      f'.unplaced = f.unplaced := by
  have hFile := parse_eq_ok_iff.mp h
  obtain ⟨ws, hSpell⟩ := exists_spell fun t ht => exists_word_of_mem_withSemicolons hFile ht
  rw [spaced_eq_line hSpell]
  exact parse_line hSpell fun stop hStop => file_line hFile hStop

/-- A source whose line breaks end an import, a property, statements and a field. -/
def brokenSource : Text := Text.join "\n" [
  "import \x7b a \x7d from 'm'",
  "class P \x7b static N = 1",
  "  run(s: S) \x7b s.n = a // not a call",
  "    (s.n)",
  "    return \x7d \x7d",
  "interface S \x7b n: u64, m: u8",
  "  k: bool; \x7d"]

/-- The same tokens with their semicolons. -/
def closedSource : Text :=
  "import \x7b a \x7d from 'm' ; class P \x7b static N = 1 ; run ( s : S ) \x7b s . n = a ; " ++
  "( s . n ) ; return ; \x7d \x7d interface S \x7b n : u64 , m : u8 ; k : bool ; \x7d"

theorem closedSource_parses :
    spaced (withSemicolons .file (tokens brokenSource)) = closedSource ∧
      ∃ f f', parse "p.ts" brokenSource = .ok f ∧ parse "p.ts" closedSource = .ok f' ∧
        f'.unplaced = f.unplaced := by
  have hText : spaced (withSemicolons .file (tokens brokenSource)) = closedSource := by
    simp (disch := rfl) only [brokenSource, closedSource, Text.ofString_literal]
    decide +kernel
  obtain ⟨f, hBroken, -⟩ := Outcome.exists_ok_of_any (x := parse "p.ts" brokenSource)
    (fun _ => true) (by
      simp (disch := rfl) only [brokenSource, Text.ofString_literal]
      decide +kernel)
  obtain ⟨f', hClosed, hSame⟩ := parse_spaced_withSemicolons hBroken
  rw [hText] at hClosed
  exact ⟨hText, f, f', hBroken, hClosed, hSame⟩

end AnchorScript.Syntax
