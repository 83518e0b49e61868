import AnchorScript.Proofs.Syntax.FileCompletion
import AnchorScript.Proofs.Token.Ending

/-!
# Sources that end too early

A source that is called incomplete is refused, and there is a text that makes it a file when it is
written behind it. A source that is refused and becomes a file behind a line break is called
incomplete, unless it ends in a string: there the string is the fault, and no further line is waited
for.
-/

namespace AnchorScript.Syntax

open AnchorScript.Lexer AnchorScript.Syntax.Parser

theorem exists_parse_eq_error_iff {name src : Text} :
    (∃ d, parse name src = .error d) ↔ ∃ t, located (file (tokens src)) = .error t := by
  unfold parse located
  cases file (tokens src) with
  | error e => exact ⟨fun _ => ⟨_, rfl⟩, fun _ => ⟨_, rfl⟩⟩
  | ok g => exact ⟨nofun, nofun⟩

/-- The token is the end of the input, or a comment that reaches to it. -/
def AtEnd (t : Token) : Prop := t.kind = .endOfInput ∨ t.isOpenComment = true

theorem isIncomplete_iff {src : Text} :
    isIncomplete src = true ↔ ∃ t, located (file (tokens src)) = .error t ∧ AtEnd t := by
  unfold isIncomplete located
  cases file (tokens src) with
  | error e =>
    have hAtEnd : e.atEnd = true ↔ AtEnd e.token := by simp [Failure.atEnd, AtEnd]
    refine ⟨fun h => ⟨_, rfl, hAtEnd.mp h⟩, fun ⟨_, hToken, h⟩ => ?_⟩
    cases hToken
    exact hAtEnd.mpr h
  | ok g => exact ⟨nofun, nofun⟩

theorem AtEnd.isCutOff {t : Token} (h : AtEnd t) : t.isCutOff = true := by
  rcases h with h | h <;> simp [Token.isCutOff, h]

theorem AtEnd.halts {t : Token} (h : AtEnd t) : Halts t := by
  rcases h with h | h
  · exact .inl h
  · exact .inr (of_decide_eq_true (Bool.and_eq_true_iff.mp h).1)

theorem AtEnd.kind_ne_string {t : Token} (h : AtEnd t) : t.kind ≠ .string := by
  intro hString
  rcases h with h | h <;> simp [Token.isOpenComment, hString] at h

/-- The file compares to the files that begin with the same tokens. -/
theorem cut_tokens {src : Text} {pre rest : List Token} {stop : Token}
    (hTokens : tokensFrom .start src = pre ++ stop :: rest) (hStop : AtEnd stop) :
    FileCut pre (stop :: rest) (located (file (tokens src))) fun tail =>
      located (file (pre ++ tail)) := by
  rw [tokens, hTokens]
  exact cut_file hStop.halts pre

/-- What was read before a token that blocks leaves it. -/
theorem current_mem_of_blocks {taken rest pre post : List Token} {last : Token}
    (h : taken ++ rest = pre ++ last :: post) (hTaken : ∀ t ∈ taken, blocks t = false)
    (hLast : blocks last = true) : current rest ∈ pre ++ [last] := by
  rcases List.append_eq_append_iff.mp h with ⟨between, rfl, rfl⟩ | ⟨between, rfl, hRest⟩
  · cases between <;> simp [current]
  · cases between with
    | nil =>
      cases hRest
      simp [current]
    | cons t between =>
      cases hRest
      have hPassed := hTaken last (by simp)
      rw [hLast] at hPassed
      cases hPassed

theorem refused_of_inString {ts pre : List Token} {last stop : Token}
    (hTokens : ts = pre ++ [last, stop]) (hPre : ∀ t ∈ pre, t.isCutOff = false)
    (hString : last.kind = .string) (hOpen : StringLiteral.value? last.literal = none) :
    ∃ t, located (file ts) = .error t ∧ ¬ AtEnd t := by
  have hBlocks : blocks last = true := by simp [blocks, hString, hOpen]
  have hInside : ∀ t ∈ pre ++ [last], ¬ AtEnd t := by
    intro t ht hEnd
    rcases List.mem_append.mp ht with ht | ht
    · have hCut := hEnd.isCutOff
      rw [hPre t ht] at hCut
      cases hCut
    · cases List.mem_singleton.mp ht
      exact hEnd.kind_ne_string hString
  have hStays := file_stays ts
  generalize located (file ts) = x at hStays
  cases hStays with
  | read hSplit hTaken hStop =>
    have hMem := current_mem_of_blocks (hSplit.symm.trans hTokens) hTaken hBlocks
    exact absurd (.inl hStop) (hInside _ hMem)
  | failed hSplit hTaken =>
    exact ⟨_, rfl, hInside _ (current_mem_of_blocks (hSplit.symm.trans hTokens) hTaken hBlocks)⟩

theorem broken_spelled {ts : List Token} {ws : List Word} {stop : Token} (hSpell : Spell ts ws)
    (hStop : stop.kind = .endOfInput) :
    ∃ (ts' : List Token) (stop' : Token), broken (ts ++ [stop]) = ts' ++ [stop'] ∧ Spell ts' ws ∧
      stop'.kind = .endOfInput := by
  cases hSpell with
  | nil => exact ⟨[], _, rfl, .nil, hStop⟩
  | @cons t w ts ws ht hRest =>
    exact ⟨{ t with newlineBefore := true } :: ts, stop, rfl, .cons ht hRest, hStop⟩

/-- A source that is called incomplete is refused, and some text completes it. -/
theorem exists_completion_of_isIncomplete (name : Text) {src : Text}
    (h : isIncomplete src = true) :
    (∃ d, parse name src = .error d) ∧ ∃ ext f, parse name (src ++ ext) = .ok f := by
  obtain ⟨t, hFault, hEnd⟩ := isIncomplete_iff.mp h
  refine ⟨exists_parse_eq_error_iff.mpr ⟨t, hFault⟩, ?_⟩
  cases ending .start src with
  | cut pre b closing hTokens hPre hStop _ _ _ hClose =>
    have hCut := cut_tokens hTokens hStop
    rw [hFault] at hCut
    cases hCut with
    | read hx => cases hx
    | refused ht hx _ =>
      cases hx
      have hWhole := hEnd.isCutOff
      rw [hPre t ht] at hWhole
      cases hWhole
    | starved ws _ hFill =>
      obtain ⟨l, hMore⟩ := hClose (Word.line ws)
      obtain ⟨ts, last, hLine, hSpell, _, hLast⟩ := tokensFrom_line ws l
      obtain ⟨ts', last', hBroken, hSpell', hLast'⟩ := broken_spelled hSpell hLast
      obtain ⟨f, hf⟩ := hFill ts' last' hSpell' hLast'
      refine ⟨b :: (closing ++ Word.line ws), f, parse_eq_ok_iff.mpr ?_⟩
      rw [tokens, hMore, hLine, hBroken]
      exact hf
  | inString pre hTokens hPre hString hOpen =>
    obtain ⟨t', hFault', hInside⟩ := refused_of_inString hTokens hPre hString hOpen
    cases hFault'.symm.trans hFault
    exact absurd hEnd hInside

/-- A method that was left in a comment, within an argument list, within a statement. -/
def leftSource : Text :=
  "export default class P \x7b run(a: u8) \x7b\n  return f(a, [1 + /* the rest"

theorem leftSource_completable :
    isIncomplete leftSource = true ∧ (∃ d, parse "p.ts" leftSource = .error d) ∧
      ∃ ext f, parse "p.ts" (leftSource ++ ext) = .ok f := by
  have hIncomplete : isIncomplete leftSource = true := by
    simp (disch := rfl) only [leftSource, Text.ofString_literal]
    decide +kernel
  exact ⟨hIncomplete, exists_completion_of_isIncomplete "p.ts" hIncomplete⟩

/-- A source that is refused and becomes a file behind a line break is called incomplete, unless it
ends in a string that nothing closes. -/
theorem isIncomplete_eq_false_iff_of_continued {name src ext : Text} {d : Diagnostic} {f : File}
    (hFail : parse name src = .error d) (hMore : parse name (src ++ 10 :: ext) = .ok f) :
    isIncomplete src = false ↔
      ∃ t ∈ tokens src, t.kind = .string ∧ StringLiteral.value? t.literal = none := by
  obtain ⟨t, hFault⟩ := exists_parse_eq_error_iff.mp ⟨d, hFail⟩
  cases ending .start src with
  | cut pre _ _ hTokens hPre hStop hRest hLine _ _ =>
    have hCut := cut_tokens hTokens hStop
    rw [hFault] at hCut
    have hIncomplete : isIncomplete src = true := by
      cases hCut with
      | read hx => cases hx
      | refused _ _ hRefused =>
        obtain ⟨tail, hTail⟩ := hLine ext
        rw [parse_eq_ok_iff, tokens, hTail, hRefused] at hMore
        cases hMore
      | starved _ hx _ =>
        cases hx
        exact isIncomplete_iff.mpr ⟨_, hFault, hStop⟩
    have hClosed : ¬ ∃ t ∈ tokens src, t.kind = .string ∧
        StringLiteral.value? t.literal = none := by
      rintro ⟨t, ht, hString, hOpen⟩
      rw [tokens, hTokens] at ht
      rcases List.mem_append.mp ht with ht | ht
      · have hSettled := hPre t ht
        simp [Token.isCutOff, hString, hOpen] at hSettled
      · rcases List.mem_cons.mp ht with rfl | ht
        · exact AtEnd.kind_ne_string hStop hString
        · exact AtEnd.kind_ne_string (.inl (hRest t ht)) hString
    rw [hIncomplete]
    exact iff_of_false (by decide) hClosed
  | @inString pre last stop hTokens hPre hString hOpen =>
    obtain ⟨t', hFault', hInside⟩ := refused_of_inString hTokens hPre hString hOpen
    refine ⟨fun _ => ⟨last, ?_, hString, hOpen⟩, fun _ => ?_⟩
    · rw [tokens, hTokens]
      simp
    · refine Bool.eq_false_iff.mpr fun h => ?_
      obtain ⟨t, hFault, hEnd⟩ := isIncomplete_iff.mp h
      cases hFault'.symm.trans hFault
      exact hInside hEnd

/-- An import whose module path goes on in the next line. -/
def splitPathSource : Text := "import a from 'x"

theorem splitPathSource_not_isIncomplete :
    (∃ d, parse "p.ts" splitPathSource = .error d) ∧
      (∃ f, parse "p.ts" (splitPathSource ++ 10 :: "y'") = .ok f) ∧
      (∃ t ∈ tokens splitPathSource, t.kind = .string ∧ StringLiteral.value? t.literal = none) ∧
      isIncomplete splitPathSource = false := by
  obtain ⟨f, hMore, -⟩ := Outcome.exists_ok_of_any
    (x := parse "p.ts" (splitPathSource ++ 10 :: "y'")) (fun _ => true) (by decide +kernel)
  cases hFail : parse "p.ts" splitPathSource with
  | ok g =>
    have hRefused : (parse "p.ts" splitPathSource).isOk = false := by decide +kernel
    rw [hFail] at hRefused
    cases hRefused
  | error d =>
    have hOpen : ∃ t ∈ tokens splitPathSource, t.kind = .string ∧
        StringLiteral.value? t.literal = none := by decide +kernel
    exact ⟨⟨d, rfl⟩, ⟨f, hMore⟩, hOpen,
      (isIncomplete_eq_false_iff_of_continued hFail hMore).mpr hOpen⟩

end AnchorScript.Syntax
