import AnchorScript.Proofs.Token.Words
import AnchorScript.Proofs.Text.Characters
import AnchorScript.Text.Quoted
import AnchorScript.Token.Lexer

/-!
# Scanning a text token by token

A word is scanned to its end where no further byte of a word follows, an operator where a space
follows, and a quoted string always. A string of printable ASCII, tabs and line breaks has the same
value after it was quoted.
-/

namespace AnchorScript.Lexer

/-- No word that ends here goes on. -/
def Apart (rest : Text) : Prop := ∀ c r, rest = c :: r → isIdentPart c = false

/-- With `rest` behind it, the text `s` is scanned as one token, which carries `literal`. -/
def Scans (s rest : Text) (kind : TokenKind) (literal : Text) : Prop :=
  ∀ l, ∃ (t : Token) (l' : Location), t.kind = kind ∧ t.literal = literal ∧
    t.newlineBefore = false ∧ tokensFrom l (s ++ rest) = t :: tokensFrom l' rest

theorem apart_nil : Apart [] := by
  rintro c r hNil
  cases hNil

theorem apart_cons {c : UInt8} (r : Text) (h : isIdentPart c = false) : Apart (c :: r) := by
  rintro c' r' hSame
  cases hSame
  exact h

theorem tokensFrom_of_blanks_nil {s : Text} (l : Location) (h : (blanks s).2 = []) :
    tokensFrom l s =
      [⟨.endOfInput, [], l.after (blanks s).1, l.after (blanks s).1, (blanks s).1.contains 10⟩] := by
  rw [tokensFrom]
  split
  · rfl
  · rename_i hCons
    rw [h] at hCons
    cases hCons

theorem tokensFrom_of_blanks_cons {s : Text} {c : UInt8} {r : Text} (l : Location)
    (h : (blanks s).2 = c :: r) :
    tokensFrom l s =
      ⟨(lexeme c r).kind, (lexeme c r).literal, l.after (blanks s).1,
        stopOf (lexeme c r) ((l.after (blanks s).1).after (c :: (lexeme c r).tail)),
        (blanks s).1.contains 10 ||
          ((lexeme c r).kind = .illegal && (lexeme c r).tail.contains 10)⟩ ::
      tokensFrom ((l.after (blanks s).1).after (c :: (lexeme c r).tail))
        (r.drop (lexeme c r).tail.length) := by
  rw [tokensFrom]
  split
  · rename_i hNil
    rw [h] at hNil
    cases hNil
  · rename_i hCons
    rw [h] at hCons
    cases hCons
    rfl

theorem tokensFrom_nil (l : Location) : tokensFrom l [] = [⟨.endOfInput, [], l, l, false⟩] := by
  have hBlanks : blanks [] = ([], []) := blanks.eq_def []
  rw [tokensFrom_of_blanks_nil l (by rw [hBlanks]), hBlanks]
  rfl

theorem tokensFrom_space (l : Location) (s : Text) :
    tokensFrom l (32 :: s) = tokensFrom (l.next 32) s := by
  have hBlanks : blanks (32 :: s) = (32 :: (blanks s).1, (blanks s).2) := blanks.eq_def _
  have hGap : (blanks (32 :: s)).1 = 32 :: (blanks s).1 := by rw [hBlanks]
  have hNewline : (32 :: (blanks s).1).contains 10 = (blanks s).1.contains 10 := by simp
  cases hRest : (blanks s).2 with
  | nil =>
    rw [tokensFrom_of_blanks_nil _ hRest, tokensFrom_of_blanks_nil l (by rw [hBlanks, hRest]),
      hGap, hNewline]
    rfl
  | cons c r =>
    rw [tokensFrom_of_blanks_cons _ hRest, tokensFrom_of_blanks_cons l (by rw [hBlanks, hRest]),
      hGap, hNewline]
    rfl

theorem blanks_of_start {c : UInt8} (r : Text) (hBlank : isBlank c = false) (hSlash : c ≠ 47) :
    blanks (c :: r) = ([], c :: r) := by
  rw [blanks.eq_def]
  simp [hBlank, hSlash]

/-- One token, from what begins no blank and is one lexeme. -/
theorem scans_of_lexeme {c : UInt8} {tail rest : Text} {kind : TokenKind} {literal : Text}
    (hBlanks : blanks (c :: (tail ++ rest)) = ([], c :: (tail ++ rest)))
    (hLexeme : lexeme c (tail ++ rest) = ⟨kind, literal, tail⟩) (hLegal : kind ≠ .illegal) :
    Scans (c :: tail) rest kind literal := by
  intro l
  have hTokens := tokensFrom_of_blanks_cons (s := c :: (tail ++ rest)) l (by rw [hBlanks])
  rw [hLexeme, hBlanks] at hTokens
  simp only [Location.after_nil, hLegal, decide_false, Bool.false_and, List.drop_left] at hTokens
  exact ⟨_, _, rfl, rfl, rfl, hTokens⟩

theorem takeWhile_of_apart {w rest : Text} (hw : ∀ b ∈ w, isIdentPart b = true)
    (hRest : Apart rest) : (w ++ rest).takeWhile isIdentPart = w := by
  rw [List.takeWhile_append_of_pos hw]
  cases rest with
  | nil => rw [List.takeWhile_nil, List.append_nil]
  | cons c r => rw [List.takeWhile_cons_of_neg (by simp [hRest c r rfl]), List.append_nil]

theorem operator?_of_isIdentPart {c : UInt8} (h : isIdentPart c = true) (r : Text) :
    operator? c r = none := by
  unfold operator?
  split
  all_goals first | rfl | exact absurd h (by decide)

theorem begins_of_isIdentPart {c : UInt8} (h : isIdentPart c = true) :
    isBlank c = false ∧ c ≠ 47 ∧ isQuote c = false ∧ c ≠ 61 := by
  refine ⟨?_, ?_, ?_, ?_⟩
  · rw [Bool.eq_false_iff]
    intro hBlank
    simp only [isBlank, Bool.or_eq_true, decide_eq_true_eq] at hBlank
    rcases hBlank with ((rfl | rfl) | rfl) | rfl <;> exact absurd h (by decide)
  · rintro rfl
    exact absurd h (by decide)
  · rw [Bool.eq_false_iff]
    intro hQuote
    simp only [isQuote, Bool.or_eq_true, decide_eq_true_eq] at hQuote
    rcases hQuote with (rfl | rfl) | rfl <;> exact absurd h (by decide)
  · rintro rfl
    exact absurd h (by decide)

theorem lexeme_of_isIdentStart {c : UInt8} {w rest : Text} (hc : isIdentStart c = true)
    (hw : ∀ b ∈ w, isIdentPart b = true) (hRest : Apart rest) :
    lexeme c (w ++ rest) =
      match Keyword.ofText? (c :: w) with
      | some k => ⟨.keyword k, c :: w, w⟩
      | none => ⟨.ident, c :: w, w⟩ := by
  have hPart := isIdentPart_of_isIdentStart c hc
  obtain ⟨_, hSlash, hQuote, _⟩ := begins_of_isIdentPart hPart
  simp only [lexeme, hSlash, decide_false, Bool.false_and, operator?_of_isIdentPart hPart, hQuote,
    hc, takeWhile_of_apart hw hRest]
  rfl

theorem scans_ident {w rest : Text} (hWord : BeginsWord isIdentStart w)
    (hName : Keyword.ofText? w = none) (hRest : Apart rest) : Scans w rest .ident w := by
  obtain ⟨c, r, rfl, hc, hr⟩ := hWord
  obtain ⟨hBlank, hSlash, _⟩ := begins_of_isIdentPart (isIdentPart_of_isIdentStart c hc)
  have hLexeme := lexeme_of_isIdentStart hc hr hRest
  rw [hName] at hLexeme
  exact scans_of_lexeme (blanks_of_start _ hBlank hSlash) hLexeme (by decide)

theorem scans_keyword {w rest : Text} {k : Keyword} (hWord : BeginsWord isIdentStart w)
    (hName : Keyword.ofText? w = some k) (hRest : Apart rest) : Scans w rest (.keyword k) w := by
  obtain ⟨c, r, rfl, hc, hr⟩ := hWord
  obtain ⟨hBlank, hSlash, _⟩ := begins_of_isIdentPart (isIdentPart_of_isIdentStart c hc)
  have hLexeme := lexeme_of_isIdentStart hc hr hRest
  rw [hName] at hLexeme
  exact scans_of_lexeme (blanks_of_start _ hBlank hSlash) hLexeme (by simp)

theorem scans_number {w rest : Text} (hWord : BeginsWord Text.isDigit w) (hRest : Apart rest) :
    Scans w rest .number w := by
  obtain ⟨c, r, rfl, hc, hr⟩ := hWord
  have hPart := isIdentPart_of_isDigit c hc
  obtain ⟨hBlank, hSlash, hQuote, _⟩ := begins_of_isIdentPart hPart
  have hStart : isIdentStart c = false := by
    simp only [Text.isDigit, isIdentStart, Text.isLetter, Text.isLower, Text.isUpper] at *
    grind
  refine scans_of_lexeme (blanks_of_start _ hBlank hSlash) ?_ (by decide)
  simp only [lexeme, hSlash, decide_false, Bool.false_and, operator?_of_isIdentPart hPart, hQuote,
    hStart, hc, takeWhile_of_apart hr hRest]
  rfl

theorem scans_punct {p : Punct} {c : UInt8} {tail rest : Text} (hText : p.text = c :: tail)
    (hBlanks : blanks (c :: (tail ++ rest)) = ([], c :: (tail ++ rest)))
    (hComment : (c = 47 && (tail ++ rest).head? = some 42) = false)
    (hOperator : operator? c (tail ++ rest) = some (p, tail.length)) :
    Scans p.text rest (.punct p) p.text := by
  have hLexeme : lexeme c (tail ++ rest) = ⟨.punct p, p.text, tail⟩ := by
    rw [lexeme, hComment, hOperator]
    simp
  rw [hText] at hLexeme ⊢
  exact scans_of_lexeme hBlanks hLexeme (by simp)

/-- Brackets, commas, dots and minus signs begin no longer token. -/
def isSingle : Punct → Bool
  | .lparen | .rparen | .lbracket | .rbracket | .comma | .dot | .minus => true
  | _ => false

theorem scans_single {p : Punct} (h : isSingle p = true) (rest : Text) :
    Scans p.text rest (.punct p) p.text := by
  unfold isSingle at h
  split at h
  case h_8 => cases h
  all_goals exact scans_punct rfl (blanks_of_start _ rfl (by decide)) rfl rfl

theorem apart_single {p : Punct} (h : isSingle p = true) (rest : Text) : Apart (p.text ++ rest) := by
  unfold isSingle at h
  split at h
  case h_8 => cases h
  all_goals exact apart_cons rest (by decide)

theorem scans_bang {c : UInt8} {rest : Text} (h : c ≠ 61) :
    Scans Punct.bang.text (c :: rest) (.punct .bang) Punct.bang.text := by
  have hOperator : operator? 33 (c :: rest) = some (.bang, 0) := by
    simp only [operator?]
    split
    · rename_i hEq
      exact absurd (List.cons.inj hEq).1 h
    · rename_i hEq
      exact absurd (List.cons.inj hEq).1 h
    · rfl
  exact scans_punct rfl (blanks_of_start _ rfl (by decide)) rfl hOperator

theorem scans_spaced (p : Punct) (rest : Text) :
    Scans p.text (32 :: rest) (.punct p) p.text := by
  by_cases hSlash : p = .slash
  · subst hSlash
    exact scans_punct rfl (blanks.eq_def _) rfl rfl
  · cases p
    case slash => exact absurd rfl hSlash
    all_goals exact scans_punct rfl (blanks_of_start _ rfl (by decide)) rfl rfl

/-- Printable ASCII, tab, line feed and carriage return. -/
def isPlain (b : UInt8) : Bool := (32 ≤ b && b ≤ 126) || b = 9 || b = 10 || b = 13

def escape (b : UInt8) : Text := Text.Quoted.escapeChar (Text.byteChar b)

theorem lt_of_isPlain {b : UInt8} (h : isPlain b = true) : b < 128 := by
  simp only [isPlain] at h
  grind

/-- A plain byte is quoted as it stands or behind a backslash that is resolved to it. -/
theorem escape_of_isPlain {b : UInt8} (h : isPlain b = true) :
    (escape b = [b] ∧ b ≠ 34 ∧ b ≠ 92) ∨
      escape b = [92, (escape b).getD 1 0] ∧ StringLiteral.escaped ((escape b).getD 1 0) = b :=
  Text.forall_ascii (P := fun b => isPlain b = true →
    (escape b = [b] ∧ b ≠ 34 ∧ b ≠ 92) ∨
      escape b = [92, (escape b).getD 1 0] ∧ StringLiteral.escaped ((escape b).getD 1 0) = b)
    (by decide +kernel) (lt_of_isPlain h) h

theorem quoted_of_isPlain {s : Text} (h : ∀ b ∈ s, isPlain b = true) :
    Text.quoted s = 34 :: (s.flatMap escape ++ [34]) := by
  have hPieces : (Text.pieces s).flatMap Text.Quoted.escapePiece = s.flatMap escape := by
    induction s with
    | nil =>
      rw [Text.pieces]
      rfl
    | cons b r ih =>
      obtain ⟨hb, hr⟩ := List.forall_mem_cons.mp h
      have hAscii := lt_of_isPlain hb
      have hRest : (b :: r).drop (Text.Piece.char (Text.byteChar b)).bytes.length = r := by
        rw [Text.Piece.bytes, Text.utf8EncodeChar_byteChar hAscii]
        rfl
      rw [Text.pieces]
      simp only [Text.firstPiece_of_ascii hAscii, hRest, List.flatMap_cons, ih hr]
      rfl
  rw [Text.quoted, hPieces]
  rfl

theorem stringLength_quoted {s : Text} (h : ∀ b ∈ s, isPlain b = true) (rest : Text) :
    stringLength 34 (s.flatMap escape ++ 34 :: rest) = (s.flatMap escape).length + 1 := by
  induction s with
  | nil => simp [stringLength]
  | cons b r ih =>
    obtain ⟨hb, hr⟩ := List.forall_mem_cons.mp h
    rw [List.flatMap_cons, List.append_assoc, List.length_append]
    rcases escape_of_isPlain hb with ⟨hEscape, hQuote, hBackslash⟩ | ⟨hEscape, _⟩
    · rw [hEscape, List.singleton_append,
        stringLength.eq_4 _ _ _ (by simp) (by simp [hBackslash]), if_neg hQuote, ih hr]
      simp
      omega
    · rw [hEscape]
      simp only [List.cons_append, List.nil_append, stringLength, ih hr, List.length_cons,
        List.length_nil]
      omega

theorem unescape?_quoted {s : Text} (h : ∀ b ∈ s, isPlain b = true) :
    StringLiteral.unescape? (s.flatMap escape) = some s := by
  induction s with
  | nil => rfl
  | cons b r ih =>
    obtain ⟨hb, hr⟩ := List.forall_mem_cons.mp h
    rw [List.flatMap_cons]
    rcases escape_of_isPlain hb with ⟨hEscape, _, hBackslash⟩ | ⟨hEscape, hValue⟩
    · rw [hEscape, List.singleton_append,
        StringLiteral.unescape?.eq_4 _ _ (by simp [hBackslash]) (by simp [hBackslash]), ih hr]
      rfl
    · rw [hEscape]
      simp only [List.cons_append, List.nil_append, StringLiteral.unescape?, ih hr, hValue,
        Option.map_some]

theorem value?_quoted {s : Text} (h : ∀ b ∈ s, isPlain b = true) :
    StringLiteral.value? (Text.quoted s) = some s := by
  rw [quoted_of_isPlain h]
  simp only [StringLiteral.value?, List.getLast?_append, List.dropLast_concat, unescape?_quoted h]
  rfl

theorem scans_quoted {s : Text} (h : ∀ b ∈ s, isPlain b = true) (rest : Text) :
    Scans (Text.quoted s) rest .string (Text.quoted s) := by
  rw [quoted_of_isPlain h]
  refine scans_of_lexeme (blanks_of_start _ rfl (by decide)) ?_ (by decide)
  have hLength : stringLength 34 (s.flatMap escape ++ [34] ++ rest) =
      (s.flatMap escape ++ [34]).length := by
    rw [List.append_assoc, List.singleton_append, stringLength_quoted h rest, List.length_append]
    rfl
  simp only [lexeme, hLength, List.take_left]
  rfl

end AnchorScript.Lexer
