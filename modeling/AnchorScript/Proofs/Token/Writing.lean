import AnchorScript.Proofs.Outcome
import AnchorScript.Proofs.Token.Scanning

/-!
# Writing tokens with spaces between them

A word is a text that is scanned as one token before a space and at the end of a text. Words written
with single spaces between them are scanned as these words and nothing else. Every token of a source
that is not cut off and begins with a byte that can begin a token is such a word.
-/

namespace AnchorScript

namespace Lexer

/-- A text ends here or goes on behind a space. -/
inductive Ended : Text → Prop
  | nil : Ended []
  | space (rest : Text) : Ended (32 :: rest)

theorem Ended.apart {rest : Text} (h : Ended rest) : Apart rest := by
  cases h with
  | nil => exact apart_nil
  | space rest => exact apart_cons rest (by decide)

theorem scans_ended (p : Punct) {rest : Text} (h : Ended rest) :
    Scans p.text rest (.punct p) p.text := by
  cases h with
  | space rest => exact scans_spaced p rest
  | nil =>
    by_cases hSlash : p = .slash
    · subst hSlash
      exact scans_punct rfl (blanks.eq_def _) rfl rfl
    · cases p
      case slash => exact absurd rfl hSlash
      all_goals exact scans_punct rfl (blanks_of_start _ rfl (by decide)) rfl rfl

/-- A quote that no backslash stands before closes the string. -/
def isClosed (quote : UInt8) : Text → Bool
  | [] => false
  | [92] => false
  | 92 :: _ :: r => isClosed quote r
  | c :: r => c = quote || isClosed quote r

theorem stringLength_cons {quote c : UInt8} (r : Text) (hc : c ≠ 92) :
    stringLength quote (c :: r) = if c = quote then 1 else stringLength quote r + 1 :=
  stringLength.eq_4 _ _ _ (by simp [hc]) (by simp [hc])

theorem isClosed_cons {quote c : UInt8} (r : Text) (hc : c ≠ 92) :
    isClosed quote (c :: r) = (decide (c = quote) || isClosed quote r) :=
  isClosed.eq_4 _ _ _ (by simp [hc]) (by simp [hc])

/-- A string goes on behind a backslash and the byte after it, or behind any other byte. -/
theorem stringTail_induction {motive : Text → Prop} (nil : motive []) (backslash : motive [92])
    (escape : ∀ b r, motive r → motive (92 :: b :: r))
    (plain : ∀ c r, c ≠ 92 → motive r → motive (c :: r)) (r : Text) : motive r := by
  match r with
  | [] => exact nil
  | c :: r =>
    by_cases hc : c = 92
    · subst hc
      match r with
      | [] => exact backslash
      | b :: r => exact escape b r (stringTail_induction nil backslash escape plain r)
    · exact plain c r hc (stringTail_induction nil backslash escape plain r)

theorem stringLength_of_not_isClosed {quote : UInt8} {r : Text} (h : isClosed quote r = false) :
    stringLength quote r = r.length := by
  induction r using stringTail_induction with
  | nil => rfl
  | backslash => rfl
  | escape b r ih => simp [stringLength, ih h]
  | plain c r hc ih =>
    rw [isClosed_cons r hc, Bool.or_eq_false_iff, decide_eq_false_iff_not] at h
    rw [stringLength_cons r hc, if_neg h.1, ih h.2, List.length_cons]

/-- What follows the closing quote of a string does not matter. -/
theorem stringLength_append {quote : UInt8} {r : Text} (h : isClosed quote r = true) (x : Text) :
    stringLength quote (r ++ x) = stringLength quote r := by
  induction r using stringTail_induction with
  | nil => cases h
  | backslash => cases h
  | escape b r ih => simp [stringLength, ih h]
  | plain c r hc ih =>
    rw [List.cons_append, stringLength_cons _ hc, stringLength_cons _ hc]
    split
    · rfl
    · rename_i hQuote
      rw [isClosed_cons r hc, decide_eq_false hQuote, Bool.false_or] at h
      rw [ih h]

theorem stringLength_le (quote : UInt8) (r : Text) : stringLength quote r ≤ r.length := by
  induction r using stringTail_induction with
  | nil => exact Nat.le_refl _
  | backslash => exact Nat.le_refl _
  | escape b r ih => simpa [stringLength] using ih
  | plain c r hc ih =>
    rw [stringLength_cons r hc, List.length_cons]
    split <;> omega

/-- A closed string ends in its quote, and every backslash before it has a byte after it. -/
theorem exists_of_isClosed {quote : UInt8} {r : Text} (h : isClosed quote r = true) :
    ∃ body value, r.take (stringLength quote r) = body ++ [quote] ∧
      StringLiteral.unescape? body = some value ∧ isClosed quote (body ++ [quote]) = true := by
  induction r using stringTail_induction with
  | nil => cases h
  | backslash => cases h
  | escape b r ih =>
    obtain ⟨body, value, hTake, hValue, hClosed⟩ := ih h
    refine ⟨92 :: b :: body, StringLiteral.escaped b :: value, ?_, ?_, hClosed⟩
    · simp [stringLength, hTake]
    · simp [StringLiteral.unescape?, hValue]
  | plain c r hc ih =>
    rw [stringLength_cons r hc]
    split
    · rename_i hQuote
      subst hQuote
      exact ⟨[], [], by simp, rfl, by simp [isClosed_cons [] hc]⟩
    · rename_i hQuote
      rw [isClosed_cons r hc, decide_eq_false hQuote, Bool.false_or] at h
      obtain ⟨body, value, hTake, hValue, hClosed⟩ := ih h
      refine ⟨c :: body, c :: value, by simp [hTake], ?_, ?_⟩
      · rw [StringLiteral.unescape?.eq_4 _ _ (by simp [hc]) (by simp [hc]), hValue]
        rfl
      · rw [List.cons_append, isClosed_cons _ hc, hClosed, Bool.or_true]

/-- A quote at the end of an open string stands behind a backslash. -/
theorem unescape?_of_not_isClosed {quote : UInt8} {r : Text} (h : isClosed quote r = false)
    (hQuote : quote ≠ 92) (hLast : r.getLast? = some quote) :
    StringLiteral.unescape? r.dropLast = none := by
  induction r using stringTail_induction with
  | nil => cases hLast
  | backslash =>
    cases hLast
    exact absurd rfl hQuote
  | escape b r ih =>
    cases r with
    | nil => rfl
    | cons c r =>
      rw [List.dropLast_cons_cons, List.dropLast_cons_cons, StringLiteral.unescape?,
        ih h (by simpa using hLast)]
      rfl
  | plain c r hc ih =>
    rw [isClosed_cons r hc, Bool.or_eq_false_iff, decide_eq_false_iff_not] at h
    cases r with
    | nil =>
      cases hLast
      exact absurd rfl h.1
    | cons d r =>
      rw [List.dropLast_cons_cons, StringLiteral.unescape?.eq_4 _ _ (by simp [hc]) (by simp [hc]),
        ih h.2 (by simpa using hLast)]
      rfl

theorem value?_isSome_iff {c : UInt8} (hc : isQuote c = true) (r : Text) :
    (StringLiteral.value? (c :: r.take (stringLength c r))).isSome = isClosed c r := by
  have hQuotes : (decide (c = 34) || decide (c = 39) || decide (c = 96)) = true := hc
  have hBackslash : c ≠ 92 := by
    rintro rfl
    exact absurd hc (by decide)
  cases hClosed : isClosed c r with
  | true =>
    obtain ⟨body, value, hTake, hValue, _⟩ := exists_of_isClosed hClosed
    rw [hTake, StringLiteral.value?]
    simp [hQuotes, hValue]
  | false =>
    rw [stringLength_of_not_isClosed hClosed, List.take_length, StringLiteral.value?]
    split
    · rename_i hLast
      obtain ⟨_, hLast⟩ := (Bool.and_eq_true ..).mp hLast
      rw [unescape?_of_not_isClosed hClosed hBackslash (of_decide_eq_true hLast)]
      rfl
    · rfl

/-- A closed string is scanned to its quote, whatever stands behind it. -/
theorem scans_string {c : UInt8} {r : Text} (hc : isQuote c = true) (h : isClosed c r = true)
    (rest : Text) :
    Scans (c :: r.take (stringLength c r)) rest .string (c :: r.take (stringLength c r)) := by
  obtain ⟨body, _, hTake, _, hClosed⟩ := exists_of_isClosed h
  rw [← hTake] at hClosed
  have hWhole : stringLength c (r.take (stringLength c r)) =
      (r.take (stringLength c r)).length := by
    have hAll := stringLength_append hClosed (r.drop (stringLength c r))
    rw [List.take_append_drop] at hAll
    exact hAll.symm.trans (List.length_take_of_le (stringLength_le c r)).symm
  generalize r.take (stringLength c r) = tail at hClosed hWhole ⊢
  simp only [isQuote, Bool.or_eq_true, decide_eq_true_eq] at hc
  have hLexeme : lexeme c (tail ++ rest) = ⟨.string, c :: tail, tail⟩ := by
    have hLength : stringLength c (tail ++ rest) = tail.length := by
      rw [stringLength_append hClosed, hWhole]
    rcases hc with (rfl | rfl) | rfl <;> simp [lexeme, operator?, isQuote, hLength]
  refine scans_of_lexeme ?_ hLexeme (by decide)
  rcases hc with (rfl | rfl) | rfl <;> exact blanks_of_start _ rfl (by decide)

end Lexer

open Lexer

/-- A text that is scanned as one token of a kind, before a space and at the end of a text. -/
structure Word where
  kind : TokenKind
  text : Text
  scans {rest : Text} (h : Ended rest) : Scans text rest kind text

def Token.Is (t : Token) (w : Word) : Prop := t.kind = w.kind ∧ t.literal = w.text

/-- The tokens are these words, in order. -/
abbrev Spell (ts : List Token) (ws : List Word) : Prop := List.Forall₂ Token.Is ts ws

namespace Word

def punct (p : Punct) : Word := ⟨.punct p, p.text, fun h => scans_ended p h⟩

def ident (s : Text) (hWord : BeginsWord isIdentStart s) (hName : Keyword.ofText? s = none) :
    Word :=
  ⟨.ident, s, fun h => scans_ident hWord hName h.apart⟩

def keyword (k : Keyword) (s : Text) (hWord : BeginsWord isIdentStart s)
    (hName : Keyword.ofText? s = some k) : Word :=
  ⟨.keyword k, s, fun h => scans_keyword hWord hName h.apart⟩

def number (s : Text) (hWord : BeginsWord Text.isDigit s) : Word :=
  ⟨.number, s, fun h => scans_number hWord h.apart⟩

/-- The words with single spaces between them. -/
def line (ws : List Word) : Text := Text.join [32] (ws.map Word.text)

end Word

namespace Lexer

/-- Words on one line are scanned as these words and the end of the input. -/
theorem tokensFrom_line (ws : List Word) (l : Location) :
    ∃ ts stop, tokensFrom l (Word.line ws) = ts ++ [stop] ∧ Spell ts ws ∧
      (∀ t ∈ ts, t.newlineBefore = false) ∧ stop.kind = .endOfInput := by
  induction ws generalizing l with
  | nil => exact ⟨[], _, tokensFrom_nil l, .nil, by simp, rfl⟩
  | cons w ws ih =>
    cases ws with
    | nil =>
      obtain ⟨t, l', hKind, hText, hLine, hTokens⟩ := w.scans .nil l
      rw [List.append_nil, tokensFrom_nil] at hTokens
      have hSingle : Word.line [w] = w.text := by simp [Word.line, Text.join, List.intercalate]
      rw [hSingle, hTokens]
      exact ⟨[t], _, rfl, .cons ⟨hKind, hText⟩ .nil, by simp [hLine], rfl⟩
    | cons w' ws =>
      have hText : Word.line (w :: w' :: ws) = w.text ++ 32 :: Word.line (w' :: ws) := by
        simp [Word.line, Text.join_cons_cons]
      obtain ⟨t, l', hKind, hLiteral, hLine, hTokens⟩ := w.scans (.space _) l
      obtain ⟨ts, stop, hRest, hSpell, hLines, hStop⟩ := ih (l'.next 32)
      refine ⟨t :: ts, stop, ?_, .cons ⟨hKind, hLiteral⟩ hSpell,
        List.forall_mem_cons.mpr ⟨hLine, hLines⟩, hStop⟩
      rw [hText, hTokens, tokensFrom_space, hRest]
      rfl

/-- A token of a text is a word, unless it begins with a byte that begins no token, is a string that
nothing closes, or is the end of the text. -/
theorem exists_word_of_lexeme {c : UInt8} {r : Text} {k : Lexeme} (hk : lexeme c r = k)
    (hLegal : k.kind ≠ .illegal)
    (hClosed : k.kind = .string → (StringLiteral.value? k.literal).isSome = true) :
    ∃ w : Word, k.kind = w.kind ∧ k.literal = w.text := by
  unfold lexeme at hk
  split at hk
  · subst hk
    exact absurd rfl hLegal
  · split at hk
    · rename_i p _ _
      subst hk
      exact ⟨.punct p, rfl, rfl⟩
    · split at hk
      · rename_i hQuote
        subst hk
        have hString := value?_isSome_iff hQuote r
        rw [hClosed rfl] at hString
        exact ⟨⟨.string, _, fun _ => scans_string hQuote hString.symm _⟩, rfl, rfl⟩
      · split at hk
        · rename_i hStart
          have hWord := beginsWord_cons_takeWhile r hStart
          dsimp only at hk
          split at hk
          · rename_i hKeyword
            subst hk
            exact ⟨.keyword _ _ hWord hKeyword, rfl, rfl⟩
          · rename_i hNone
            subst hk
            exact ⟨.ident _ hWord hNone, rfl, rfl⟩
        · split at hk
          · rename_i hDigit
            subst hk
            exact ⟨.number _ (beginsWord_cons_takeWhile r hDigit), rfl, rfl⟩
          · subst hk
            exact absurd rfl hLegal

theorem exists_word_of_mem {l : Location} {s : Text} {t : Token} (ht : t ∈ tokensFrom l s)
    (hLegal : t.kind ≠ .illegal) (hEnd : t.kind ≠ .endOfInput)
    (hClosed : t.kind = .string → (StringLiteral.value? t.literal).isSome = true) :
    ∃ w, t.Is w := by
  fun_induction tokensFrom l s with
  | case1 =>
    cases List.mem_singleton.mp ht
    exact absurd rfl hEnd
  | case2 l s gap start c r hRest k stop newline ih =>
    rcases List.mem_cons.mp ht with rfl | ht
    · exact exists_word_of_lexeme rfl hLegal hClosed
    · exact ih ht

theorem lexeme_kind_ne_endOfInput (c : UInt8) (r : Text) : (lexeme c r).kind ≠ .endOfInput := by
  unfold lexeme
  split
  · nofun
  · split
    · nofun
    · dsimp only
      split
      · nofun
      · split
        · split <;> nofun
        · split <;> nofun

/-- Nothing follows the end of the input. -/
theorem eq_nil_of_tokensFrom {l : Location} {s : Text} {taken rest : List Token} {last : Token}
    (h : tokensFrom l s = taken ++ last :: rest) (hLast : last.kind = .endOfInput) : rest = [] := by
  fun_induction tokensFrom l s generalizing taken with
  | case1 =>
    cases taken with
    | nil => exact (List.cons.inj h).2.symm
    | cons t taken => cases taken <;> cases (List.cons.inj h).2
  | case2 =>
    rename_i c r _ k stop newline ih
    cases taken with
    | nil =>
      obtain ⟨rfl, _⟩ := List.cons.inj h
      exact absurd hLast (lexeme_kind_ne_endOfInput c r)
    | cons t taken => exact ih (List.cons.inj h).2

end Lexer

end AnchorScript
