import AnchorScript.Proofs.Token.Ending
import Mathlib.Algebra.Group.Nat.Even

/-!
# Strings and their values

The scanner looks for the end of a string and its value is read from between the quotes, and both
resolve escapes as they go. They agree: a string has a value exactly if its last byte is its own
quote behind an even number of backslashes, and only the last token of a source can have none.
-/

namespace AnchorScript

namespace StringLiteral

/-- The number of backslashes that the text ends in. -/
def endingBackslashes (s : Text) : Nat := (s.reverse.takeWhile (· = 92)).length

/-- The literal is a text between two equal quotes, the second of which no backslash escapes. -/
def Terminated (literal : Text) : Prop :=
  ∃ quote body, literal = quote :: (body ++ [quote]) ∧ Lexer.isQuote quote = true ∧
    Even (endingBackslashes body)

theorem endingBackslashes_le (s : Text) : endingBackslashes s ≤ s.length := by
  have hTaken := (List.takeWhile_prefix (l := s.reverse) (· = 92)).length_le
  rwa [List.length_reverse] at hTaken

/-- A byte before a text belongs to the backslashes at its end if there is nothing else. -/
theorem endingBackslashes_cons (c : UInt8) (s : Text) :
    endingBackslashes (c :: s) =
      if endingBackslashes s = s.length then s.length + (if c = 92 then 1 else 0)
      else endingBackslashes s := by
  unfold endingBackslashes
  rw [List.reverse_cons, List.takeWhile_append, List.length_reverse]
  split
  · rw [List.length_append, List.length_reverse, List.takeWhile_cons]
    by_cases hc : c = 92 <;> simp [hc]
  · rfl

theorem endingBackslashes_plain {c : UInt8} (hc : c ≠ 92) (r : Text) :
    endingBackslashes (c :: r) = endingBackslashes r := by
  rw [endingBackslashes_cons, if_neg hc]
  split
  · omega
  · rfl

/-- A backslash and the byte it escapes leave the parity as it is. -/
theorem even_endingBackslashes_escape (b : UInt8) (r : Text) :
    Even (endingBackslashes (92 :: b :: r)) ↔ Even (endingBackslashes r) := by
  have hBound := endingBackslashes_le r
  rw [endingBackslashes_cons 92, endingBackslashes_cons b, List.length_cons, if_pos rfl]
  by_cases hWhole : endingBackslashes r = r.length
  · rw [if_pos hWhole, hWhole]
    by_cases hb : b = 92
    · simp [hb, Nat.even_add_one]
    · simp [hb]
  · rw [if_neg hWhole, if_neg (by omega)]

theorem unescape?_isSome_iff (s : Text) :
    (unescape? s).isSome = true ↔ Even (endingBackslashes s) := by
  induction s using Lexer.stringTail_induction with
  | nil => simp [unescape?, endingBackslashes]
  | backslash => simp [unescape?, endingBackslashes]
  | escape b r ih => rw [unescape?, Option.isSome_map, ih, even_endingBackslashes_escape]
  | plain c r hc ih =>
    rw [unescape?.eq_4 _ _ (by simp [hc]) (by simp [hc]), Option.isSome_map, ih,
      endingBackslashes_plain hc]

/-- The literals that have a value are the terminated ones. -/
theorem value?_isSome_iff_terminated (literal : Text) :
    (value? literal).isSome = true ↔ Terminated literal := by
  constructor
  · intro h
    cases literal with
    | nil => cases h
    | cons quote r =>
      rw [value?] at h
      split at h
      · rename_i hQuotes
        obtain ⟨hQuote, hLast⟩ := Bool.and_eq_true_iff.mp hQuotes
        obtain ⟨body, rfl⟩ := List.getLast?_eq_some_iff.mp (of_decide_eq_true hLast)
        rw [List.dropLast_concat] at h
        exact ⟨quote, body, rfl, hQuote, (unescape?_isSome_iff body).mp h⟩
      · cases h
  · rintro ⟨quote, body, rfl, hQuote, hEven⟩
    have hQuotes : (decide (quote = 34) || decide (quote = 39) || decide (quote = 96)) = true :=
      hQuote
    rw [value?, hQuotes, List.getLast?_concat, List.dropLast_concat, decide_eq_true rfl,
      Bool.and_self, if_pos rfl]
    exact (unescape?_isSome_iff body).mpr hEven

theorem unescape?_of_not_mem {s : Text} (h : 92 ∉ s) : unescape? s = some s := by
  induction s with
  | nil => rfl
  | cons c r ih =>
    obtain ⟨hc, hr⟩ := not_or.mp (mt List.mem_cons.mpr h)
    rw [unescape?.eq_4 _ _ (by simp [Ne.symm hc]) (by simp [Ne.symm hc]), ih hr]
    rfl

end StringLiteral

namespace Lexer

theorem isQuote_of_lexeme {c : UInt8} {r : Text} :
    (lexeme c r).kind = .string → isQuote c = true := by
  fun_cases lexeme c r with
  | case3 _ _ hQuote => exact fun _ => hQuote
  | _ =>
    intro h
    cases h

/-- A string token is scanned from its quote on, and the tokens behind it from where it stops. -/
theorem exists_of_string {l : Location} {s : Text} {t : Token} (ht : t ∈ tokensFrom l s)
    (hString : t.kind = .string) :
    ∃ (before : List Token) (l' : Location) (c : UInt8) (r : Text),
      tokensFrom l s = before ++ t :: tokensFrom l' (r.drop (stringLength c r)) ∧
        isQuote c = true ∧ t.literal = c :: r.take (stringLength c r) := by
  fun_induction tokensFrom l s with
  | case1 =>
    rw [List.mem_singleton.mp ht] at hString
    cases hString
  | case2 l s gap start c r hRest k stop newline ih =>
    rcases List.mem_cons.mp ht with rfl | ht
    · have hQuote := isQuote_of_lexeme hString
      have hTail : r.drop k.tail.length = r.drop (stringLength c r) := by
        dsimp only [k]
        rw [lexeme_of_isQuote hQuote, List.length_take_of_le (stringLength_le c r)]
      refine ⟨[], stop, c, r, ?_, hQuote, congrArg Lexeme.literal (lexeme_of_isQuote hQuote r)⟩
      rw [hTail, List.nil_append]
    · obtain ⟨before, l', c', r', hTokens, hLiteral⟩ := ih ht
      exact ⟨_ :: before, l', c', r', congrArg (_ :: ·) hTokens, hLiteral⟩

open StringLiteral

theorem isClosed_of_terminated {c : UInt8} {tail : Text} (hc : isQuote c = true)
    (h : Terminated (c :: tail)) : isClosed c tail = true := by
  cases hClosed : isClosed c tail with
  | true => rfl
  | false =>
    have hValue := value?_isSome_iff hc tail
    rw [stringLength_of_not_isClosed hClosed, List.take_length,
      (value?_isSome_iff_terminated _).mpr h, hClosed] at hValue
    cases hValue

/-- The scanner stops at the first quote that ends the string. -/
theorem eq_of_prefix_terminated {c : UInt8} {r p : Text} (hc : isQuote c = true)
    (hPrefix : p <+: c :: r.take (stringLength c r)) (h : Terminated p) :
    p = c :: r.take (stringLength c r) := by
  obtain ⟨quote, body, rfl, _⟩ := id h
  obtain ⟨rfl, hTail⟩ := List.cons_prefix_cons.mp hPrefix
  obtain ⟨more, hMore⟩ := hTail.trans (List.take_prefix _ r)
  have hLength : stringLength quote r ≤ (body ++ [quote]).length := by
    rw [← hMore, stringLength_append (isClosed_of_terminated hc h)]
    exact stringLength_le _ _
  have hWhole : (r.take (stringLength quote r)).length ≤ (body ++ [quote]).length :=
    Nat.le_trans (List.length_take_le _ _) hLength
  rw [hTail.eq_of_length (Nat.le_antisymm hTail.length_le hWhole)]

theorem stringLength_of_not_mem {quote : UInt8} {value : Text} (hBackslash : 92 ∉ value)
    (hQuote : quote ∉ value) (h : quote ≠ 92) :
    stringLength quote (value ++ [quote]) = (value ++ [quote]).length := by
  induction value with
  | nil => rw [List.nil_append, stringLength_cons [] h, if_pos rfl, List.length_singleton]
  | cons c r ih =>
    obtain ⟨hc, hr⟩ := not_or.mp (mt List.mem_cons.mpr hBackslash)
    obtain ⟨hNotQuote, hRest⟩ := not_or.mp (mt List.mem_cons.mpr hQuote)
    rw [List.cons_append, stringLength_cons _ (Ne.symm hc), if_neg (Ne.symm hNotQuote), ih hr hRest,
      List.length_cons]

/-- A text with nothing to escape is the value of the string it is written as. -/
theorem tokens_of_plain {quote : UInt8} {value : Text} (hc : isQuote quote = true)
    (hBackslash : 92 ∉ value) (hQuote : quote ∉ value) :
    ∃ t stop, tokens (quote :: (value ++ [quote])) = [t, stop] ∧ t.kind = .string ∧
      stop.kind = .endOfInput ∧ value? t.literal = some value := by
  have hPlain : quote ≠ 92 := by
    rintro rfl
    cases hc
  have hValue : value? (quote :: (value ++ [quote])) = some value := by
    have hQuotes : (decide (quote = 34) || decide (quote = 39) || decide (quote = 96)) = true := hc
    rw [value?, hQuotes, List.getLast?_concat, List.dropLast_concat, decide_eq_true rfl,
      Bool.and_self, if_pos rfl, unescape?_of_not_mem hBackslash]
  have hTerminated := (value?_isSome_iff_terminated _).mp (Option.isSome_of_eq_some hValue)
  obtain ⟨t, l, hKind, hLiteral, _, hTokens⟩ :=
    scans_string hc (isClosed_of_terminated hc hTerminated) [] .start
  rw [stringLength_of_not_mem hBackslash hQuote hPlain, List.take_length] at hTokens hLiteral
  rw [List.append_nil, tokensFrom_nil] at hTokens
  exact ⟨t, _, hTokens, hKind, rfl, hLiteral ▸ hValue⟩

/-- Only the last token of a source can be a string without a value. -/
theorem exists_last_of_open {src : Text} {t : Token} (ht : t ∈ tokens src)
    (hString : t.kind = .string) (hOpen : value? t.literal = none) :
    ∃ before stop, tokens src = before ++ [t, stop] ∧ stop.kind = .endOfInput := by
  obtain ⟨before, l, c, r, hTokens, hQuote, hLiteral⟩ := exists_of_string ht hString
  have hClosed : isClosed c r = false := by
    rw [← value?_isSome_iff hQuote, ← hLiteral, hOpen]
    rfl
  rw [stringLength_of_not_isClosed hClosed, List.drop_length, tokensFrom_nil] at hTokens
  exact ⟨before, _, hTokens, rfl⟩

end Lexer

open StringLiteral

/-- A string of a source has a value exactly if it is terminated, which it is nowhere before its
end. One that is not is the last token. A text is the value of each of its spellings if none of its
bytes is a backslash or the quote. -/
theorem strings_agree (src : Text) :
    (∀ t ∈ tokens src, t.kind = .string →
      ((value? t.literal).isSome = true ↔ Terminated t.literal) ∧
      (∀ p, p <+: t.literal → Terminated p → p = t.literal) ∧
      (¬Terminated t.literal →
        ∃ before stop, tokens src = before ++ [t, stop] ∧ stop.kind = .endOfInput)) ∧
    ∀ quote, Lexer.isQuote quote = true → ∀ value, 92 ∉ value → quote ∉ value →
      ∃ t stop, tokens (quote :: (value ++ [quote])) = [t, stop] ∧ t.kind = .string ∧
        stop.kind = .endOfInput ∧ value? t.literal = some value := by
  refine ⟨fun t ht hString => ⟨value?_isSome_iff_terminated _, ?_, ?_⟩, ?_⟩
  · obtain ⟨_, _, c, r, _, hQuote, hLiteral⟩ := Lexer.exists_of_string ht hString
    rw [hLiteral]
    exact fun p => Lexer.eq_of_prefix_terminated hQuote
  · intro hOpen
    refine Lexer.exists_last_of_open ht hString ?_
    rwa [← Option.isNone_iff_eq_none, ← Option.isSome_eq_false_iff, Bool.eq_false_iff, ne_eq,
      value?_isSome_iff_terminated]
  · intro quote hQuote value hBackslash hPlain
    exact Lexer.tokens_of_plain hQuote hBackslash hPlain

/-- Two backslashes stand before the end of the first string, and one at the end of the last. -/
def slashedSource : Text := "f(\"a\\\\\", 'b\\'"

theorem slashedSource_strings :
    (∃ t ∈ tokens slashedSource, t.kind = .string ∧ (value? t.literal).isSome = true ∧
      Terminated t.literal ∧ ∀ p, p <+: t.literal → Terminated p → p = t.literal) ∧
    (∃ t ∈ tokens slashedSource, t.kind = .string ∧ (value? t.literal).isSome = false ∧
      ¬Terminated t.literal ∧
      ∃ before stop, tokens slashedSource = before ++ [t, stop] ∧ stop.kind = .endOfInput) ∧
    ∃ t stop, tokens (39 :: (Text.ofString "it is \"plain\"" ++ [39])) = [t, stop] ∧
      t.kind = .string ∧ stop.kind = .endOfInput ∧
      value? t.literal = some (Text.ofString "it is \"plain\"") := by
  obtain ⟨hStrings, hPlain⟩ := strings_agree slashedSource
  obtain ⟨t, ht, hKind, hSome⟩ : ∃ t ∈ tokens slashedSource, t.kind = .string ∧
      (value? t.literal).isSome = true := by decide +kernel
  obtain ⟨u, hu, hKind', hNone⟩ : ∃ t ∈ tokens slashedSource, t.kind = .string ∧
      (value? t.literal).isSome = false := by decide +kernel
  obtain ⟨hIff, hPrefix, _⟩ := hStrings t ht hKind
  obtain ⟨hIff', _, hLast⟩ := hStrings u hu hKind'
  have hOpen : ¬Terminated u.literal := by
    rw [← hIff', hNone]
    exact Bool.false_ne_true
  exact ⟨⟨t, ht, hKind, hSome, hIff.mp hSome, hPrefix⟩, ⟨u, hu, hKind', hNone, hOpen, hLast hOpen⟩,
    hPlain 39 rfl _ (by decide) (by decide)⟩

end AnchorScript
