import AnchorScript.Proofs.Rust.Tokens
import AnchorScript.Proofs.Text.Characters
import AnchorScript.Rust.Expr
import Mathlib.Tactic.IntervalCases

/-!
# Literals read back

The reader of byte strings follows the rules for byte-string literals: bytes below 128 stand for
themselves, a backslash begins an escape, and the first quote without a backslash ends the literal.

In a string literal an escape is one of the short ones, the two digits of an ASCII character, a
scalar value in braces, or a line break that is skipped with the blanks behind it; a bare carriage
return is refused. Every character is written so that this reader finds it again, whatever stands
behind it.
-/

namespace AnchorScript.Rust

/-- The byte that a backslash and `b` stand for, where `b` alone decides. -/
def simpleEscape? (b : UInt8) : Option UInt8 :=
  if b = 34 || b = 39 || b = 92 then some b
  else if b = 110 then some 10
  else if b = 114 then some 13
  else if b = 116 then some 9
  else if b = 48 then some 0
  else none

def hexPair? (h l : UInt8) : Option UInt8 :=
  match Text.hexValue? h, Text.hexValue? l with
  | some m, some n => some (16 * m + n).toUInt8
  | _, _ => none

/-- The bytes of a literal from behind its opening quote through its closing one, which ends it. -/
def literalBytes? : Text → Option Text
  | [] => none
  | [b] => if b = 34 then some [] else none
  | 92 :: 120 :: h :: l :: r =>
    match hexPair? h l with
    | some b => (literalBytes? r).map (b :: ·)
    | none => none
  | 92 :: b :: r =>
    match simpleEscape? b with
    | some b => (literalBytes? r).map (b :: ·)
    | none => none
  | b :: r => if b = 34 || 128 ≤ b then none else (literalBytes? r).map (b :: ·)

/-- The bytes that a byte-string literal stands for. -/
def byteStringValue? : Text → Option Text
  | 98 :: 34 :: r => literalBytes? r
  | _ => none

theorem hexValue?_hexDigit {n : Nat} (h : n < 16) :
    Text.hexValue? (Text.hexDigit n.toUInt8) = some n := by
  interval_cases n <;> rfl

theorem hexPair?_hexByte (b : UInt8) :
    hexPair? (Text.hexDigit (b / 16)) (Text.hexDigit (b % 16)) = some b := by
  have hHigh : b / 16 = (b.toNat / 16).toUInt8 := by
    rw [← UInt8.toNat_inj, UInt8.toNat_div, Nat.toUInt8, UInt8.toNat_ofNat']
    simp only [UInt8.reduceToNat]
    have := b.toNat_lt
    omega
  have hLow : b % 16 = (b.toNat % 16).toUInt8 := by
    rw [← UInt8.toNat_inj, UInt8.toNat_mod, Nat.toUInt8, UInt8.toNat_ofNat']
    simp only [UInt8.reduceToNat]
    omega
  have hSum : 16 * (b.toNat / 16) + b.toNat % 16 = b.toNat := Nat.div_add_mod b.toNat 16
  rw [hexPair?, hHigh, hLow, hexValue?_hexDigit (by have := b.toNat_lt; omega),
    hexValue?_hexDigit (by omega)]
  simp only [hSum, Nat.toUInt8, UInt8.ofNat_toNat]

/-- An escaped byte reads as the byte, whatever follows. -/
theorem literalBytes?_escapeByte (b : UInt8) {r : Text} (hr : r ≠ []) :
    literalBytes? (escapeByte b ++ r) = (literalBytes? r).map (b :: ·) := by
  obtain ⟨c, r, rfl⟩ := List.exists_cons_of_ne_nil hr
  unfold escapeByte
  split
  · rename_i hSpecial
    simp only [Bool.or_eq_true, decide_eq_true_eq] at hSpecial
    rcases hSpecial with rfl | rfl <;> rfl
  · rename_i hPlain
    simp only [Bool.or_eq_true, decide_eq_true_eq, not_or] at hPlain
    split
    · rename_i hPrintable
      simp only [Bool.and_eq_true, decide_eq_true_eq] at hPrintable
      have hSmall : ¬128 ≤ b := by
        rw [UInt8.le_iff_toNat_le]
        have := UInt8.lt_iff_toNat_lt.mp hPrintable.2
        simp only [UInt8.reduceToNat] at this ⊢
        omega
      rw [List.singleton_append, literalBytes?]
      · simp [hPlain.1, hSmall]
      · simp
      · exact fun _ _ _ hb => absurd hb hPlain.2
      · exact fun _ _ hb => absurd hb hPlain.2
    · change literalBytes? (92 :: 120 :: Text.hexDigit (b / 16) :: Text.hexDigit (b % 16) ::
        c :: r) = _
      rw [literalBytes?, hexPair?_hexByte]

/-- A byte-string literal unescapes to exactly the bytes it is written for. -/
theorem byteStringValue?_byteString (s : Text) : byteStringValue? (byteString s) = some s := by
  have hRest : literalBytes? (s.flatMap escapeByte ++ [34]) = some s := by
    induction s with
    | nil => rfl
    | cons b s ih =>
      rw [List.flatMap_cons, List.append_assoc, literalBytes?_escapeByte b (by simp), ih]
      rfl
  exact hRest

/-- The value of hexadecimal digits, the most significant first. -/
def hexDigits? (s : Text) : Option Nat :=
  s.foldlM (fun n b => (Text.hexValue? b).map (16 * n + ·)) 0

/-- The character between the braces of an escape: up to six digits, and underscores behind the
first. -/
def scalar? (s : Text) : Option Char :=
  let digits := s.filter (· ≠ 95)
  if s.head? = some 95 || digits.isEmpty || 6 < digits.length then none
  else match hexDigits? digits with
    | some n => if n.isValidChar then some (Char.ofNat n) else none
    | none => none

/-- What an escape stands for, from behind its backslash, and what follows it. -/
def escape? : Text → Option (Text × Text)
  | 117 :: 123 :: r =>
    match r.dropWhile (· ≠ 125) with
    | [] => none
    | _ :: rest => (scalar? (r.takeWhile (· ≠ 125))).map fun c => (String.utf8EncodeChar c, rest)
  | 120 :: h :: l :: r =>
    match hexPair? h l with
    | some b => if b < 128 then some ([b], r) else none
    | none => none
  | 10 :: r => some ([], r.dropWhile fun b => b = 32 || b = 9 || b = 10 || b = 13)
  | b :: r => (simpleEscape? b).map fun e => ([e], r)
  | [] => none

theorem length_of_escape? {s t rest : Text} (h : escape? s = some (t, rest)) :
    rest.length < s.length := by
  fun_cases escape? s with
  | case1 r hClose =>
    simp only [escape?, hClose] at h
    cases h
  | case2 r b rest' hClose =>
    simp only [escape?, hClose, Option.map_eq_some_iff, Prod.mk.injEq] at h
    obtain ⟨c, _, _, rfl⟩ := h
    have hLength := (List.dropWhile_sublist (l := r) (· ≠ (125 : UInt8))).length_le
    rw [hClose, List.length_cons] at hLength
    simp only [List.length_cons]
    omega
  | case3 d l r b hPair hSmall =>
    simp only [escape?, hPair, if_pos hSmall, Option.some.injEq, Prod.mk.injEq] at h
    simp [← h.2]
    omega
  | case4 d l r b hPair hLarge => simp [escape?, hPair, if_neg hLarge] at h
  | case5 d l r hPair => simp [escape?, hPair] at h
  | case6 r =>
    simp only [escape?, Option.some.injEq, Prod.mk.injEq] at h
    rw [← h.2, List.length_cons]
    exact Nat.lt_succ_of_le (List.dropWhile_sublist _).length_le
  | case7 b r h1 h2 h3 =>
    rw [escape?] at h
    · simp only [Option.map_eq_some_iff, Prod.mk.injEq] at h
      obtain ⟨_, _, _, rfl⟩ := h
      exact Nat.lt_succ_self _
    · exact h1
    · exact h2
    · exact h3
  | case8 => cases h

/-- What a string literal stands for, from behind its opening quote, and what follows its closing
quote. -/
def stringBody? (s : Text) : Option (Text × Text) :=
  match s with
  | [] => none
  | b :: r =>
    if b = 34 then some ([], r)
    else if b = 13 then none
    else if b = 92 then
      match _h : escape? r with
      | some (t, rest) => (stringBody? rest).map fun p => (t ++ p.1, p.2)
      | none => none
    else (stringBody? r).map fun p => (b :: p.1, p.2)
termination_by s.length
decreasing_by
  · exact (length_of_escape? _h).trans (Nat.lt_succ_self _)
  · exact Nat.lt_succ_self _

/-- The text that the string literal at the beginning of a text stands for, and what follows it. -/
def stringValue? : Text → Option (Text × Text)
  | 34 :: r => stringBody? r
  | _ => none

/-- What is written reads as these bytes, whatever follows. -/
def Spells (written bytes : Text) : Prop :=
  ∀ rest, stringBody? (written ++ rest) = (stringBody? rest).map fun p => (bytes ++ p.1, p.2)

theorem spells_nil : Spells [] [] := fun rest => by
  cases h : stringBody? rest <;> simp [h]

theorem Spells.append {w₁ w₂ b₁ b₂ : Text} (h₁ : Spells w₁ b₁) (h₂ : Spells w₂ b₂) :
    Spells (w₁ ++ w₂) (b₁ ++ b₂) := by
  intro rest
  rw [List.append_assoc, h₁, h₂, Option.map_map]
  simp only [Function.comp_def, List.append_assoc]

/-- Bytes that begin no escape and end no line stand for themselves. -/
theorem spells_of_plain {s : Text} (h : ∀ b ∈ s, b ≠ 34 ∧ b ≠ 13 ∧ b ≠ 92) : Spells s s := by
  induction s with
  | nil => exact spells_nil
  | cons b s ih =>
    obtain ⟨⟨hQuote, hReturn, hBackslash⟩, hs⟩ := List.forall_mem_cons.mp h
    have hb : Spells [b] [b] := by
      intro rest
      rw [List.singleton_append, stringBody?, if_neg hQuote, if_neg hReturn, if_neg hBackslash]
      rfl
    exact hb.append (ih hs)

theorem spells_escape {w t : Text} (h : ∀ rest, escape? (w ++ rest) = some (t, rest)) :
    Spells (92 :: w) t := by
  intro rest
  rw [List.cons_append, stringBody?, if_neg (by decide), if_neg (by decide), if_pos rfl]
  split
  · next t' rest' hRead =>
    rw [h rest] at hRead
    cases hRead
    rfl
  · next hRead =>
    rw [h rest] at hRead
    cases hRead

theorem hexDigits?_hexNat (n : Nat) : hexDigits? (hexNat n) = some n := by
  fun_induction hexNat n with
  | case1 n hSmall =>
    simp [hexDigits?, hexValue?_hexDigit hSmall]
  | case2 n hLarge ih =>
    rw [hexDigits?] at ih ⊢
    rw [List.foldlM_append, ih]
    simp only [Option.bind_eq_bind, Option.bind_some, List.foldlM_cons, List.foldlM_nil,
      hexValue?_hexDigit (Nat.mod_lt n (by decide : 0 < 16)), Option.map_some, pure]
    rw [Nat.div_add_mod]

theorem length_hexNat_le {n k : Nat} (h : n < 16 ^ (k + 1)) : (hexNat n).length ≤ k + 1 := by
  fun_induction hexNat n generalizing k with
  | case1 n _ => simp
  | case2 n hLarge ih =>
    cases k with
    | zero => exact absurd h (by simpa using hLarge)
    | succ k =>
      have hHigh : n / 16 < 16 ^ (k + 1) := by
        rw [Nat.div_lt_iff_lt_mul (by decide), ← Nat.pow_succ]
        exact h
      simpa using ih hHigh

/-- Hexadecimal digits are neither underscores nor braces. -/
theorem hexNat_digits (n : Nat) : ∀ b ∈ hexNat n, b ≠ 95 ∧ b ≠ 125 :=
  forall_mem_hexNat (by decide) n

theorem scalar?_hexNat (c : Char) : scalar? (hexNat c.toNat) = some c := by
  have hKept : (hexNat c.toNat).filter (· ≠ 95) = hexNat c.toNat :=
    List.filter_eq_self.mpr fun b hb => decide_eq_true (hexNat_digits _ b hb).1
  have hLength : (hexNat c.toNat).length ≤ 6 := by
    refine length_hexNat_le (k := 5) ?_
    rcases c.valid with hLow | ⟨_, hHigh⟩
    · exact hLow.trans (by decide)
    · exact hHigh.trans (by decide)
  have hNonempty : hexNat c.toNat ≠ [] := by
    rw [hexNat]
    split <;> simp
  have hHead : (hexNat c.toNat).head? ≠ some 95 := by
    intro hHead
    exact (hexNat_digits _ 95 (List.mem_of_mem_head? hHead)).1 rfl
  have hGuard : ¬((decide ((hexNat c.toNat).head? = some 95) || (hexNat c.toNat).isEmpty ||
      decide (6 < (hexNat c.toNat).length)) = true) := by
    simp [hHead, hNonempty, hLength]
  rw [scalar?]
  simp only [hKept]
  rw [if_neg hGuard, hexDigits?_hexNat]
  simp only [if_pos (show c.toNat.isValidChar from c.valid), Char.ofNat_toNat]

/-- A character written by its scalar value. -/
theorem spells_scalar (c : Char) :
    Spells ("\\u\x7b" ++ hexNat c.toNat ++ "\x7d") (String.utf8EncodeChar c) := by
  refine spells_escape (w := 117 :: 123 :: hexNat c.toNat ++ [125]) fun rest => ?_
  have hDigits : ∀ b ∈ hexNat c.toNat, decide (b ≠ 125) = true := fun b hb =>
    decide_eq_true (hexNat_digits _ b hb).2
  have hDrop : (hexNat c.toNat ++ 125 :: rest).dropWhile (· ≠ 125) = 125 :: rest := by
    rw [List.dropWhile_append_of_pos hDigits, List.dropWhile_cons_of_neg (by decide)]
  have hTake : (hexNat c.toNat ++ 125 :: rest).takeWhile (· ≠ 125) = hexNat c.toNat := by
    rw [List.takeWhile_append_of_pos hDigits, List.takeWhile_cons_of_neg (by decide),
      List.append_nil]
  simp only [List.cons_append, List.append_assoc, List.nil_append, escape?, hDrop, hTake,
    scalar?_hexNat, Option.map_some]

/-- The bytes of a character that needs no escape. -/
theorem plain_of_mem_utf8EncodeChar {c : Char} (hControl : 32 ≤ c.toNat) (hDelete : c.toNat ≠ 127)
    {b : UInt8} (hb : b ∈ String.utf8EncodeChar c) :
    (32 ≤ b ∧ b ≠ 127) ∧ (c ≠ '"' → b ≠ 34) ∧ (c ≠ '\\' → b ≠ 92) := by
  by_cases hAscii : b < 128
  · have hChar := Text.byteChar_of_mem_utf8EncodeChar hb hAscii
    have hCode : c.toNat = b.toNat := by
      rw [← hChar]
      exact Text.forall_ascii (P := fun b => (Text.byteChar b).toNat = b.toNat) (by decide) hAscii
    refine ⟨⟨UInt8.le_iff_toNat_le.mpr (hCode ▸ hControl), ?_⟩, ?_, ?_⟩
    · rintro rfl
      exact hDelete hCode
    · rintro hQuote rfl
      exact hQuote hChar.symm
    · rintro hBackslash rfl
      exact hBackslash hChar.symm
  · have hHigh : 128 ≤ b.toNat := by
      simpa [UInt8.lt_iff_toNat_lt] using hAscii
    have hOther : ∀ n : UInt8, n.toNat < 128 → b ≠ n := by
      rintro n hn rfl
      omega
    exact ⟨⟨UInt8.le_iff_toNat_le.mpr (by simpa using by omega), hOther 127 (by decide)⟩,
      fun _ => hOther 34 (by decide), fun _ => hOther 92 (by decide)⟩

/-- Every character reads as its bytes, whatever follows what is written for it. -/
theorem spells_escapeChar (c : Char) : Spells (escapeChar c) (String.utf8EncodeChar c) := by
  have hSimple : ∀ {b e : UInt8}, b ≠ 117 → b ≠ 120 → b ≠ 10 → simpleEscape? b = some e →
      Spells [92, b] [e] := by
    intro b e hScalar hPair hLine hEscape
    refine spells_escape fun rest => ?_
    rw [List.singleton_append, escape?, hEscape]
    · rfl
    · exact fun _ hb => absurd hb hScalar
    · exact fun _ _ _ hb => absurd hb hPair
    · exact hLine
  unfold escapeChar
  split
  · next h => exact h ▸ hSimple (b := 34) (by decide) (by decide) (by decide) rfl
  next hQuote =>
  split
  · next h => exact h ▸ hSimple (b := 92) (by decide) (by decide) (by decide) rfl
  next hBackslash =>
  split
  · next h => exact h ▸ hSimple (b := 110) (by decide) (by decide) (by decide) rfl
  split
  · next h => exact h ▸ hSimple (b := 114) (by decide) (by decide) (by decide) rfl
  split
  · next h => exact h ▸ hSimple (b := 116) (by decide) (by decide) (by decide) rfl
  split
  · next h => exact h ▸ hSimple (b := 48) (by decide) (by decide) (by decide) rfl
  split
  · exact spells_scalar c
  · next hPlain =>
    simp only [Bool.or_eq_true, decide_eq_true_eq, not_or, Nat.not_lt] at hPlain
    refine spells_of_plain fun b hb => ?_
    obtain ⟨⟨hControl, _⟩, hNoQuote, hNoBackslash⟩ :=
      plain_of_mem_utf8EncodeChar hPlain.1 hPlain.2 hb
    refine ⟨hNoQuote hQuote, ?_, hNoBackslash hBackslash⟩
    rintro rfl
    exact absurd hControl (by decide)

theorem spells_flatMap_escapeChar (cs : List Char) :
    Spells (cs.flatMap escapeChar) (Text.ofChars cs) := by
  induction cs with
  | nil => exact spells_nil
  | cons c cs ih => exact (spells_escapeChar c).append ih

/-- A string literal reads as the text it is written for, stray bytes mended, and ends where it was
meant to. -/
theorem stringValue?_stringLiteral (s rest : Text) :
    stringValue? (stringLiteral s ++ rest) = some (Text.mended s, rest) := by
  have hText : stringLiteral s ++ rest =
      34 :: ((Text.chars s).flatMap escapeChar ++ 34 :: rest) := by
    change 34 :: (Text.chars s).flatMap escapeChar ++ [34] ++ rest = _
    simp
  rw [hText, stringValue?, spells_flatMap_escapeChar, stringBody?, if_pos rfl]
  simp [Text.mended]

theorem printable_of_all {s : Text} (h : s.all (fun b => 32 ≤ b && b < 127) = true) :
    ∀ b ∈ s, 32 ≤ b ∧ b < 127 := by
  simpa using h

/-- A character is written in printable ASCII bytes, or it is no control character and written as it
is. -/
theorem escapeChar_printable (c : Char) : (∀ b ∈ escapeChar c, 32 ≤ b ∧ b < 127) ∨
    escapeChar c = String.utf8EncodeChar c ∧ 32 ≤ c.toNat ∧ c.toNat ≠ 127 := by
  unfold escapeChar
  split
  · exact .inl (printable_of_all (by decide))
  split
  · exact .inl (printable_of_all (by decide))
  split
  · exact .inl (printable_of_all (by decide))
  split
  · exact .inl (printable_of_all (by decide))
  split
  · exact .inl (printable_of_all (by decide))
  split
  · exact .inl (printable_of_all (by decide))
  split
  · have hDigits := forall_mem_hexNat (P := fun b => 32 ≤ b ∧ b < 127) (by decide) c.toNat
    exact .inl (List.forall_mem_append.mpr ⟨List.forall_mem_append.mpr
      ⟨printable_of_all (by decide), hDigits⟩, printable_of_all (by decide)⟩)
  · next hPlain =>
    simp only [Bool.or_eq_true, decide_eq_true_eq, not_or, Nat.not_lt] at hPlain
    exact .inr ⟨rfl, hPlain⟩

/-- No control byte stands in a string literal, so no line break does. -/
theorem stringLiteral_no_control (s : Text) : ∀ b ∈ stringLiteral s, 32 ≤ b ∧ b ≠ 127 := by
  have hQuote : ∀ b ∈ ("\"" : Text), 32 ≤ b ∧ b ≠ 127 :=
    fun b hb => (printable_of_all (by decide) b hb).imp_right UInt8.ne_of_lt
  refine List.forall_mem_append.mpr ⟨List.forall_mem_append.mpr ⟨hQuote, fun b hb => ?_⟩, hQuote⟩
  obtain ⟨c, _, hc⟩ := List.mem_flatMap.mp hb
  rcases escapeChar_printable c with hPrintable | ⟨hSame, hControl, hDelete⟩
  · exact (hPrintable b hc).imp_right UInt8.ne_of_lt
  · exact (plain_of_mem_utf8EncodeChar hControl hDelete (hSame ▸ hc)).1

/-- A string literal is written in characters. -/
theorem isUtf8_stringLiteral (s : Text) : Text.isUtf8 (stringLiteral s) = true := by
  have hChar : ∀ c, ∃ cs, escapeChar c = Text.ofChars cs := by
    intro c
    rcases escapeChar_printable c with hPrintable | ⟨hSame, _⟩
    · refine ⟨_, (Text.ofChars_map_byteChar fun b hb => ?_).symm⟩
      exact UInt8.lt_trans (hPrintable b hb).2 (by decide)
    · exact ⟨[c], by rw [hSame, Text.ofChars, List.flatMap_singleton]⟩
  choose f hf using hChar
  have hText : stringLiteral s = Text.ofChars ('"' :: (Text.chars s).flatMap f ++ ['"']) := by
    have hBody : (Text.chars s).flatMap escapeChar = Text.ofChars ((Text.chars s).flatMap f) := by
      rw [funext hf, Text.ofChars, List.flatMap_assoc]
      rfl
    have hQuote : Text.ofString "\"" = Text.ofChars ['"'] := rfl
    rw [stringLiteral, hBody, hQuote, Text.ofChars, Text.ofChars, Text.ofChars,
      ← List.flatMap_append, ← List.flatMap_append]
    rfl
  rw [hText]
  exact Text.isUtf8_ofChars _

theorem byteString_printable (s : Text) : ∀ b ∈ byteString s, 32 ≤ b ∧ b < 127 := by
  have hByte : ∀ n < 256,
      (escapeByte (UInt8.ofNat n)).all (fun c => 32 ≤ c && c < 127) = true := by
    decide +kernel
  refine List.forall_mem_append.mpr ⟨List.forall_mem_append.mpr
    ⟨printable_of_all (by decide), fun b hb => ?_⟩, printable_of_all (by decide)⟩
  obtain ⟨c, _, hc⟩ := List.mem_flatMap.mp hb
  exact printable_of_all (hByte c.toNat c.toNat_lt) b (by rwa [UInt8.ofNat_toNat])

/-- The literals of the output stand for the texts they are written for. A byte-string literal is
printable ASCII, one literal from its first byte to its last, and unescapes to the bytes; a string
literal of UTF-8 text is UTF-8 without control bytes, so without raw line breaks, is read to its own
closing quote whatever follows, and unescapes to the text. -/
theorem literals_unescape (s : Text) :
    ((∀ b ∈ byteString s, 32 ≤ b ∧ b < 127) ∧ byteStringValue? (byteString s) = some s) ∧
    (Text.isUtf8 s = true → Text.isUtf8 (stringLiteral s) = true ∧
      (∀ b ∈ stringLiteral s, 32 ≤ b ∧ b ≠ 127) ∧
      ∀ rest, stringValue? (stringLiteral s ++ rest) = some (s, rest)) := by
  refine ⟨⟨byteString_printable s, byteStringValue?_byteString s⟩, fun hValid =>
    ⟨isUtf8_stringLiteral s, stringLiteral_no_control s, fun rest => ?_⟩⟩
  rw [stringValue?_stringLiteral, Text.mended_of_isUtf8 hValid]

/-- Control characters before digits, a quote, a backslash and a character beyond ASCII. -/
theorem literals_unescape_mixed :
    Text.isUtf8 "\"\\\x00\x01f\x7f\u00e9" = true ∧
    stringLiteral "\"\\\x00\x01f\x7f\u00e9" =
      "\"\\\"\\\\\\0\\u\x7b1\x7df\\u\x7b7f\x7d\u00e9\"" ∧
    stringValue? (stringLiteral "\"\\\x00\x01f\x7f\u00e9" ++ "\";") =
      some (Text.ofString "\"\\\x00\x01f\x7f\u00e9", Text.ofString "\";") ∧
    byteStringValue? (byteString "\"\\\x00\x01f\x7f\u00e9") =
      some (Text.ofString "\"\\\x00\x01f\x7f\u00e9") := by
  have hValid : Text.isUtf8 "\"\\\x00\x01f\x7f\u00e9" = true := by decide +kernel
  have hRead := literals_unescape "\"\\\x00\x01f\x7f\u00e9"
  exact ⟨hValid, by decide +kernel, (hRead.2 hValid).2.2 _, hRead.1.2⟩

end AnchorScript.Rust
