import AnchorScript.Rust.Expr
import AnchorScript.Token.Lexer
import AnchorScript.Proofs.Text.Characters

/-!
# The tokens of an expression

What a reader of Rust sees in the text of an expression: words, string literals, dots, brackets and
operators, with spaces between them. A word goes on as long as it can, and a string literal ends at
its first quote without a backslash.
-/

namespace AnchorScript.Rust

inductive Tok where
  | word (s : Text)
  | text (literal : Text)
  | dot
  | lparen
  | rparen
  | op (o : ArithOp)
  deriving DecidableEq

/-- The bytes of names and numbers, the mark of a raw identifier and the separator of a path. -/
def isWordByte (b : UInt8) : Bool := Lexer.isIdentPart b || b = 35 || b = 58

def IsRustWord (s : Text) : Prop := s ≠ [] ∧ ∀ b ∈ s, isWordByte b = true

theorem isRustWord_of_all {s : Text} (hNonempty : s.isEmpty = false)
    (hAll : s.all isWordByte = true) : IsRustWord s :=
  ⟨List.isEmpty_eq_false_iff.mp hNonempty, List.all_eq_true.mp hAll⟩

/-- A string literal from behind its opening quote through its closing one, and what follows. -/
def literalRest? : Text → Option (Text × Text)
  | [] => none
  | 34 :: r => some ([34], r)
  | 92 :: b :: r => (literalRest? r).map fun p => (92 :: b :: p.1, p.2)
  | b :: r => (literalRest? r).map fun p => (b :: p.1, p.2)

theorem literalRest?_append {s literal rest : Text} (h : literalRest? s = some (literal, rest)) :
    literal ++ rest = s := by
  fun_induction literalRest? s generalizing literal rest with
  | case1 => cases h
  | case2 r =>
    cases h
    rfl
  | case3 b r ih =>
    obtain ⟨⟨l, t⟩, hRest, hSame⟩ := Option.map_eq_some_iff.mp h
    cases hSame
    exact congrArg (92 :: b :: ·) (ih hRest)
  | case4 b r _ _ ih =>
    obtain ⟨⟨l, t⟩, hRest, hSame⟩ := Option.map_eq_some_iff.mp h
    cases hSame
    exact congrArg (b :: ·) (ih hRest)

def sign? (b : UInt8) : Option Tok :=
  if b = 46 then some .dot
  else if b = 40 then some .lparen
  else if b = 41 then some .rparen
  else if b = 43 then some (.op .add)
  else if b = 45 then some (.op .sub)
  else if b = 42 then some (.op .mul)
  else if b = 47 then some (.op .div)
  else if b = 37 then some (.op .rem)
  else none

/-- The tokens of a text, or none if a part of it is not a token. -/
def scan (s : Text) : Option (List Tok) :=
  match s with
  | [] => some []
  | b :: r =>
    if b = 32 then scan r
    else if b = 34 then
      match _h : literalRest? r with
      | some (literal, rest) => (scan rest).map (.text (34 :: literal) :: ·)
      | none => none
    else if isWordByte b then
      (scan (r.dropWhile isWordByte)).map (.word (b :: r.takeWhile isWordByte) :: ·)
    else match sign? b with
      | some t => (scan r).map (t :: ·)
      | none => none
termination_by s.length
decreasing_by
  · simp
  · have := congrArg List.length (literalRest?_append _h)
    simp at this ⊢
    omega
  · have := (List.dropWhile_sublist isWordByte (l := r)).length_le
    simp
    omega
  · simp

/-- No word goes on into the text. -/
def Apart (rest : Text) : Prop := rest.head?.any isWordByte = false

theorem scan_space (r : Text) : scan (32 :: r) = scan r := by
  rw [scan]
  rfl

theorem scan_sign {b : UInt8} {t : Tok} (h : sign? b = some t) (hWord : isWordByte b = false)
    (r : Text) : scan (b :: r) = (scan r).map (t :: ·) := by
  have hSpace : b ≠ 32 := by
    rintro rfl
    cases h
  have hQuote : b ≠ 34 := by
    rintro rfl
    cases h
  rw [scan, if_neg hSpace, if_neg hQuote, hWord]
  simp [h]

theorem scan_word {w rest : Text} (hw : IsRustWord w) (hRest : Apart rest) :
    scan (w ++ rest) = (scan rest).map (.word w :: ·) := by
  obtain ⟨hNonempty, hBytes⟩ := hw
  obtain ⟨b, r, rfl⟩ := List.exists_cons_of_ne_nil hNonempty
  obtain ⟨hb, hr⟩ := List.forall_mem_cons.mp hBytes
  have hSpace : b ≠ 32 := by
    rintro rfl
    cases hb
  have hQuote : b ≠ 34 := by
    rintro rfl
    cases hb
  have hTake : rest.takeWhile isWordByte = [] ∧ rest.dropWhile isWordByte = rest := by
    cases rest with
    | nil => exact ⟨rfl, rfl⟩
    | cons c rest =>
      have hc : isWordByte c = false := hRest
      simp [hc]
  rw [List.cons_append, scan, if_neg hSpace, if_neg hQuote, if_pos hb,
    List.takeWhile_append_of_pos hr, List.dropWhile_append_of_pos hr, hTake.1, hTake.2,
    List.append_nil]

/-- The literal goes on behind the text. -/
def Continues (s : Text) : Prop :=
  ∀ rest, literalRest? (s ++ rest) = (literalRest? rest).map fun p => (s ++ p.1, p.2)

theorem Continues.append {s t : Text} (hs : Continues s) (ht : Continues t) :
    Continues (s ++ t) := by
  intro rest
  rw [List.append_assoc, hs, ht, Option.map_map]
  simp only [Function.comp_def, List.append_assoc]

theorem continues_nil : Continues [] := fun rest => by
  cases h : literalRest? rest <;> simp [h]

theorem continues_escape (b : UInt8) : Continues [92, b] := fun rest => by
  rw [List.cons_append, List.singleton_append, literalRest?]
  rfl

theorem continues_of_plain {s : Text} (h : ∀ b ∈ s, b ≠ 34 ∧ b ≠ 92) : Continues s := by
  induction s with
  | nil => exact continues_nil
  | cons b r ih =>
    obtain ⟨⟨hQuote, hBackslash⟩, hr⟩ := List.forall_mem_cons.mp h
    have hb : Continues [b] := by
      intro rest
      rw [List.singleton_append, literalRest?]
      · rfl
      · exact hQuote
      · exact fun _ _ hb _ => hBackslash hb
    exact hb.append (ih hr)

theorem forall_mem_hexNat {P : UInt8 → Prop} (h : ∀ n < 16, P (Text.hexDigit (Nat.toUInt8 n))) (n : Nat) :
    ∀ b ∈ hexNat n, P b := by
  fun_induction hexNat n with
  | case1 n hSmall => exact List.forall_mem_singleton.mpr (h n hSmall)
  | case2 n _ ih =>
    exact List.forall_mem_append.mpr
      ⟨ih, List.forall_mem_singleton.mpr (h _ (Nat.mod_lt n (by decide)))⟩

theorem hexNat_plain (n : Nat) : ∀ b ∈ hexNat n, b ≠ 34 ∧ b ≠ 92 :=
  forall_mem_hexNat (by decide) n

theorem continues_utf8EncodeChar {c : Char} (hQuote : c ≠ '"') (hBackslash : c ≠ '\\') :
    Continues (String.utf8EncodeChar c) := by
  apply continues_of_plain
  by_cases hc : c.toNat < 128
  · have hChar : Text.byteChar (UInt8.ofNat c.toNat) = c := by
      rw [Text.byteChar, UInt8.toNat_ofNat', Nat.mod_eq_of_lt (by omega), Char.ofNat_toNat]
    have hByte : UInt8.ofNat c.toNat < 128 := by
      rw [UInt8.lt_iff_toNat_lt, UInt8.toNat_ofNat']
      simp only [UInt8.reduceToNat]
      omega
    rw [← hChar, Text.utf8EncodeChar_byteChar hByte, List.forall_mem_singleton]
    constructor
    · intro hSame
      rw [hSame] at hChar
      exact hQuote hChar.symm
    · intro hSame
      rw [hSame] at hChar
      exact hBackslash hChar.symm
  · intro b hb
    have hHigh := Text.le_of_mem_utf8EncodeChar (Nat.le_of_not_lt hc) hb
    constructor
    · rintro rfl
      exact absurd hHigh (by decide)
    · rintro rfl
      exact absurd hHigh (by decide)

theorem continues_escapeChar (c : Char) : Continues (escapeChar c) := by
  unfold escapeChar
  split
  · exact continues_escape 34
  · rename_i hQuote
    split
    · exact continues_escape 92
    · rename_i hBackslash
      split
      · exact continues_escape 110
      · split
        · exact continues_escape 114
        · split
          · exact continues_escape 116
          · split
            · exact continues_escape 48
            · split
              · have hPlain {b : UInt8} (hb : b ≠ 34 ∧ b ≠ 92) : Continues [b] :=
                  continues_of_plain (List.forall_mem_singleton.mpr hb)
                have hOpen : Continues "\\u\x7b" :=
                  (continues_escape 117).append (hPlain (b := 123) (by decide))
                have hClose : Continues "\x7d" := hPlain (b := 125) (by decide)
                exact (hOpen.append (continues_of_plain (hexNat_plain _))).append hClose
              · exact continues_utf8EncodeChar hQuote hBackslash

theorem continues_flatMap_escapeChar (cs : List Char) : Continues (cs.flatMap escapeChar) := by
  induction cs with
  | nil => exact continues_nil
  | cons c cs ih => exact (continues_escapeChar c).append ih

theorem literalRest?_chars (s rest : Text) :
    literalRest? ((Text.chars s).flatMap escapeChar ++ 34 :: rest) =
      some ((Text.chars s).flatMap escapeChar ++ [34], rest) := by
  rw [continues_flatMap_escapeChar, literalRest?]
  rfl

theorem scan_stringLiteral (s rest : Text) :
    scan (stringLiteral s ++ rest) = (scan rest).map (.text (stringLiteral s) :: ·) := by
  have hText : stringLiteral s ++ rest = 34 :: ((Text.chars s).flatMap escapeChar ++ 34 :: rest) := by
    change 34 :: (Text.chars s).flatMap escapeChar ++ [34] ++ rest = _
    simp
  rw [hText, scan, if_neg (by decide), if_pos rfl]
  split
  · rename_i literal rest' hSome
    rw [literalRest?_chars] at hSome
    cases hSome
    rfl
  · rename_i hNone
    rw [literalRest?_chars] at hNone
    cases hNone

end AnchorScript.Rust
