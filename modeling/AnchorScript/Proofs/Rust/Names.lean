import AnchorScript.Rust.Name
import AnchorScript.Proofs.Text.Characters
import AnchorScript.Proofs.Token.Words

/-!
# Names of the output

What a name of the source is respelled to is a word again. A keyword has a mark then, which is no
part of the identifier: Rust takes `r#x` and `x` for one name.
-/

namespace AnchorScript

theorem Lexer.isIdentPart_lt {b : UInt8} (h : isIdentPart b = true) : b < 128 := by
  simp only [isIdentPart, isIdentStart, Text.isLetter, Text.isLower, Text.isUpper, Text.isDigit,
    Bool.or_eq_true, Bool.and_eq_true, decide_eq_true_eq, UInt8.le_iff_toNat_le,
    ← UInt8.toNat_inj, UInt8.reduceToNat] at h
  rw [UInt8.lt_iff_toNat_lt]
  simp only [UInt8.reduceToNat]
  omega

theorem isAscii_of_isWord {s : Text} (h : IsWord s) : Text.IsAscii s :=
  fun b hb => Lexer.isIdentPart_lt (h.2 b hb)

namespace Rust

theorem isIdentPart_lowerByte {b : UInt8} (h : Lexer.isIdentPart b = true) :
    Lexer.isIdentPart (Text.lowerByte b) = true :=
  Text.forall_ascii (P := fun b => Lexer.isIdentPart b = true →
    Lexer.isIdentPart (Text.lowerByte b) = true) (by decide) (Lexer.isIdentPart_lt h) h

theorem isWord_toLower {s : Text} (h : IsWord s) : IsWord (Text.toLower s) := by
  rw [Text.toLower_of_isAscii (isAscii_of_isWord h)]
  refine ⟨by simpa using h.1, fun b hb => ?_⟩
  obtain ⟨a, ha, rfl⟩ := List.mem_map.mp hb
  exact isIdentPart_lowerByte (h.2 a ha)

theorem beginsNumber_toLower {s : Text} (h : BeginsWord Text.isDigit s) :
    BeginsWord Text.isDigit (Text.toLower s) := by
  have hWord := isWord_toLower (h.isWord isIdentPart_of_isDigit)
  have hAscii := isAscii_of_isWord (h.isWord isIdentPart_of_isDigit)
  obtain ⟨c, r, rfl, hc, hr⟩ := h
  have hSame : Text.lowerByte c = c :=
    Text.forall_ascii (P := fun b => Text.isDigit b = true → Text.lowerByte b = b) (by decide)
      (hAscii c List.mem_cons_self) hc
  rw [Text.toLower_of_isAscii hAscii, List.map_cons, hSame] at hWord ⊢
  exact ⟨c, _, rfl, hc, (List.forall_mem_cons.mp hWord.2).2⟩

theorem mem_snakeChars {previous : Option Char} {cs : List Char} {c : Char}
    (h : c ∈ snakeChars previous cs) :
    c = '_' ∨ ∃ d ∈ cs, c = d ∨ c = Text.toLowerLetter d := by
  fun_induction snakeChars previous cs with
  | case1 => cases h
  | case2 previous d r _ _ ih =>
    rcases List.mem_cons.mp h with rfl | h
    · exact .inl rfl
    · rcases List.mem_cons.mp h with rfl | h
      · exact .inr ⟨d, List.mem_cons_self, .inr rfl⟩
      · exact (ih h).imp_right fun ⟨e, he, hc⟩ => ⟨e, List.mem_cons_of_mem d he, hc⟩
  | case3 previous d r _ _ ih =>
    rcases List.mem_cons.mp h with rfl | h
    · exact .inr ⟨d, List.mem_cons_self, .inr rfl⟩
    · exact (ih h).imp_right fun ⟨e, he, hc⟩ => ⟨e, List.mem_cons_of_mem d he, hc⟩
  | case4 previous d r _ ih =>
    rcases List.mem_cons.mp h with rfl | h
    · exact .inr ⟨_, List.mem_cons_self, .inl rfl⟩
    · exact (ih h).imp_right fun ⟨e, he, hc⟩ => ⟨e, List.mem_cons_of_mem d he, hc⟩

theorem snakeChars_ne_nil (previous : Option Char) {cs : List Char} (h : cs ≠ []) :
    snakeChars previous cs ≠ [] := by
  fun_cases snakeChars previous cs with
  | case1 => exact absurd rfl h
  | case2 => exact List.cons_ne_nil _ _
  | case3 => exact List.cons_ne_nil _ _
  | case4 => exact List.cons_ne_nil _ _

theorem isWord_snakeCase {name : Text} (h : IsWord name) : IsWord (snakeCase name) := by
  have hAscii := isAscii_of_isWord h
  have hBytes : ∀ c ∈ snakeChars none (name.map Text.byteChar),
      ∃ b, String.utf8EncodeChar c = [b] ∧ Lexer.isIdentPart b = true := by
    intro c hc
    rcases mem_snakeChars hc with rfl | ⟨d, hd, hSame⟩
    · exact ⟨95, by decide, rfl⟩
    · obtain ⟨b, hb, rfl⟩ := List.mem_map.mp hd
      have hPart := h.2 b hb
      rcases hSame with rfl | rfl
      · exact ⟨b, Text.utf8EncodeChar_byteChar (hAscii b hb), hPart⟩
      · rw [Text.toLowerLetter_byteChar (hAscii b hb)]
        exact ⟨_, Text.utf8EncodeChar_byteChar (Text.lowerByte_ascii (hAscii b hb)),
          isIdentPart_lowerByte hPart⟩
  rw [snakeCase, Text.chars_of_isAscii hAscii]
  constructor
  · have hNonempty : name.map Text.byteChar ≠ [] := by simpa using h.1
    obtain ⟨c, cs, hChars⟩ := List.exists_cons_of_ne_nil (snakeChars_ne_nil none hNonempty)
    obtain ⟨b, hb, _⟩ := hBytes c (by simp [hChars])
    simp [hChars, Text.ofChars, hb]
  · intro b hb
    obtain ⟨c, hc, hMem⟩ := List.mem_flatMap.mp hb
    obtain ⟨a, ha, hPart⟩ := hBytes c hc
    rw [ha, List.mem_singleton] at hMem
    rw [hMem]
    exact hPart

theorem isIdentStart_lowerByte {b : UInt8} (h : Lexer.isIdentStart b = true) :
    Lexer.isIdentStart (Text.lowerByte b) = true :=
  Text.forall_ascii (P := fun b => Lexer.isIdentStart b = true →
    Lexer.isIdentStart (Text.lowerByte b) = true) (by decide)
    (Lexer.isIdentPart_lt (isIdentPart_of_isIdentStart b h)) h

theorem isDigit_of_isIdentStart {b : UInt8} (h : Lexer.isIdentStart b = true) :
    Text.isDigit b = false :=
  Text.forall_ascii (P := fun b => Lexer.isIdentStart b = true → Text.isDigit b = false)
    (by decide) (Lexer.isIdentPart_lt (isIdentPart_of_isIdentStart b h)) h

theorem isName_snakeCase {n : Text} (h : IsName n) : IsName (snakeCase n) := by
  -- no underscore is put before the first character
  have hWord := isWord_snakeCase h.isWord
  have hAscii := isAscii_of_isWord h.isWord
  obtain ⟨c, r, rfl, hc, _⟩ := h
  have hLow := hAscii c List.mem_cons_self
  obtain ⟨b, cs, hChars, hb, hByte⟩ : ∃ b cs, snakeChars none ((c :: r).map Text.byteChar) =
      Text.byteChar b :: cs ∧ Lexer.isIdentStart b = true ∧ b < 128 := by
    rw [List.map_cons, snakeChars]
    split
    · rw [Option.any_none, if_neg Bool.false_ne_true, Text.toLowerLetter_byteChar hLow]
      exact ⟨_, _, rfl, isIdentStart_lowerByte hc, Text.lowerByte_ascii hLow⟩
    · exact ⟨c, _, rfl, hc, hLow⟩
  have hText : snakeCase (c :: r) = b :: Text.ofChars cs := by
    rw [snakeCase, Text.chars_of_isAscii hAscii, hChars, Text.ofChars, List.flatMap_cons,
      Text.utf8EncodeChar_byteChar hByte]
    rfl
  rw [hText] at hWord ⊢
  exact ⟨b, _, rfl, hb, (List.forall_mem_cons.mp hWord.2).2⟩

/-- A keyword as an identifier. -/
def marked (s : Text) : Text := "r#" ++ s

/-- The identifier that Rust compares: the name without the mark of an escaped keyword. -/
def bare (id : Text) : Text := (Text.dropStart? "r#" id).getD id

theorem bare_marked (s : Text) : bare (marked s) = s := rfl

theorem bare_cases (id : Text) : bare id = id ∨ id = marked (bare id) := by
  unfold bare Text.dropStart?
  split
  · rename_i hMark
    obtain ⟨s, rfl⟩ := List.isPrefixOf_iff_prefix.mp hMark
    exact .inr rfl
  · exact .inl rfl

/-- A text that begins with a word of two letters or more has no mark. -/
theorem bare_of_isWord_prefix {w id : Text} (hWord : IsWord w) (hLength : 2 ≤ w.length)
    (h : w <+: id) : bare id = id := by
  rcases bare_cases id with hBare | hMark
  · exact hBare
  · obtain ⟨s, hs⟩ := h
    rw [← hs] at hMark
    match w, hLength with
    | a :: b :: w, _ =>
      obtain ⟨-, hRest⟩ := List.cons.inj hMark
      obtain ⟨hByte, -⟩ := List.cons.inj hRest
      have hPart := hWord.2 b (by simp)
      rw [hByte] at hPart
      cases hPart

theorem underscore_notMem_keyword {k : Text} (h : k ∈ keywords) : 95 ∉ k := by
  revert k
  decide +kernel

theorem ident_cases (n : Text) : snakeCase n ∉ keywords ∧ ident n = snakeCase n ∨
    snakeCase n ∈ keywords ∧ ident n = marked (snakeCase n) := by
  unfold ident
  by_cases h : snakeCase n ∈ keywords
  · exact .inr ⟨h, if_pos (by simpa using h)⟩
  · exact .inl ⟨h, if_neg (by simpa using h)⟩

theorem bare_ident {n : Text} (h : IsWord n) : bare (ident n) = snakeCase n := by
  rcases ident_cases n with ⟨-, hPlain⟩ | ⟨-, hMarked⟩
  · rw [hPlain]
    rcases bare_cases (snakeCase n) with hBare | hMark
    · exact hBare
    · -- the mark is no part of a word
      have hByte := (isWord_snakeCase h).2 35
      rw [hMark] at hByte
      cases hByte (List.mem_cons_of_mem 114 List.mem_cons_self)
  · rw [hMarked, bare_marked]

/-- An identifier as the output has it: a name that is no keyword, or a name with the mark. -/
def IsOutputName (s : Text) : Prop := s ∉ keywords ∧ (IsName s ∨ ∃ w, IsName w ∧ s = marked w)

theorem isOutputName_of_all {s : Text} (hStart : s.head?.any Lexer.isIdentStart = true)
    (hParts : s.all Lexer.isIdentPart = true) (hKeyword : s ∉ keywords) : IsOutputName s := by
  cases s with
  | nil => cases hStart
  | cons c r => exact ⟨hKeyword, .inl ⟨c, r, rfl, hStart, fun b hb => List.all_eq_true.mp hParts b
      (List.mem_cons_of_mem c hb)⟩⟩

theorem isOutputName_ident {n : Text} (h : IsName n) : IsOutputName (ident n) := by
  have hSnake := isName_snakeCase h
  rcases ident_cases n with ⟨hOther, hPlain⟩ | ⟨_, hMarked⟩
  · rw [hPlain]
    exact ⟨hOther, .inl hSnake⟩
  · rw [hMarked]
    have hNone : ∀ k ∈ keywords, 35 ∉ k := by decide +kernel
    exact ⟨fun hMem => hNone _ hMem (List.mem_cons_of_mem 114 List.mem_cons_self), .inr ⟨_, hSnake, rfl⟩⟩

/-- What has an underscore and is not written like the identifier is the same to Rust only if it is
the identifier with a mark. -/
theorem eq_marked_of_bare_eq {g n : Text} (hWord : IsWord n) (hUnderscore : 95 ∈ g)
    (hApart : g ≠ ident n) (h : bare g = bare (ident n)) : g = marked (ident n) := by
  rw [bare_ident hWord] at h
  rcases ident_cases n with ⟨-, hPlain⟩ | ⟨hKeyword, -⟩
  · rw [hPlain]
    rcases bare_cases g with hBare | hMark
    · exact (hApart (by rw [hPlain, ← h, hBare])).elim
    · rwa [h] at hMark
  · refine (underscore_notMem_keyword hKeyword ?_).elim
    rcases bare_cases g with hBare | hMark
    · rwa [← h, hBare]
    · rw [hMark, h] at hUnderscore
      rcases List.mem_append.mp hUnderscore with hByte | hByte
      · cases (show (95 : UInt8) ∉ Text.ofString "r#" by decide +kernel) hByte
      · exact hByte

def upperByte (b : UInt8) : UInt8 := if Text.isLower b then b - 32 else b

/-- Pascal case of ASCII text, byte by byte. -/
def pascalBytes (raise : Bool) : Text → Text
  | [] => []
  | b :: r =>
    if b = 95 then pascalBytes true r
    else (if raise then upperByte b else b) :: pascalBytes false r

theorem pascalBytes_cons (raise : Bool) (b : UInt8) (r : Text) :
    pascalBytes raise (b :: r) =
      if b = 95 then pascalBytes true r
      else (if raise then upperByte b else b) :: pascalBytes false r := rfl

theorem upperByte_spec {b : UInt8} (h : Lexer.isIdentPart b = true) :
    Text.toUpperLetter (Text.byteChar b) = Text.byteChar (upperByte b) ∧
      Lexer.isIdentPart (upperByte b) = true ∧ (upperByte b = 36 ↔ b = 36) ∧
      Text.isDigit (upperByte b) = Text.isDigit b :=
  Text.forall_ascii (P := fun b => Lexer.isIdentPart b = true →
    Text.toUpperLetter (Text.byteChar b) = Text.byteChar (upperByte b) ∧
      Lexer.isIdentPart (upperByte b) = true ∧ (upperByte b = 36 ↔ b = 36) ∧
      Text.isDigit (upperByte b) = Text.isDigit b)
    (by decide) (Lexer.isIdentPart_lt h) h

section PascalCase

variable {s : Text} (h : ∀ b ∈ s, Lexer.isIdentPart b = true)

include h

theorem pascalChars_eq_map (raise : Bool) :
    pascalChars raise (s.map Text.byteChar) = (pascalBytes raise s).map Text.byteChar := by
  induction s generalizing raise with
  | nil => rfl
  | cons b r ih =>
    obtain ⟨hb, hr⟩ := List.forall_mem_cons.mp h
    have hUnderscore : Text.byteChar b = '_' ↔ b = 95 :=
      Text.forall_ascii (P := fun b => Text.byteChar b = '_' ↔ b = 95) (by decide)
        (Lexer.isIdentPart_lt hb)
    rw [List.map_cons, pascalChars, pascalBytes_cons]
    simp only [hUnderscore]
    split
    · exact ih hr true
    · cases raise with
      | true => simp [(upperByte_spec hb).1, ih hr]
      | false => simp [ih hr]

theorem isIdentPart_pascalBytes (raise : Bool) :
    ∀ b ∈ pascalBytes raise s, Lexer.isIdentPart b = true := by
  induction s generalizing raise with
  | nil =>
    intro b hb
    cases hb
  | cons b r ih =>
    obtain ⟨hb, hr⟩ := List.forall_mem_cons.mp h
    rw [pascalBytes_cons]
    split
    · exact ih hr true
    · apply List.forall_mem_cons.mpr ⟨_, ih hr false⟩
      cases raise with
      | true => exact (upperByte_spec hb).2.1
      | false => exact hb

theorem dollar_mem_pascalBytes_iff (raise : Bool) : 36 ∈ pascalBytes raise s ↔ 36 ∈ s := by
  induction s generalizing raise with
  | nil => rfl
  | cons b r ih =>
    obtain ⟨hb, hr⟩ := List.forall_mem_cons.mp h
    rw [pascalBytes_cons, List.mem_cons]
    split
    · rename_i hUnderscore
      rw [ih hr true, hUnderscore]
      exact (or_iff_right (by decide)).symm
    · rw [List.mem_cons, ih hr false]
      cases raise with
      | true => rw [if_pos rfl, eq_comm, (upperByte_spec hb).2.2.1, eq_comm]
      | false => rfl

theorem isDigit_head_pascalBytes :
    (pascalBytes true s).head?.any Text.isDigit =
      (s.dropWhile (· = 95)).head?.any Text.isDigit := by
  induction s with
  | nil => rfl
  | cons b r ih =>
    obtain ⟨hb, hr⟩ := List.forall_mem_cons.mp h
    rw [pascalBytes_cons]
    split
    · rename_i hUnderscore
      rw [List.dropWhile_cons_of_pos (by simpa using hUnderscore)]
      exact ih hr
    · rename_i hOther
      rw [List.dropWhile_cons_of_neg (by simpa using hOther)]
      exact (upperByte_spec hb).2.2.2

end PascalCase

theorem pascalCase_eq {s : Text} (h : IsWord s) : pascalCase s = pascalBytes true s := by
  rw [pascalCase, Text.chars_of_isAscii (isAscii_of_isWord h), pascalChars_eq_map h.2,
    Text.ofChars_map_byteChar]
  exact fun b hb => Lexer.isIdentPart_lt (isIdentPart_pascalBytes h.2 true b hb)

theorem contextName_eq {n : Text} (h : IsWord n) : contextName n = pascalBytes true n ++ "Context" := by
  rw [contextName, pascalCase_eq h]

theorem isWord_contextName {n : Text} (h : IsWord n) : IsWord (contextName n) := by
  have hSuffix : IsWord (Text.ofString "Context") := isWord_of_all rfl (by decide)
  rw [contextName_eq h]
  constructor
  · exact List.append_ne_nil_of_right_ne_nil _ hSuffix.1
  · exact List.forall_mem_append.mpr ⟨isIdentPart_pascalBytes h.2 true, hSuffix.2⟩

end Rust

end AnchorScript
