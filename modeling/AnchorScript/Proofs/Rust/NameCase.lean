import AnchorScript.Interface.Discriminator
import AnchorScript.Proofs.Rust.Spelling

/-!
# Respelled names

Snake case is a normal form: no capital is left in it, so what is in snake case stays as it is, and
nothing but underscores is put between the letters of a name that are lowered. Snake case and Pascal
case put different source names together: `fooBar` and `foo_bar`, or `setURL` and `setUrl`. In camel
case, where no underscore stands and no two capitals are side by side, either spelling gives the name
back, so different names stay different.
-/

namespace AnchorScript

namespace Text

theorem isUpperLetter_byteChar {b : UInt8} (hb : b < 128) :
    isUpperLetter (byteChar b) = isUpper b :=
  forall_ascii (P := fun b => isUpperLetter (byteChar b) = isUpper b) (by decide) hb

theorem toUpperLetter_byteChar {b : UInt8} (hb : b < 128) (hLower : isLower b = true) :
    toUpperLetter (byteChar b) = byteChar (b - 32) :=
  forall_ascii (P := fun b => isLower b = true → toUpperLetter (byteChar b) = byteChar (b - 32))
    (by decide) hb hLower

theorem isUpperLetter_toLowerLetter_byteChar {b : UInt8} (hb : b < 128) :
    isUpperLetter (toLowerLetter (byteChar b)) = false :=
  forall_ascii (P := fun b => isUpperLetter (toLowerLetter (byteChar b)) = false) (by decide) hb

theorem toLowerLetter_of_not_upper {b : UInt8} (hb : b < 128)
    (h : isUpperLetter (byteChar b) = false) : toLowerLetter (byteChar b) = byteChar b :=
  forall_ascii (P := fun b => isUpperLetter (byteChar b) = false →
    toLowerLetter (byteChar b) = byteChar b) (by decide) hb h

theorem filter_utf8EncodeChar (c : Char) :
    (String.utf8EncodeChar c).filter (· ≠ 95) =
      if c = '_' then [] else String.utf8EncodeChar c := by
  by_cases hc : c = '_'
  · rw [hc]
    decide
  · rw [if_neg hc, List.filter_eq_self]
    intro b hb
    refine decide_eq_true fun hUnderscore => hc ?_
    subst hUnderscore
    exact (byteChar_of_mem_utf8EncodeChar hb (by decide)).symm

/-- The byte of an underscore stands in no other character. -/
theorem filter_ofChars (cs : List Char) :
    (ofChars cs).filter (· ≠ 95) = ofChars (cs.filter (· ≠ '_')) := by
  induction cs with
  | nil => rfl
  | cons c cs ih =>
    rw [ofChars, List.flatMap_cons, List.filter_append, ← ofChars, ih, filter_utf8EncodeChar]
    by_cases hc : c = '_' <;> simp [hc, ofChars]

end Text

namespace Rust

/-- Letters and digits, no two capitals side by side. -/
def isCamelRest (afterCapital : Bool) : Text → Bool
  | [] => true
  | b :: r =>
    if Text.isUpper b then !afterCapital && isCamelRest true r
    else (Text.isLower b || Text.isDigit b) && isCamelRest false r

/-- A small letter, and then letters and digits with no two capitals side by side. -/
def isCamelCase : Text → Bool
  | [] => false
  | b :: r => Text.isLower b && isCamelRest false r

def isAlphanumeric (b : UInt8) : Bool := Text.isLetter b || Text.isDigit b

theorem isAlphanumeric_of_isCamelRest {afterCapital : Bool} {s : Text}
    (h : isCamelRest afterCapital s = true) : ∀ b ∈ s, isAlphanumeric b = true := by
  induction s generalizing afterCapital with
  | nil => simp
  | cons b r ih =>
    rw [isCamelRest] at h
    split at h
    · rename_i hUpper
      obtain ⟨_, hRest⟩ := Bool.and_eq_true_iff.mp h
      refine List.forall_mem_cons.mpr ⟨?_, ih hRest⟩
      simp [isAlphanumeric, Text.isLetter, hUpper]
    · obtain ⟨hb, hRest⟩ := Bool.and_eq_true_iff.mp h
      refine List.forall_mem_cons.mpr ⟨?_, ih hRest⟩
      rcases Bool.or_eq_true_iff.mp hb with hLower | hDigit
      · simp [isAlphanumeric, Text.isLetter, hLower]
      · simp [isAlphanumeric, hDigit]

theorem isAlphanumeric_of_isCamelCase {s : Text} (h : isCamelCase s = true) :
    ∀ b ∈ s, isAlphanumeric b = true := by
  cases s with
  | nil => cases h
  | cons b r =>
    obtain ⟨hb, hRest⟩ := Bool.and_eq_true_iff.mp h
    refine List.forall_mem_cons.mpr ⟨?_, isAlphanumeric_of_isCamelRest hRest⟩
    simp [isAlphanumeric, Text.isLetter, hb]

theorem isIdentPart_of_isAlphanumeric {b : UInt8} (h : isAlphanumeric b = true) :
    Lexer.isIdentPart b = true := by
  rcases Bool.or_eq_true_iff.mp h with hLetter | hDigit
  · simp [Lexer.isIdentPart, Lexer.isIdentStart, hLetter]
  · simp [Lexer.isIdentPart, hDigit]

theorem lt_of_isAlphanumeric {b : UInt8} (h : isAlphanumeric b = true) : b < 128 :=
  Lexer.isIdentPart_lt (isIdentPart_of_isAlphanumeric h)

theorem isAscii_of_isCamelCase {s : Text} (h : isCamelCase s = true) : Text.IsAscii s :=
  fun b hb => lt_of_isAlphanumeric (isAlphanumeric_of_isCamelCase h b hb)

/-- A capital as snake case writes it, an underscore before the small letter. -/
def spread (b : UInt8) : Text := if Text.isUpper b then [95, Text.lowerByte b] else [b]

/-- The letter behind an underscore becomes a capital again. -/
def gather : Text → Text
  | [] => []
  | [b] => [b]
  | b :: c :: r => if b = 95 then (c - 32) :: gather r else b :: gather (c :: r)

theorem gather_cons {b : UInt8} (r : Text) (hb : b ≠ 95) : gather (b :: r) = b :: gather r := by
  cases r with
  | nil => rfl
  | cons c r => rw [gather, if_neg hb]

theorem ne_underscore_of_isAlphanumeric {b : UInt8} (h : isAlphanumeric b = true) : b ≠ 95 := by
  rintro rfl
  cases h

theorem gather_flatMap_spread {s : Text} (h : ∀ b ∈ s, isAlphanumeric b = true) :
    gather (s.flatMap spread) = s := by
  induction s with
  | nil => rfl
  | cons b r ih =>
    obtain ⟨hb, hr⟩ := List.forall_mem_cons.mp h
    rw [List.flatMap_cons, spread]
    split
    · rename_i hUpper
      have hBack : Text.lowerByte b - 32 = b := by
        rw [Text.lowerByte, if_pos hUpper, UInt8.add_sub_cancel]
      rw [List.cons_append, List.cons_append, List.nil_append, gather, if_pos rfl, hBack, ih hr]
    · rw [List.cons_append, List.nil_append, gather_cons _ (ne_underscore_of_isAlphanumeric hb),
        ih hr]

/-- After a small letter or a digit every capital begins a word. -/
theorem beginsWord_byteChar {b : UInt8} (hb : isAlphanumeric b = true)
    (hNotUpper : Text.isUpper b = false) (next : Option Char) :
    beginsWord (Text.byteChar b) next = true := by
  have hBegins : Text.byteChar b ≠ '_' ∧ (Text.isLowerLetter (Text.byteChar b) = true ∨
      Text.isDecimalDigit (Text.byteChar b) = true) :=
    Text.forall_ascii (P := fun b => isAlphanumeric b = true → Text.isUpper b = false →
      Text.byteChar b ≠ '_' ∧ (Text.isLowerLetter (Text.byteChar b) = true ∨
        Text.isDecimalDigit (Text.byteChar b) = true)) (by decide)
      (lt_of_isAlphanumeric hb) hb hNotUpper
  obtain ⟨hNotUnderscore, hLower | hDigit⟩ := hBegins
  · simp [beginsWord, hNotUnderscore, hLower]
  · simp [beginsWord, hNotUnderscore, hDigit]

theorem snakeChars_of_isCamelRest {previous : UInt8} {s : Text}
    (hPrevious : isAlphanumeric previous = true)
    (h : isCamelRest (Text.isUpper previous) s = true) :
    snakeChars (some (Text.byteChar previous)) (s.map Text.byteChar) =
      (s.flatMap spread).map Text.byteChar := by
  -- the byte before is carried along: behind a capital the next one might not begin a word
  induction s generalizing previous with
  | nil => rfl
  | cons b r ih =>
    have hb := isAlphanumeric_of_isCamelRest h b List.mem_cons_self
    have hAscii := lt_of_isAlphanumeric hb
    rw [isCamelRest] at h
    rw [List.map_cons, snakeChars, Text.isUpperLetter_byteChar hAscii, List.flatMap_cons, spread,
      List.map_append]
    cases hUpper : Text.isUpper b with
    | true =>
      simp only [hUpper, ↓reduceIte, Bool.and_eq_true, Bool.not_eq_true'] at h
      have hRest := ih hb (hUpper.symm ▸ h.2)
      have hUnderscore : Text.byteChar 95 = '_' := by decide
      simp [beginsWord_byteChar hPrevious h.1, Text.toLowerLetter_byteChar hAscii, hRest,
        hUnderscore]
    | false =>
      simp only [hUpper, Bool.false_eq_true, ↓reduceIte, Bool.and_eq_true] at h
      have hRest := ih hb (hUpper.symm ▸ h.2)
      simp [hRest]

theorem snakeCase_of_isCamelCase {s : Text} (h : isCamelCase s = true) :
    snakeCase s = s.flatMap spread := by
  have hAscii := isAscii_of_isCamelCase h
  have hSpread : Text.IsAscii (s.flatMap spread) := by
    intro b hb
    obtain ⟨a, ha, hb⟩ := List.mem_flatMap.mp hb
    rw [spread] at hb
    split at hb
    · rcases List.mem_cons.mp hb with rfl | hb
      · decide
      · rw [List.mem_singleton.mp hb]
        exact Text.lowerByte_ascii (hAscii a ha)
    · rw [List.mem_singleton.mp hb]
      exact hAscii a ha
  rw [snakeCase, Text.chars_of_isAscii hAscii]
  cases s with
  | nil => cases h
  | cons b r =>
    have hb := isAlphanumeric_of_isCamelCase h b List.mem_cons_self
    obtain ⟨hLower, hRest⟩ := Bool.and_eq_true_iff.mp h
    have hUpper : Text.isUpper b = false :=
      Text.forall_ascii (P := fun b => Text.isLower b = true → Text.isUpper b = false)
        (by decide) (lt_of_isAlphanumeric hb) hLower
    have hChars : snakeChars none ((b :: r).map Text.byteChar) =
        ((b :: r).flatMap spread).map Text.byteChar := by
      rw [List.map_cons, snakeChars, Text.isUpperLetter_byteChar (lt_of_isAlphanumeric hb), hUpper,
        snakeChars_of_isCamelRest hb (hUpper.symm ▸ hRest)]
      simp [spread, hUpper]
    rw [hChars, Text.ofChars_map_byteChar hSpread]

theorem snakeCase_injOn_isCamelCase {m n : Text} (hm : isCamelCase m = true)
    (hn : isCamelCase n = true) (h : snakeCase m = snakeCase n) : m = n := by
  rw [snakeCase_of_isCamelCase hm, snakeCase_of_isCamelCase hn] at h
  calc
    m = gather (m.flatMap spread) :=
      (gather_flatMap_spread (isAlphanumeric_of_isCamelCase hm)).symm
    _ = gather (n.flatMap spread) := congrArg gather h
    _ = n := gather_flatMap_spread (isAlphanumeric_of_isCamelCase hn)

theorem pascalChars_of_forall_ne {cs : List Char} (h : ∀ c ∈ cs, c ≠ '_') :
    pascalChars false cs = cs := by
  induction cs with
  | nil => rfl
  | cons c r ih =>
    obtain ⟨hc, hr⟩ := List.forall_mem_cons.mp h
    rw [pascalChars, if_neg hc, if_neg (by decide), ih hr]

theorem byteChar_ne_underscore {b : UInt8} (h : isAlphanumeric b = true) :
    Text.byteChar b ≠ '_' :=
  Text.forall_ascii (P := fun b => isAlphanumeric b = true → Text.byteChar b ≠ '_')
    (by decide) (lt_of_isAlphanumeric h) h

theorem pascalCase_of_isCamelCase {b : UInt8} {r : Text} (h : isCamelCase (b :: r) = true) :
    pascalCase (b :: r) = (b - 32) :: r := by
  have hAscii := isAscii_of_isCamelCase h
  obtain ⟨hb, hr⟩ := List.forall_mem_cons.mp (isAlphanumeric_of_isCamelCase h)
  have hLower := (Bool.and_eq_true_iff.mp h).1
  have hCapital : b - 32 < 128 :=
    Text.forall_ascii (P := fun b => Text.isLower b = true → b - 32 < 128) (by decide)
      (lt_of_isAlphanumeric hb) hLower
  have hRest : ∀ c ∈ r.map Text.byteChar, c ≠ '_' := by
    intro c hc
    obtain ⟨a, ha, rfl⟩ := List.mem_map.mp hc
    exact byteChar_ne_underscore (hr a ha)
  have hChars : pascalChars true ((b :: r).map Text.byteChar) =
      (((b - 32) :: r).map Text.byteChar) := by
    rw [List.map_cons, pascalChars, if_neg (byteChar_ne_underscore hb), if_pos rfl,
      pascalChars_of_forall_ne hRest, Text.toUpperLetter_byteChar (lt_of_isAlphanumeric hb) hLower,
      List.map_cons]
  rw [pascalCase, Text.chars_of_isAscii hAscii, hChars, Text.ofChars_map_byteChar]
  exact List.forall_mem_cons.mpr ⟨hCapital, (List.forall_mem_cons.mp hAscii).2⟩

theorem pascalCase_injOn_isCamelCase {m n : Text} (hm : isCamelCase m = true)
    (hn : isCamelCase n = true) (h : pascalCase m = pascalCase n) : m = n := by
  cases m with
  | nil => cases hm
  | cons b r =>
    cases n with
    | nil => cases hn
    | cons c t =>
      rw [pascalCase_of_isCamelCase hm, pascalCase_of_isCamelCase hn] at h
      obtain ⟨hHead, hTail⟩ := List.cons.inj h
      have hSame : b = c := by
        rw [← UInt8.sub_add_cancel b 32, hHead, UInt8.sub_add_cancel]
      rw [hSame, hTail]

/-- The mark of a keyword is in no snake-case word, so identifiers tell apart what snake case does. -/
theorem ident_eq_iff {m n : Text} (hm : IsWord m) (hn : IsWord n) :
    ident m = ident n ↔ snakeCase m = snakeCase n := by
  have hMark : ∀ s t : Text, IsWord t → Text.ofString "r#" ++ s ≠ t := by
    rintro s t hWord rfl
    have hByte := hWord.2 35 (List.mem_cons_of_mem 114 List.mem_cons_self)
    revert hByte
    decide
  constructor
  · intro h
    simp only [ident] at h
    split at h <;> split at h
    · exact List.append_cancel_left h
    · exact absurd h (hMark _ _ (isWord_snakeCase hn))
    · exact absurd h.symm (hMark _ _ (isWord_snakeCase hm))
    · exact h
  · intro h
    rw [ident, ident, h]

/-- No capital is left where lowering a letter makes no capital of it. -/
theorem not_upper_of_mem_snakeChars {previous : Option Char} {cs : List Char}
    (hLower : ∀ c ∈ cs, Text.isUpperLetter (Text.toLowerLetter c) = false) {c : Char}
    (hc : c ∈ snakeChars previous cs) : Text.isUpperLetter c = false := by
  fun_induction snakeChars previous cs with
  | case1 => cases hc
  | case2 previous d r hUpper hBegins ih =>
    obtain ⟨hd, hr⟩ := List.forall_mem_cons.mp hLower
    rcases List.mem_cons.mp hc with rfl | hc
    · decide
    · rcases List.mem_cons.mp hc with rfl | hc
      · exact hd
      · exact ih hr hc
  | case3 previous d r hUpper hBegins ih =>
    obtain ⟨hd, hr⟩ := List.forall_mem_cons.mp hLower
    rcases List.mem_cons.mp hc with rfl | hc
    · exact hd
    · exact ih hr hc
  | case4 previous d r hUpper ih =>
    obtain ⟨_, hr⟩ := List.forall_mem_cons.mp hLower
    rcases List.mem_cons.mp hc with rfl | hc
    · exact Bool.eq_false_iff.mpr hUpper
    · exact ih hr hc

theorem snakeChars_of_not_upper (previous : Option Char) {cs : List Char}
    (h : ∀ c ∈ cs, Text.isUpperLetter c = false) : snakeChars previous cs = cs := by
  induction cs generalizing previous with
  | nil => rfl
  | cons c r ih =>
    obtain ⟨hc, hr⟩ := List.forall_mem_cons.mp h
    rw [snakeChars, hc, if_neg Bool.false_ne_true, ih (some c) hr]

/-- Apart from underscores the letters are lowered one by one, wherever words begin. -/
theorem filter_snakeChars (previous : Option Char) {cs : List Char}
    (hFixed : ∀ c ∈ cs, Text.isUpperLetter c = false → Text.toLowerLetter c = c) :
    (snakeChars previous cs).filter (· ≠ '_') =
      (cs.map Text.toLowerLetter).filter (· ≠ '_') := by
  fun_induction snakeChars previous cs with
  | case1 => rfl
  | case2 previous c r hUpper hBegins ih =>
    obtain ⟨_, hr⟩ := List.forall_mem_cons.mp hFixed
    rw [List.filter_cons_of_neg (by decide), List.map_cons, List.filter_cons, List.filter_cons,
      ih hr]
  | case3 previous c r hUpper hBegins ih =>
    obtain ⟨_, hr⟩ := List.forall_mem_cons.mp hFixed
    rw [List.map_cons, List.filter_cons, List.filter_cons, ih hr]
  | case4 previous c r hUpper ih =>
    obtain ⟨hc, hr⟩ := List.forall_mem_cons.mp hFixed
    rw [List.map_cons, hc (Bool.eq_false_iff.mpr hUpper), List.filter_cons, List.filter_cons, ih hr]

theorem chars_snakeCase (name : Text) :
    Text.chars (snakeCase name) = snakeChars none (Text.chars name) := Text.chars_ofChars _

/-- Snake case has no capitals, is its own snake case, has the discriminator of the name, and is the
lowered name apart from underscores. -/
theorem snakeCase_normal {name : Text} (h : IsWord name) :
    (∀ c ∈ Text.chars (snakeCase name), Text.isUpperLetter c = false) ∧
      snakeCase (snakeCase name) = snakeCase name ∧
      Interface.instructionDiscriminator (snakeCase name) =
        Interface.instructionDiscriminator name ∧
      (snakeCase name).filter (· ≠ 95) = (Text.toLower name).filter (· ≠ 95) := by
  have hChars : ∀ c ∈ Text.chars name, ∃ b < 128, c = Text.byteChar b := by
    intro c hc
    rw [Text.chars_of_isAscii (isAscii_of_isWord h)] at hc
    obtain ⟨b, hb, rfl⟩ := List.mem_map.mp hc
    exact ⟨b, isAscii_of_isWord h b hb, rfl⟩
  have hNone : ∀ c ∈ Text.chars (snakeCase name), Text.isUpperLetter c = false := by
    intro c hc
    rw [chars_snakeCase] at hc
    refine not_upper_of_mem_snakeChars (fun d hd => ?_) hc
    obtain ⟨b, hb, rfl⟩ := hChars d hd
    exact Text.isUpperLetter_toLowerLetter_byteChar hb
  have hAgain : snakeCase (snakeCase name) = snakeCase name := by
    rw [snakeCase, snakeChars_of_not_upper none hNone, chars_snakeCase, snakeCase]
  refine ⟨hNone, hAgain, ?_, ?_⟩
  · rw [Interface.instructionDiscriminator, hAgain, Interface.instructionDiscriminator]
  · rw [snakeCase, Text.toLower, Text.filter_ofChars, Text.filter_ofChars, filter_snakeChars]
    intro c hc hUpper
    obtain ⟨b, hb, rfl⟩ := hChars c hc
    exact Text.toLowerLetter_of_not_upper hb hUpper

/-- A name with an acronym before a word, a digit before a capital and underscores of its own. -/
def acronymName : Text := "getATAOf_V2Mint__X"

theorem acronymName_normal :
    IsWord acronymName ∧ snakeCase acronymName = "get_ata_of_v2_mint__x" ∧
      (∀ c ∈ Text.chars (snakeCase acronymName), Text.isUpperLetter c = false) ∧
      snakeCase (snakeCase acronymName) = snakeCase acronymName ∧
      Interface.instructionDiscriminator (snakeCase acronymName) =
        Interface.instructionDiscriminator acronymName ∧
      (snakeCase acronymName).filter (· ≠ 95) = (Text.toLower acronymName).filter (· ≠ 95) := by
  have hWord : IsWord acronymName := isWord_of_all rfl (by decide)
  exact ⟨hWord, by decide +kernel, snakeCase_normal hWord⟩

end Rust

end AnchorScript
