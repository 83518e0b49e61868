import AnchorScript.Proofs.Program.ValueTypes
import AnchorScript.Proofs.Token.Words
import Mathlib.Data.Nat.Digits.Defs
import Mathlib.Tactic.Ring

/-!
# Numbers read back

The integer literals of the generated language without a suffix: decimal digits and underscores,
a digit first, or `0x`, `0b` or `0o` and then digits of the base and underscores, at least one of
them a digit. A number of a source is written as such a literal, with the same value, unless
underscores stand between its zero and the letter of its base: they are passed over here, and there
they end the prefix.
-/

namespace AnchorScript

namespace Rust

/-- These digits of the base, the most significant first, with underscores anywhere. -/
inductive Digits (base : Nat) : Text → List Nat → Prop
  | nil : Digits base [] []
  | underscore {s : Text} {ds : List Nat} (h : Digits base s ds) : Digits base (95 :: s) ds
  | digit {b : UInt8} {d : Nat} {s : Text} {ds : List Nat}
      (hDigit : IntLiteral.digit? base b = some d) (h : Digits base s ds) :
      Digits base (b :: s) (d :: ds)

/-- The letters that stand for a base. -/
def baseLetters : List (UInt8 × Nat) := [(120, 16), (98, 2), (111, 8)]

/-- An integer literal without a suffix, and its value. -/
inductive IntegerLiteral : Text → Nat → Prop
  | decimal {b : UInt8} {d : Nat} {s : Text} {ds : List Nat}
      (hFirst : IntLiteral.digit? 10 b = some d) (h : Digits 10 s ds) :
      IntegerLiteral (b :: s) (Nat.ofDigits 10 (d :: ds).reverse)
  | based {letter : UInt8} {base : Nat} {s : Text} {ds : List Nat}
      (hLetter : (letter, base) ∈ baseLetters) (h : Digits base s ds) (hSome : ds ≠ []) :
      IntegerLiteral (48 :: letter :: s) (Nat.ofDigits base ds.reverse)

end Rust

namespace IntLiteral

open Rust

/-- Underscores stand between the leading zero and the letter of the base. -/
def MarkApart (lit : Text) : Prop :=
  ∃ k letter s, lit = 48 :: (List.replicate (k + 1) 95 ++ letter :: s) ∧
    Text.lowerByte letter ∈ baseLetters.map Prod.fst

variable {base : Nat}

theorem digit?_lowerByte (base : Nat) (b : UInt8) :
    digit? base (Text.lowerByte b) = digit? base b := by
  rcases Text.lowerByte_eq_or_ascii b with hSame | hAscii
  · rw [hSame]
  · rw [digit?, digit?, Text.forall_ascii
      (P := fun b => Text.hexValue? (Text.lowerByte b) = Text.hexValue? b) (by decide) hAscii]

theorem lowerByte_eq_underscore_iff {b : UInt8} : Text.lowerByte b = 95 ↔ b = 95 := by
  rcases Text.lowerByte_eq_or_ascii b with hSame | hAscii
  · rw [hSame]
  · exact Text.forall_ascii (P := fun b => Text.lowerByte b = 95 ↔ b = 95) (by decide) hAscii

theorem bare_cons_of_ne {b : UInt8} (h : b ≠ 95) (s : Text) :
    bare (b :: s) = Text.lowerByte b :: bare s := by
  have hLower : Text.lowerByte b ≠ 95 := mt lowerByte_eq_underscore_iff.mp h
  simp [bare, hLower]

theorem bare_underscore_cons (s : Text) : bare (95 :: s) = bare s := rfl

/-- Reading the digits gives the number they stand for, behind what is read already. -/
theorem readDigits_bare_eq_some_iff {s : Text} {n m : Nat} :
    readDigits base n (bare s) = some m ↔
      ∃ ds, Digits base s ds ∧ m = n * base ^ ds.length + Nat.ofDigits base ds.reverse := by
  induction s generalizing n with
  | nil =>
    constructor
    · rintro ⟨⟩
      exact ⟨[], .nil, by simp⟩
    · rintro ⟨ds, ⟨⟩, rfl⟩
      simp [bare, readDigits]
  | cons b s ih =>
    by_cases hb : b = 95
    · subst hb
      rw [bare_underscore_cons, ih]
      constructor
      · rintro ⟨ds, hDigits, rfl⟩
        exact ⟨ds, .underscore hDigits, rfl⟩
      · rintro ⟨ds, hDigits, rfl⟩
        cases hDigits with
        | underscore hDigits => exact ⟨ds, hDigits, rfl⟩
        | digit hDigit => cases hDigit
    · rw [bare_cons_of_ne hb, readDigits_cons, digit?_lowerByte]
      constructor
      · intro h
        split at h
        · rename_i d hDigit
          obtain ⟨ds, hDigits, rfl⟩ := ih.mp h
          refine ⟨d :: ds, .digit hDigit hDigits, ?_⟩
          rw [Nat.ofDigits_reverse_cons, List.length_cons]
          ring
        · cases h
      · rintro ⟨ds, hDigits, rfl⟩
        cases hDigits with
        | underscore => exact absurd rfl hb
        | @digit _ d _ ds hDigit hDigits =>
          rw [hDigit]
          refine ih.mpr ⟨ds, hDigits, ?_⟩
          rw [Nat.ofDigits_reverse_cons, List.length_cons]
          ring

theorem value?_eq_some_iff {lit : Text} {n : Nat} :
    value? lit = some n ↔ (split (bare lit)).2 ≠ [] ∧
      readDigits (split (bare lit)).1 0 (split (bare lit)).2 = some n := by
  simp [value?]

theorem split_subset (s : Text) : (split s).2 ⊆ s := by
  rcases split_cases s with ⟨letter, base, r, rfl, _, hSplit⟩ | hSplit
  · rw [hSplit]
    exact List.subset_cons_of_subset _ (List.subset_cons_self _ _)
  · rw [hSplit]
    exact List.Subset.refl s

theorem digit?_of_readDigits {ds : Text} {n m : Nat} (h : readDigits base n ds = some m) :
    ∀ b ∈ ds, (digit? base b).isSome = true := by
  induction ds generalizing n with
  | nil => exact fun b hb => absurd hb List.not_mem_nil
  | cons b bs ih =>
    rw [readDigits_cons] at h
    split at h
    · rename_i d hDigit
      exact List.forall_mem_cons.mpr ⟨by rw [hDigit]; rfl, ih h⟩
    · cases h

theorem lowerByte_mem_digitSet (hBase : base ∈ [2, 8, 10, 16]) {b : UInt8}
    (h : (digit? base (Text.lowerByte b)).isSome = true) : Text.lowerByte b ∈ digitSet base := by
  have hAll : ∀ base ∈ [2, 8, 10, 16], ∀ n < 256,
      (digit? base (Text.lowerByte (UInt8.ofNat n))).isSome = true →
        Text.lowerByte (UInt8.ofNat n) ∈ digitSet base := by
    decide +kernel
  have hb := hAll base hBase b.toNat b.toNat_lt
  rw [UInt8.ofNat_toNat] at hb
  exact hb h

theorem isValid_iff_exists_value? {lit : Text} :
    isValid lit = true ↔ ∃ n, value? lit = some n := by
  refine ⟨value?_of_isValid, ?_⟩
  rintro ⟨n, hn⟩
  obtain ⟨hSome, hRead⟩ := value?_eq_some_iff.mp hn
  simp only [isValid, Bool.and_eq_true, Bool.not_eq_true', List.isEmpty_eq_false_iff,
    List.all_eq_true, List.contains_iff_mem]
  refine ⟨hSome, fun b hb => ?_⟩
  obtain ⟨c, _, rfl⟩ :=
    List.mem_map.mp (List.mem_filter.mp (split_subset _ hb)).1
  exact lowerByte_mem_digitSet (split_base _) (digit?_of_readDigits hRead _ hb)

end IntLiteral

namespace Rust

open IntLiteral

variable {base : Nat} {s : Text} {ds : List Nat}

theorem Digits.map_lowerByte (h : Digits base s ds) : Digits base (s.map Text.lowerByte) ds := by
  induction h with
  | nil => exact .nil
  | underscore _ ih => exact .underscore ih
  | @digit b d s ds hDigit _ ih => exact .digit ((digit?_lowerByte base b).trans hDigit) ih

theorem Digits.length_bare (h : Digits base s ds) : (IntLiteral.bare s).length = ds.length := by
  induction h with
  | nil => rfl
  | underscore _ ih => exact ih
  | @digit b d s ds hDigit _ ih =>
    have hb : b ≠ 95 := by
      rintro rfl
      cases hDigit
    rw [bare_cons_of_ne hb, List.length_cons, List.length_cons, ih]

theorem Digits.digit?_of_mem (h : Digits base s ds) {b : UInt8} (hb : b ∈ s) (hMark : b ≠ 95) :
    ∃ d, digit? base b = some d := by
  induction h with
  | nil => cases hb
  | underscore _ ih => exact ih ((List.mem_cons.mp hb).resolve_left hMark)
  | digit hDigit _ ih =>
    rcases List.mem_cons.mp hb with rfl | hb
    · exact ⟨_, hDigit⟩
    · exact ih hb

/-- The letter of a base is no underscore, it is in lower case, and it is no decimal digit. -/
theorem baseLetters_spec {letter : UInt8} (h : letter ∈ baseLetters.map Prod.fst) :
    letter ≠ 95 ∧ Text.lowerByte letter = letter ∧ digit? 10 letter = none := by
  revert letter
  decide +kernel

theorem split_of_mem_baseLetters {letter : UInt8} (h : (letter, base) ∈ baseLetters) (r : Text) :
    split (48 :: letter :: r) = (base, r) := by
  simp only [baseLetters, List.mem_cons, Prod.mk.injEq, List.not_mem_nil, or_false] at h
  rcases h with ⟨rfl, rfl⟩ | ⟨rfl, rfl⟩ | ⟨rfl, rfl⟩ <;> rfl

/-- A literal is read back as the number it is. -/
theorem IntegerLiteral.value? {n : Nat} (h : IntegerLiteral s n) :
    IntLiteral.value? s = some n := by
  cases h with
  | @decimal b d s ds hFirst hDigits =>
    have hRead : readDigits 10 0 (IntLiteral.bare (b :: s)) = some (Nat.ofDigits 10 (d :: ds).reverse) :=
      readDigits_bare_eq_some_iff.mpr ⟨d :: ds, .digit hFirst hDigits, by simp⟩
    have hLength := (Digits.digit hFirst hDigits).length_bare
    rcases split_cases (IntLiteral.bare (b :: s)) with ⟨letter, _, _, hBare, hLetter, _⟩ | hSplit
    · obtain ⟨_, _, hDigit⟩ := baseLetters_spec (List.mem_map_of_mem hLetter)
      have hAll := digit?_of_readDigits hRead letter (by rw [hBare]; simp)
      rw [hDigit] at hAll
      cases hAll
    · rw [value?_eq_some_iff, hSplit]
      exact ⟨List.ne_nil_of_length_eq_add_one hLength, hRead⟩
  | @based letter base s ds hLetter hDigits hSome =>
    obtain ⟨hMark, hLower, _⟩ := baseLetters_spec (List.mem_map_of_mem hLetter)
    have hBare : IntLiteral.bare (48 :: letter :: s) = 48 :: letter :: IntLiteral.bare s := by
      rw [bare_cons_of_ne (by decide), bare_cons_of_ne hMark, hLower]
      rfl
    rw [value?_eq_some_iff, hBare, split_of_mem_baseLetters hLetter]
    refine ⟨?_, readDigits_bare_eq_some_iff.mpr ⟨ds, hDigits, by simp⟩⟩
    rw [← List.length_pos_iff, hDigits.length_bare]
    exact List.length_pos_iff.mpr hSome

theorem exists_of_bare_eq_cons {s : Text} {b : UInt8} {r : Text} (h : IntLiteral.bare s = b :: r) :
    ∃ k c rest, s = List.replicate k 95 ++ c :: rest ∧ Text.lowerByte c = b ∧
      IntLiteral.bare rest = r := by
  induction s with
  | nil => cases h
  | cons c s ih =>
    by_cases hc : c = 95
    · subst hc
      obtain ⟨k, c, rest, rfl, hb, hr⟩ := ih h
      exact ⟨k + 1, c, rest, rfl, hb, hr⟩
    · rw [bare_cons_of_ne hc] at h
      cases h
      exact ⟨0, c, s, rfl, rfl, rfl⟩

/-- How a number that begins with a digit is read: as decimal digits, or as digits of the base whose
letter follows its zero and any underscores. -/
theorem value?_cases {c : UInt8} {r : Text} {n : Nat} (hc : Text.isDigit c = true)
    (h : IntLiteral.value? (c :: r) = some n) :
    (∃ d ds, digit? 10 c = some d ∧ Digits 10 r ds ∧ n = Nat.ofDigits 10 (d :: ds).reverse) ∨
      ∃ k letter s base ds, c = 48 ∧ r = List.replicate k 95 ++ letter :: s ∧
        (Text.lowerByte letter, base) ∈ baseLetters ∧ Digits base s ds ∧ ds ≠ [] ∧
        n = Nat.ofDigits base ds.reverse := by
  have hDigit : c ≠ 95 ∧ Text.lowerByte c = c := by
    simp only [Text.isDigit, Bool.and_eq_true, decide_eq_true_eq] at hc
    refine ⟨?_, ?_⟩
    · rintro rfl
      exact absurd hc (by decide)
    · refine if_neg ?_
      simp only [Text.isUpper, Bool.and_eq_true, decide_eq_true_eq]
      exact fun hUpper => absurd (UInt8.le_trans hUpper.1 hc.2) (by decide)
  obtain ⟨hSome, hRead⟩ := value?_eq_some_iff.mp h
  rcases split_cases (IntLiteral.bare (c :: r)) with
    ⟨letter, base, rest, hBare, hLetter, hSplit⟩ | hSplit
  · right
    rw [hSplit] at hSome hRead
    rw [bare_cons_of_ne hDigit.1, hDigit.2] at hBare
    obtain ⟨rfl, hRest⟩ := List.cons.inj hBare
    obtain ⟨k, letter, s, rfl, rfl, rfl⟩ := exists_of_bare_eq_cons hRest
    obtain ⟨ds, hDigits, hn⟩ := readDigits_bare_eq_some_iff.mp hRead
    refine ⟨k, letter, s, _, ds, rfl, rfl, hLetter, hDigits, ?_, by simpa using hn⟩
    rw [← List.length_pos_iff, ← hDigits.length_bare]
    exact List.length_pos_iff.mpr hSome
  · left
    rw [hSplit] at hRead
    obtain ⟨ds, hDigits, hn⟩ := readDigits_bare_eq_some_iff.mp hRead
    cases hDigits with
    | underscore => exact absurd rfl hDigit.1
    | digit hFirst hDigits => exact ⟨_, _, hFirst, hDigits, by simpa using hn⟩

theorem not_integerLiteral_of_markApart {lit : Text} (h : MarkApart lit) (m : Nat) :
    ¬IntegerLiteral (lit.map Text.lowerByte) m := by
  obtain ⟨k, letter, s, rfl, hLetter⟩ := h
  obtain ⟨hMark, _, hDigit⟩ := baseLetters_spec hLetter
  intro hLit
  rw [List.map_cons, List.replicate_succ, List.cons_append, List.map_cons, List.map_append,
    List.map_cons] at hLit
  cases hLit with
  | decimal _ hDigits =>
    obtain ⟨d, hd⟩ := hDigits.digit?_of_mem (b := Text.lowerByte letter) (by simp) hMark
    rw [hDigit] at hd
    cases hd
  | based hBase => exact (baseLetters_spec (List.mem_map_of_mem hBase)).1 rfl

/-- What the written literal of a valid number is: this number, or no literal if underscores stand
between its zero and the letter of its base. -/
theorem integerLiteral_rust_iff {lit : Text} (hWord : BeginsWord Text.isDigit lit) {n : Nat}
    (h : IntLiteral.value? lit = some n) (m : Nat) :
    IntegerLiteral (rust lit) m ↔ m = n ∧ ¬MarkApart lit := by
  have hValid := isValid_iff_exists_value?.mpr ⟨n, h⟩
  have hRust : rust lit = lit.map Text.lowerByte :=
    Text.toLower_of_isAscii (isAscii_of_isValid hValid)
  constructor
  · intro hLit
    have hValue := hLit.value?
    rw [value?_rust hValid, h] at hValue
    refine ⟨(Option.some.inj hValue).symm, fun hApart => ?_⟩
    rw [hRust] at hLit
    exact not_integerLiteral_of_markApart hApart m hLit
  · rintro ⟨rfl, hApart⟩
    rw [hRust]
    obtain ⟨c, r, rfl, hc, _⟩ := hWord
    rcases value?_cases hc h with ⟨d, ds, hFirst, hDigits, rfl⟩ |
      ⟨k, letter, s, base, ds, rfl, rfl, hLetter, hDigits, hSome, rfl⟩
    · exact .decimal ((digit?_lowerByte 10 c).trans hFirst) hDigits.map_lowerByte
    · cases k with
      | zero => exact .based hLetter hDigits.map_lowerByte hSome
      | succ k => exact absurd ⟨k, letter, s, rfl, List.mem_map_of_mem hLetter⟩ hApart

end Rust

/-- A number of a source is accepted exactly if it has a value, and it is written as a literal with
this value and no other, unless underscores stand between its zero and the letter of its base. -/
theorem number_literals_keep_value {src : Text} {t : Token} (ht : t ∈ tokens src)
    (hNumber : t.kind = .number) :
    (IntLiteral.isValid t.literal = true ↔ ∃ n, IntLiteral.value? t.literal = some n) ∧
      ∀ n, IntLiteral.value? t.literal = some n →
        ∀ m, Rust.IntegerLiteral (IntLiteral.rust t.literal) m ↔
          m = n ∧ ¬IntLiteral.MarkApart t.literal := by
  have hSpelled := spelled_tokens src t ht
  rw [Token.Spelled, hNumber] at hSpelled
  exact ⟨IntLiteral.isValid_iff_exists_value?, fun n hn m =>
    Rust.integerLiteral_rust_iff hSpelled hn m⟩

/-- Two numbers, the second with its letter set apart from its zero. -/
def spacedNumbers : Text := "0X1_f 0_x1F"

theorem spacedNumbers_keep_value : ∃ t u, t ∈ tokens spacedNumbers ∧ u ∈ tokens spacedNumbers ∧
    t.kind = .number ∧ IntLiteral.value? t.literal = some 31 ∧
    Rust.IntegerLiteral (IntLiteral.rust t.literal) 31 ∧
    u.kind = .number ∧ IntLiteral.value? u.literal = some 31 ∧
    ∀ m, ¬Rust.IntegerLiteral (IntLiteral.rust u.literal) m := by
  obtain ⟨t, ht, hKind, hLiteral⟩ :
      ∃ t ∈ tokens spacedNumbers, t.kind = .number ∧ t.literal = "0X1_f" := by
    decide +kernel
  obtain ⟨u, hu, hKind', hLiteral'⟩ :
      ∃ u ∈ tokens spacedNumbers, u.kind = .number ∧ u.literal = "0_x1F" := by
    decide +kernel
  have hValue : IntLiteral.value? t.literal = some 31 := by
    rw [hLiteral]
    decide
  have hValue' : IntLiteral.value? u.literal = some 31 := by
    rw [hLiteral']
    decide
  have hTogether : ¬IntLiteral.MarkApart t.literal := by
    rw [hLiteral]
    rintro ⟨k, letter, s, hSame, _⟩
    cases hSame
  have hApart : IntLiteral.MarkApart u.literal := by
    rw [hLiteral']
    exact ⟨0, 120, "1F", by decide, by decide⟩
  refine ⟨t, u, ht, hu, hKind, hValue, ?_, hKind', hValue', fun m hm => ?_⟩
  · exact ((number_literals_keep_value ht hKind).2 31 hValue 31).mpr ⟨rfl, hTogether⟩
  · exact (((number_literals_keep_value hu hKind').2 31 hValue' m).mp hm).2 hApart

end AnchorScript
