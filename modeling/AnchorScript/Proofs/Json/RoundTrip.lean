import AnchorScript.Json
import AnchorScript.Proofs.Handler.FreshName
import AnchorScript.Proofs.Rust.Literals
import AnchorScript.Proofs.Text.Characters

/-!
# JSON documents are read as they were written

Reading the text of a document gives the document back, whatever its strings hold. Only stray bytes
are lost: they are written as the replacement character, so the strings come back mended.
-/

namespace AnchorScript.Json

/-- Inside a string the written bytes stand for these, whatever follows. -/
def Denotes (written bytes : Text) : Prop :=
  ∀ rest, stringBody (written ++ rest) =
    (stringBody rest).map fun (t, r) => (bytes ++ t, r)

theorem denotes_nil : Denotes [] [] := by
  intro rest
  cases h : stringBody rest <;> simp [h]

theorem Denotes.append {w₁ w₂ b₁ b₂ : Text} (h₁ : Denotes w₁ b₁) (h₂ : Denotes w₂ b₂) :
    Denotes (w₁ ++ w₂) (b₁ ++ b₂) := by
  intro rest
  rw [List.append_assoc, h₁, h₂, Option.map_map]
  simp [Function.comp_def]

theorem denotes_plain {b : UInt8} (hLow : ¬b < 32) (hQuote : b ≠ 34) (hSlash : b ≠ 92) :
    Denotes [b] [b] := by
  intro rest
  rw [List.singleton_append, stringBody]
  · rw [if_neg (by simp [hLow, hSlash]), Option.map_eq_bind]
    rfl
  · exact hQuote
  · exact fun _ _ _ _ _ h => absurd h hSlash
  · exact fun _ _ h => absurd h hSlash

theorem denotes_simple {b e : UInt8} (h : simpleEscape? b = some e) : Denotes [92, b] [e] := by
  intro rest
  have hUnit : b ≠ 117 := by
    rintro rfl
    cases h
  rw [List.cons_append, List.singleton_append, stringBody, h, Option.map_eq_bind]
  · rfl
  · exact fun _ _ _ _ _ hb => absurd hb hUnit

theorem hex4?_hexDigits {n : Nat} (h : n < 65536) :
    ∃ a b c d, Text.Quoted.hexDigits 4 n = [a, b, c, d] ∧ hex4? a b c d = some n := by
  refine ⟨_, _, _, _, rfl, ?_⟩
  simp only [hex4?, Rust.hexValue?_hexDigit (Nat.mod_lt _ (by decide : 0 < 16)), Option.bind_eq_bind,
    Option.bind_some, pure, Option.some.injEq]
  omega

theorem denotes_unit {n : Nat} (h : n < 0xD800 ∨ 0xE000 ≤ n ∧ n < 65536) :
    Denotes ("\\u" ++ Text.Quoted.hexDigits 4 n) (String.utf8EncodeChar (Char.ofNat n)) := by
  intro rest
  obtain ⟨a, b, c, d, hDigits, hValue⟩ := hex4?_hexDigits (n := n) (by omega)
  have hText : Text.ofString "\\u" ++ [a, b, c, d] ++ rest = 92 :: 117 :: a :: b :: c :: d :: rest :=
    rfl
  have hUnit : ofUnit n = Char.ofNat n := by
    rw [ofUnit, if_neg]
    simp
    omega
  have hAlone : ∀ low, ofSurrogates? n low = none := by
    intro low
    rw [ofSurrogates?, if_neg]
    simp
    omega
  rw [hDigits, hText, stringBody, hValue, Option.bind_eq_bind, Option.bind_some, ← hUnit]
  dsimp only
  split
  · -- a unit that is no surrogate takes no second unit with it
    have hNone : ∀ o : Option Nat, o.bind (ofSurrogates? n) = none := by
      intro o
      cases o <;> simp [hAlone]
    rw [hNone]
  · rfl

theorem denotes_utf8EncodeChar {c : Char} (hLow : ¬c.toNat < 0x20) (hQuote : c ≠ '"')
    (hSlash : c ≠ '\\') : Denotes (String.utf8EncodeChar c) (String.utf8EncodeChar c) := by
  have hBytes : ∀ b ∈ String.utf8EncodeChar c, ¬b < 32 ∧ b ≠ 34 ∧ b ≠ 92 := by
    intro b hb
    rcases Nat.lt_or_ge c.toNat 128 with hAscii | hBeyond
    · have hSame : Text.byteChar c.toNat.toUInt8 = c := by
        rw [Text.byteChar, Nat.toUInt8, UInt8.toNat_ofNat', Nat.mod_eq_of_lt (by omega),
          Char.ofNat_toNat]
      have hByte : c.toNat.toUInt8 < 128 := by
        rw [UInt8.lt_iff_toNat_lt, Nat.toUInt8, UInt8.toNat_ofNat', Nat.mod_eq_of_lt (by omega)]
        exact hAscii
      rw [← hSame, Text.utf8EncodeChar_byteChar hByte, List.mem_singleton] at hb
      subst hb
      refine ⟨?_, ?_, ?_⟩
      · rw [UInt8.lt_iff_toNat_lt, Nat.toUInt8, UInt8.toNat_ofNat', Nat.mod_eq_of_lt (by omega)]
        exact hLow
      · intro hEq
        rw [hEq] at hSame
        exact hQuote hSame.symm
      · intro hEq
        rw [hEq] at hSame
        exact hSlash hSame.symm
    · have hHigh := Text.le_of_mem_utf8EncodeChar hBeyond hb
      rw [UInt8.le_iff_toNat_le] at hHigh
      refine ⟨?_, ?_, ?_⟩
      · rw [UInt8.lt_iff_toNat_lt]
        simp at hHigh ⊢
        omega
      · rintro rfl
        simp at hHigh
      · rintro rfl
        simp at hHigh
  generalize String.utf8EncodeChar c = bytes at hBytes
  induction bytes with
  | nil => exact denotes_nil
  | cons b bytes ih =>
    obtain ⟨⟨hb₁, hb₂, hb₃⟩, hRest⟩ := List.forall_mem_cons.mp hBytes
    exact (denotes_plain hb₁ hb₂ hb₃).append (ih hRest)

theorem denotes_escapeChar (c : Char) : Denotes (escapeChar c) (String.utf8EncodeChar c) := by
  unfold escapeChar
  split
  · rename_i h
    exact h ▸ denotes_simple rfl
  rename_i hQuote
  split
  · rename_i h
    exact h ▸ denotes_simple rfl
  rename_i hSlash
  split
  · rename_i h
    exact h ▸ denotes_simple rfl
  split
  · rename_i h
    exact h ▸ denotes_simple rfl
  split
  · rename_i h
    exact h ▸ denotes_simple rfl
  split
  · rename_i h
    exact h ▸ denotes_simple rfl
  split
  · rename_i h
    exact h ▸ denotes_simple rfl
  split
  · rename_i h
    have hSmall : c.toNat < 0xD800 := by
      simp only [Bool.or_eq_true, decide_eq_true_eq] at h
      rcases h with ((((h | rfl) | rfl) | rfl) | h) | h
      · omega
      · decide
      · decide
      · decide
      · omega
      · omega
    have hUnit := denotes_unit (n := c.toNat) (.inl hSmall)
    rwa [Char.ofNat_toNat] at hUnit
  · rename_i h
    simp only [Bool.or_eq_true, decide_eq_true_eq, not_or] at h
    exact denotes_utf8EncodeChar h.1.1.1.1.1 hQuote hSlash

theorem denotes_escapePiece (p : Text.Piece) :
    Denotes (escapePiece p) (String.utf8EncodeChar p.toChar) := by
  cases p with
  | char c => exact denotes_escapeChar c
  | stray b => exact denotes_unit (n := 0xFFFD) (by decide)

theorem denotes_pieces (ps : List Text.Piece) :
    Denotes (ps.flatMap escapePiece) (Text.ofChars (ps.map Text.Piece.toChar)) := by
  induction ps with
  | nil => exact denotes_nil
  | cons p ps ih => exact (denotes_escapePiece p).append ih

/-- A string is read to its closing quote, whatever follows. -/
theorem readString_quoted (s rest : Text) :
    ∃ body, quoted s ++ rest = 34 :: body ∧ readString body = some (Text.mended s, rest) := by
  refine ⟨(Text.pieces s).flatMap escapePiece ++ 34 :: rest, ?_, ?_⟩
  · have hQuote : Text.ofString "\"" = [34] := by decide
    simp [quoted, hQuote]
  · have hBody := denotes_pieces (Text.pieces s) (34 :: rest)
    rw [readString, hBody, stringBody_quote]
    simp only [Option.map_some, List.append_nil]
    exact congrArg (fun t => some (t, rest)) (Text.mended_mended s)

/-- A number ends here: a comma or a line break follows, or nothing. -/
def Ends (rest : Text) : Prop := ∀ b ∈ rest.head?, b = 44 ∨ b = 10

theorem isDigit_digit {n : Nat} (h : n < 10) : Text.isDigit (48 + n.toUInt8) = true := by
  have hAll : ∀ n : Nat, n < 10 → Text.isDigit (48 + n.toUInt8) = true := by decide
  exact hAll n h

theorem isDigit_ofNat (n : Nat) : ∀ b ∈ Text.ofNat n, Text.isDigit b = true := by
  fun_induction Text.ofNat n with
  | case1 n h =>
    intro b hb
    rw [List.mem_singleton.mp hb]
    exact isDigit_digit h
  | case2 n h ih =>
    intro b hb
    rcases List.mem_append.mp hb with hb | hb
    · exact ih b hb
    · rw [List.mem_singleton.mp hb]
      exact isDigit_digit (Nat.mod_lt n (by decide))

/-- Only zero begins with a zero. -/
theorem head?_ofNat {n : Nat} (h : n ≠ 0) : (Text.ofNat n).head? ≠ some 48 := by
  fun_induction Text.ofNat n with
  | case1 n hSmall =>
    have hAll : ∀ n : Nat, n < 10 → n ≠ 0 → [(48 + n.toUInt8 : UInt8)].head? ≠ some 48 := by decide
    exact hAll n hSmall h
  | case2 n hLarge ih =>
    have hTens := ih (by omega)
    rwa [List.head?_append_of_ne_nil _ (Text.ofNat_ne_nil _)]

theorem readDigits_ofNat (n : Nat) {rest : Text} (h : Ends rest) :
    readDigits (Text.ofNat n ++ rest) = some (Text.ofNat n, rest) := by
  have hRest : rest.takeWhile Text.isDigit = [] ∧ rest.dropWhile Text.isDigit = rest := by
    cases rest with
    | nil => exact ⟨rfl, rfl⟩
    | cons b r =>
      rcases h b rfl with rfl | rfl
      · exact ⟨rfl, rfl⟩
      · exact ⟨rfl, rfl⟩
  rw [readDigits, List.takeWhile_append_of_pos (isDigit_ofNat n),
    List.dropWhile_append_of_pos (isDigit_ofNat n), hRest.1, hRest.2, List.append_nil, if_neg]
  simp [Text.ofNat_ne_nil]

theorem readWhole_ofNat (n : Nat) {rest : Text} (h : Ends rest) :
    readWhole (Text.ofNat n ++ rest) = some (Text.ofNat n, rest) := by
  rcases eq_or_ne n 0 with rfl | hn
  · have hZero : Text.ofNat 0 = [48] := by decide +kernel
    rw [hZero]
    rfl
  · rw [readWhole]
    · exact readDigits_ofNat n h
    · intro r hr
      have hHead := head?_ofNat hn
      rw [← List.head?_append_of_ne_nil _ (Text.ofNat_ne_nil n), hr] at hHead
      exact hHead rfl

theorem readFraction_of_ends {rest : Text} (h : Ends rest) : readFraction rest = some ([], rest) := by
  cases rest with
  | nil => rfl
  | cons b r =>
    rcases h b rfl with rfl | rfl
    · rfl
    · rfl

theorem readExponent_of_ends {rest : Text} (h : Ends rest) : readExponent rest = some ([], rest) := by
  cases rest with
  | nil => rfl
  | cons b r =>
    rcases h b rfl with rfl | rfl
    · rfl
    · rfl

theorem readNumber_ofInt (n : Int) {rest : Text} (h : Ends rest) :
    readNumber (Text.ofInt n ++ rest) = some (.number n, rest) := by
  cases n with
  | ofNat n =>
    have hSign : ¬(Text.ofNat n ++ rest).head? = some 45 := by
      obtain ⟨b, bs, hDigits⟩ := List.exists_cons_of_ne_nil (Text.ofNat_ne_nil n)
      have hDigit := isDigit_ofNat n b (hDigits ▸ List.mem_cons_self)
      rw [hDigits]
      simp only [List.cons_append, List.head?_cons, Option.some.injEq]
      rintro rfl
      cases hDigit
    simp only [Text.ofInt, readNumber, hSign, if_false, readWhole_ofNat n h, readFraction_of_ends h,
      readExponent_of_ends h, Option.bind_eq_bind, Option.bind_some, List.isEmpty_nil, Bool.and_self,
      if_true, Text.natValue_ofNat]
    rfl
  | negSucc n =>
    have hMinus : Text.byte '-' = 45 := rfl
    simp only [Text.ofInt, hMinus, readNumber, List.cons_append, List.head?_cons, if_true,
      List.drop_one, List.tail_cons, readWhole_ofNat (n + 1) h, readFraction_of_ends h,
      readExponent_of_ends h, Option.bind_eq_bind, Option.bind_some, List.isEmpty_nil, Bool.and_self,
      Text.natValue_ofNat]
    rfl

mutual
/-- No number is written with a fraction or an exponent. -/
def isPlain : Json → Bool
  | .decimal _ => false
  | .array es => isPlainElems es
  | .object ms => isPlainMembers ms
  | _ => true

def isPlainElems : List Json → Bool
  | [] => true
  | e :: es => isPlain e && isPlainElems es

def isPlainMembers : List (Text × Json) → Bool
  | [] => true
  | (_, v) :: ms => isPlain v && isPlainMembers ms
end

mutual
/-- The document with all its strings mended. -/
def mended : Json → Json
  | .string s => .string (Text.mended s)
  | .array es => .array (mendedElems es)
  | .object ms => .object (mendedMembers ms)
  | j => j

def mendedElems : List Json → List Json
  | [] => []
  | e :: es => mended e :: mendedElems es

def mendedMembers : List (Text × Json) → List (Text × Json)
  | [] => []
  | (k, v) :: ms => (Text.mended k, mended v) :: mendedMembers ms
end

mutual
theorem depth_mended : ∀ j : Json, j.mended.depth = j.depth
  | .null | .bool _ | .number _ | .decimal _ | .string _ => by simp [mended, depth]
  | .array es => by simp only [mended, depth, depthOfElems_mended es]
  | .object ms => by simp only [mended, depth, depthOfMembers_mended ms]

theorem depthOfElems_mended : ∀ es : List Json, depthOfElems (mendedElems es) = depthOfElems es
  | [] => rfl
  | e :: es => by simp only [mendedElems, depthOfElems, depth_mended e, depthOfElems_mended es]

theorem depthOfMembers_mended :
    ∀ ms : List (Text × Json), depthOfMembers (mendedMembers ms) = depthOfMembers ms
  | [] => rfl
  | (k, v) :: ms => by
    simp only [mendedMembers, depthOfMembers, depth_mended v, depthOfMembers_mended ms]
end

theorem mendedElems_eq_map (es : List Json) : mendedElems es = es.map mended := by
  induction es with
  | nil => rfl
  | cons e es ih => rw [mendedElems, ih, List.map_cons]

theorem mendedMembers_eq_map (ms : List (Text × Json)) :
    mendedMembers ms = ms.map fun (k, v) => (Text.mended k, v.mended) := by
  induction ms with
  | nil => rfl
  | cons m ms ih => rw [mendedMembers, ih, List.map_cons]

theorem isPlainElems_iff {es : List Json} :
    isPlainElems es = true ↔ ∀ e ∈ es, e.isPlain = true := by
  induction es with
  | nil => simp [isPlainElems]
  | cons e es ih => simp [isPlainElems, ih]

theorem isPlainMembers_iff {ms : List (Text × Json)} :
    isPlainMembers ms = true ↔ ∀ m ∈ ms, m.2.isPlain = true := by
  induction ms with
  | nil => simp [isPlainMembers]
  | cons m ms ih => simp [isPlainMembers, ih]

theorem depthOfElems_le_iff {es : List Json} {n : Nat} :
    depthOfElems es ≤ n ↔ ∀ e ∈ es, e.depth ≤ n := by
  induction es with
  | nil => simp [depthOfElems]
  | cons e es ih => simp [depthOfElems, ih]

theorem depthOfMembers_le_iff {ms : List (Text × Json)} {n : Nat} :
    depthOfMembers ms ≤ n ↔ ∀ m ∈ ms, m.2.depth ≤ n := by
  induction ms with
  | nil => simp [depthOfMembers]
  | cons m ms ih => simp [depthOfMembers, ih]

theorem skipBlanks_cons {b : UInt8} (h : isBlank b = false) (s : Text) :
    skipBlanks (b :: s) = b :: s := by
  simp [skipBlanks, h]

theorem skipBlanks_newline (d : Nat) (s : Text) : skipBlanks (newline d ++ s) = skipBlanks s := by
  have hBlank : ∀ b ∈ newline d, isBlank b = true := by
    intro b hb
    rcases List.mem_cons.mp hb with rfl | hb
    · rfl
    · rw [List.eq_of_mem_replicate hb]
      rfl
  rw [skipBlanks, List.dropWhile_append_of_pos hBlank, skipBlanks]

theorem readValue_newline (n d : Nat) (s : Text) :
    readValue n (newline d ++ s) = readValue n s := by
  cases n with
  | zero => simp only [readValue]
  | succ n => simp only [readValue, skipBlanks_newline]

theorem readValue_blank (n : Nat) (s : Text) : readValue n (32 :: s) = readValue n s := by
  cases n with
  | zero => simp only [readValue]
  | succ n =>
    have hSkip : skipBlanks (32 :: s) = skipBlanks s := rfl
    simp only [readValue, hSkip]

theorem readElems_newline (n d : Nat) (s : Text) :
    readElems n (newline d ++ s) = readElems n s := by
  cases n with
  | zero => simp only [readElems]
  | succ n => simp only [readElems, readValue_newline]

theorem readMembers_newline (n d : Nat) (s : Text) :
    readMembers n (newline d ++ s) = readMembers n s := by
  cases n with
  | zero => simp only [readMembers]
  | succ n => simp only [readMembers, skipBlanks_newline]

theorem exists_quoted (s : Text) : ∃ r, quoted s = 34 :: r := ⟨_, rfl⟩

theorem isBlank_of_isDigit {b : UInt8} (h : Text.isDigit b = true) : isBlank b = false := by
  rw [Bool.eq_false_iff]
  intro hBlank
  simp only [isBlank, Bool.or_eq_true, decide_eq_true_eq] at hBlank
  rcases hBlank with ((rfl | rfl) | rfl) | rfl <;> cases h

/-- A value begins neither with a blank nor like the end of an array. -/
theorem exists_render (d : Nat) {j : Json} (h : j.isPlain = true) :
    ∃ b r, render d j = b :: r ∧ isBlank b = false ∧ b ≠ 93 := by
  fun_cases render d j
  case case5 s => cases h
  case case4 n =>
    cases n with
    | ofNat n =>
      obtain ⟨b, bs, hDigits⟩ := List.exists_cons_of_ne_nil (Text.ofNat_ne_nil n)
      have hDigit := isDigit_ofNat n b (hDigits ▸ List.mem_cons_self)
      refine ⟨b, bs, hDigits, ?_, ?_⟩
      · exact isBlank_of_isDigit hDigit
      · rintro rfl
        cases hDigit
    | negSucc n => exact ⟨45, Text.ofNat (n + 1), rfl, by decide, by decide⟩
  all_goals exact ⟨_, _, rfl, by decide, by decide⟩

theorem ends_renderElems (d close : Nat) (es : List Json) (rest : Text) :
    Ends (renderElems d es ++ newline close ++ rest) := by
  cases es with
  | nil =>
    rintro b ⟨⟩
    exact .inr rfl
  | cons e es =>
    rintro b ⟨⟩
    exact .inl rfl

theorem ends_renderMembers (d close : Nat) (ms : List (Text × Json)) (rest : Text) :
    Ends (renderMembers d ms ++ newline close ++ rest) := by
  cases ms with
  | nil =>
    rintro b ⟨⟩
    exact .inr rfl
  | cons m ms =>
    obtain ⟨k, v⟩ := m
    rintro b ⟨⟩
    exact .inl rfl

theorem readValue_array {n : Nat} (d : Nat) {b : UInt8} (s : Text) (hBlank : isBlank b = false)
    (hb : b ≠ 93) :
    readValue (n + 1) (91 :: (newline d ++ b :: s)) =
      (readElems n (b :: s)).map fun (es, r) => (.array es, r) := by
  simp only [readValue, skipBlanks_cons (b := 91) rfl, skipBlanks_newline, skipBlanks_cons hBlank]
  split
  · rename_i h
    exact absurd (List.cons.inj h).1 hb
  · rfl

theorem readValue_object {n : Nat} (d : Nat) (s : Text) :
    readValue (n + 1) (123 :: (newline d ++ 34 :: s)) =
      (readMembers n (34 :: s)).map fun (ms, r) => (.object ms, r) := by
  simp only [readValue, skipBlanks_cons (b := 123) rfl, skipBlanks_newline,
    skipBlanks_cons (b := 34) rfl]
  rfl

theorem readValue_string {n : Nat} {s : Text} :
    readValue (n + 1) (34 :: s) = (readString s).map fun (t, r) => (.string t, r) := by
  simp only [readValue, skipBlanks_cons (b := 34) rfl]

theorem dropStart?_cons_of_ne {b c : UInt8} (h : b ≠ c) (w s : Text) :
    Text.dropStart? (c :: w) (b :: s) = none := by
  rw [Text.dropStart?, List.isPrefixOf_cons_cons, beq_eq_false_iff_ne.mpr h.symm, Bool.false_and,
    if_neg Bool.false_ne_true]

theorem readValue_numeral {n : Nat} {b : UInt8} (h : b = 45 ∨ Text.isDigit b = true) (s : Text) :
    readValue (n + 1) (b :: s) = readNumber (b :: s) := by
  have hBlank : isBlank b = false := by
    rcases h with rfl | hDigit
    · rfl
    · exact isBlank_of_isDigit hDigit
  have hNot : ∀ c, c ≠ 45 → Text.isDigit c = false → b ≠ c := by
    rintro c hMinus hDigit rfl
    rcases h with h | h
    · exact hMinus h
    · rw [hDigit] at h
      cases h
  have hNull := dropStart?_cons_of_ne (hNot 110 (by decide) rfl) [117, 108, 108] s
  have hTrue := dropStart?_cons_of_ne (hNot 116 (by decide) rfl) [114, 117, 101] s
  have hFalse := dropStart?_cons_of_ne (hNot 102 (by decide) rfl) [97, 108, 115, 101] s
  simp only [readValue, skipBlanks_cons hBlank]
  split
  · rename_i hb
    exact absurd (List.cons.inj hb).1 (hNot 123 (by decide) rfl)
  · rename_i hb
    exact absurd (List.cons.inj hb).1 (hNot 91 (by decide) rfl)
  · rename_i hb
    exact absurd (List.cons.inj hb).1 (hNot 34 (by decide) rfl)
  · have hWords : Text.ofString "null" = [110, 117, 108, 108] ∧
        Text.ofString "true" = [116, 114, 117, 101] ∧
        Text.ofString "false" = [102, 97, 108, 115, 101] := by decide
    rw [hWords.1, hWords.2.1, hWords.2.2, hNull, hTrue, hFalse]

theorem readValue_number {n : Nat} (i : Int) {rest : Text} (h : Ends rest) :
    readValue (n + 1) (Text.ofInt i ++ rest) = some (.number i, rest) := by
  obtain ⟨b, r, hText, hFirst⟩ :
      ∃ b r, Text.ofInt i = b :: r ∧ (b = 45 ∨ Text.isDigit b = true) := by
    cases i with
    | ofNat i =>
      obtain ⟨b, r, hDigits⟩ := List.exists_cons_of_ne_nil (Text.ofNat_ne_nil i)
      exact ⟨b, r, hDigits, .inr (isDigit_ofNat i b (hDigits ▸ List.mem_cons_self))⟩
    | negSucc i => exact ⟨45, _, rfl, .inl rfl⟩
  rw [← readNumber_ofInt i h, hText, List.cons_append, readValue_numeral hFirst]

mutual
/-- A written value is read back, whatever follows it. Each step of the reader consumes a byte, so
the length of the text bounds the steps. -/
theorem readValue_render (d : Nat) : ∀ (j : Json) (steps : Nat), j.isPlain = true →
    ∀ {rest : Text}, Ends rest → (render d j).length < steps →
      readValue steps (render d j ++ rest) = some (j.mended, rest)
  | _, 0, _, _, _, hSteps => absurd hSteps (Nat.not_lt_zero _)
  | .null, n + 1, _, rest, _, _ => by
    simp only [render, mended]
    rfl
  | .bool true, n + 1, _, rest, _, _ => by
    simp only [render, mended]
    rfl
  | .bool false, n + 1, _, rest, _, _ => by
    simp only [render, mended]
    rfl
  | .number i, n + 1, _, rest, hRest, _ => readValue_number i hRest
  | .decimal _, _ + 1, hPlain, _, _, _ => by cases hPlain
  | .string s, n + 1, _, rest, _, _ => by
    obtain ⟨body, hText, hRead⟩ := readString_quoted s rest
    rw [render, hText, readValue_string, hRead]
    rfl
  | .array [], n + 1, _, rest, _, _ => by
    simp only [render, mended]
    rfl
  | .array (e :: es), n + 1, hPlain, rest, hRest, hSteps => by
    simp only [isPlain, isPlainElems, Bool.and_eq_true] at hPlain
    have hText : render d (.array (e :: es)) ++ rest = 91 :: (newline (d + 1) ++
        (render (d + 1) e ++ (renderElems (d + 1) es ++ newline d ++ 93 :: rest))) := by
      simp only [render, List.append_assoc]
      rfl
    have hEnough : (render (d + 1) e ++ renderElems (d + 1) es).length + 1 < n := by
      simp [render, newline, Text.ofString] at hSteps ⊢
      omega
    have hElems := readElems_render (d + 1) d e es n hPlain.1 hPlain.2 rest hEnough
    obtain ⟨b, r, hFirst, hBlank, hb⟩ := exists_render (d + 1) hPlain.1
    rw [hFirst, List.cons_append] at hText hElems
    rw [hText, readValue_array _ _ hBlank hb, hElems]
    rfl
  | .object [], n + 1, _, rest, _, _ => by
    simp only [render, mended]
    rfl
  | .object ((k, v) :: ms), n + 1, hPlain, rest, hRest, hSteps => by
    simp only [isPlain, isPlainMembers, Bool.and_eq_true] at hPlain
    have hText : render d (.object ((k, v) :: ms)) ++ rest = 123 :: (newline (d + 1) ++
        (quoted k ++ 58 :: 32 :: (render (d + 1) v ++
          (renderMembers (d + 1) ms ++ newline d ++ 125 :: rest)))) := by
      simp only [render, List.append_assoc]
      rfl
    have hEnough : (render (d + 1) v ++ renderMembers (d + 1) ms).length + 1 < n := by
      simp [render, newline, Text.ofString] at hSteps ⊢
      omega
    have hMembers := readMembers_render (d + 1) d k v ms n hPlain.1 hPlain.2 rest hEnough
    obtain ⟨r, hFirst⟩ := exists_quoted k
    rw [hFirst, List.cons_append] at hText hMembers
    rw [hText, readValue_object, hMembers]
    rfl
termination_by structural _ steps => steps

theorem readElems_render (d close : Nat) : ∀ (e : Json) (es : List Json) (steps : Nat),
    e.isPlain = true → isPlainElems es = true → ∀ rest : Text,
      (render d e ++ renderElems d es).length + 1 < steps →
        readElems steps (render d e ++ (renderElems d es ++ newline close ++ 93 :: rest)) =
          some (e.mended :: mendedElems es, rest)
  | _, _, 0, _, _, _, hSteps => absurd hSteps (Nat.not_lt_zero _)
  | e, es, n + 1, he, hes, rest, hSteps => by
    rw [List.length_append] at hSteps
    rw [readElems, readValue_render d e n he (ends_renderElems d close es _) (by omega)]
    match es, hes, hSteps with
    | [], _, _ =>
      simp only [renderElems, List.nil_append, Option.bind_eq_bind, Option.bind_some,
        skipBlanks_newline, skipBlanks_cons (b := 93) rfl]
      rfl
    | e' :: es, hes, hSteps =>
      simp only [isPlainElems, Bool.and_eq_true] at hes
      have hText : renderElems d (e' :: es) ++ newline close ++ 93 :: rest = 44 :: (newline d ++
          (render d e' ++ (renderElems d es ++ newline close ++ 93 :: rest))) := by
        simp only [renderElems, List.append_assoc]
        rfl
      have hEnough : (render d e' ++ renderElems d es).length + 1 < n := by
        simp [renderElems, newline, Text.ofString] at hSteps ⊢
        omega
      have hTail := readElems_render d close e' es n hes.1 hes.2 rest hEnough
      rw [hText]
      simp only [Option.bind_eq_bind, Option.bind_some, skipBlanks_cons (b := 44) rfl,
        readElems_newline, hTail]
      rfl
termination_by structural _ _ steps => steps

theorem readMembers_render (d close : Nat) : ∀ (k : Text) (v : Json) (ms : List (Text × Json))
    (steps : Nat), v.isPlain = true → isPlainMembers ms = true → ∀ rest : Text,
      (render d v ++ renderMembers d ms).length + 1 < steps →
        readMembers steps (quoted k ++ 58 :: 32 :: (render d v ++
            (renderMembers d ms ++ newline close ++ 125 :: rest))) =
          some ((Text.mended k, v.mended) :: mendedMembers ms, rest)
  | _, _, _, 0, _, _, _, hSteps => absurd hSteps (Nat.not_lt_zero _)
  | k, v, ms, n + 1, hv, hms, rest, hSteps => by
    rw [List.length_append] at hSteps
    obtain ⟨body, hQuoted, hKey⟩ := readString_quoted k (58 :: 32 :: (render d v ++
      (renderMembers d ms ++ newline close ++ 125 :: rest)))
    have hValue := readValue_render d v n hv (ends_renderMembers d close ms (125 :: rest))
      (by omega)
    rw [hQuoted, readMembers]
    simp only [skipBlanks_cons (b := 34) rfl, hKey, Option.bind_eq_bind, Option.bind_some,
      skipBlanks_cons (b := 58) rfl, readValue_blank, hValue]
    match ms, hms, hSteps with
    | [], _, _ =>
      simp only [renderMembers, List.nil_append, skipBlanks_newline, skipBlanks_cons (b := 125) rfl]
      rfl
    | (k', v') :: ms, hms, hSteps =>
      simp only [isPlainMembers, Bool.and_eq_true] at hms
      have hText : renderMembers d ((k', v') :: ms) ++ newline close ++ 125 :: rest =
          44 :: (newline d ++ (quoted k' ++ 58 :: 32 :: (render d v' ++
            (renderMembers d ms ++ newline close ++ 125 :: rest)))) := by
        simp only [renderMembers, List.append_assoc]
        rfl
      have hEnough : (render d v' ++ renderMembers d ms).length + 1 < n := by
        simp [renderMembers, newline, Text.ofString] at hSteps ⊢
        omega
      have hTail := readMembers_render d close k' v' ms n hms.1 hms.2 rest hEnough
      rw [hText]
      simp only [Option.bind_some, skipBlanks_cons (b := 44) rfl, readMembers_newline, hTail]
      rfl
termination_by structural _ _ _ steps => steps
end

/-- A document is read only if nothing but blanks follows it. -/
theorem ofText?_text_append {j : Json} (h : j.isPlain = true) (rest : Text) :
    ofText? (j.text ++ "\n" ++ rest) =
      if (skipBlanks rest).isEmpty = true ∧ j.depth ≤ maxDepth then some j.mended else none := by
  have hEnd : Ends (Text.ofString "\n" ++ rest) := by
    rintro b ⟨⟩
    exact .inr rfl
  have hLength : (render 0 j).length <
      (render 0 j ++ (Text.ofString "\n" ++ rest)).length + 1 := by
    rw [List.length_append]
    omega
  have hBlank : skipBlanks (Text.ofString "\n" ++ rest) = skipBlanks rest := skipBlanks_newline 0 rest
  rw [ofText?, text, List.append_assoc, readValue_render 0 j _ h hEnd hLength]
  simp only [Option.bind_eq_bind, Option.bind_some, hBlank, Bool.and_eq_true, decide_eq_true_eq,
    depth_mended]

/-- Reading the text of a document gives it back with its strings mended, unless it is too deep. -/
theorem ofText?_text {j : Json} (h : j.isPlain = true) :
    ofText? (j.text ++ "\n") = if j.depth ≤ maxDepth then some j.mended else none := by
  have hRead := ofText?_text_append h []
  rw [List.append_nil] at hRead
  rw [hRead]
  exact if_congr (and_iff_right rfl) rfl rfl

end AnchorScript.Json
