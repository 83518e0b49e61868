import AnchorScript.Text.Trim

/-!
# Texts and their characters

A byte below 128 is a character by itself, and in the UTF-8 bytes of a character such a byte stands
for that character only. Cutting a text into characters and stray bytes loses nothing, and
characters that are written as bytes are cut out again as they were. So a text without stray bytes
is its characters, and mending a text, which puts the replacement character in the place of each
stray byte, changes no other text.
-/

namespace AnchorScript.Text

/-- The character of an ASCII byte. -/
def byteChar (b : UInt8) : Char := Char.ofNat b.toNat

def IsAscii (s : Text) : Prop := ∀ b ∈ s, b < 128

/-- A property of the bytes of a text is decided along the text, not over all bytes. -/
theorem forall_mem_of_all {P : UInt8 → Prop} [DecidablePred P] {s : Text}
    (h : s.all (P ·) = true) : ∀ b ∈ s, P b :=
  fun b hb => of_decide_eq_true (List.all_eq_true.mp h b hb)

theorem forall_ascii {P : UInt8 → Prop} (h : ∀ n < 128, P (UInt8.ofNat n)) {b : UInt8}
    (hb : b < 128) : P b := by
  have hNat := h b.toNat (UInt8.lt_iff_toNat_lt.mp hb)
  rwa [UInt8.ofNat_toNat] at hNat

theorem utf8EncodeChar_byteChar {b : UInt8} (hb : b < 128) : String.utf8EncodeChar (byteChar b) = [b] :=
  forall_ascii (P := fun b => String.utf8EncodeChar (byteChar b) = [b]) (by decide) hb

/-- The bytes of a character beyond ASCII are beyond ASCII. -/
theorem le_of_mem_utf8EncodeChar {c : Char} (hc : 128 ≤ c.toNat) {b : UInt8}
    (hb : b ∈ String.utf8EncodeChar c) : 128 ≤ b := by
  have hNat : c.val.toNat = c.toNat := rfl
  revert hb
  fun_cases String.utf8EncodeChar c
  all_goals
    intro hb
    rw [UInt8.le_iff_toNat_le]
    simp only [List.mem_cons, List.not_mem_nil, or_false] at hb
  · omega
  · rcases hb with rfl | rfl <;> simp <;> omega
  · rcases hb with rfl | rfl | rfl <;> simp <;> omega
  · rcases hb with rfl | rfl | rfl | rfl <;> simp <;> omega

theorem firstChar?_utf8EncodeChar_append (c : Char) (r : Text) :
    firstChar? (String.utf8EncodeChar c ++ r) = some c := by
  have hTake : (String.utf8EncodeChar c ++ r).take 4 =
      String.utf8EncodeChar c ++ r.take (4 - (String.utf8EncodeChar c).length) := by
    rw [List.take_append, List.take_of_length_le]
    rw [String.length_utf8EncodeChar]
    exact Char.utf8Size_le_four c
  rw [firstChar?, hTake, List.toByteArray_append, ByteArray.utf8DecodeChar?_utf8EncodeChar_append]

theorem firstPiece_of_ascii {b : UInt8} (hb : b < 128) (r : Text) :
    firstPiece b r = .char (byteChar b) := by
  have hBytes : b :: r = String.utf8EncodeChar (byteChar b) ++ r := by
    rw [utf8EncodeChar_byteChar hb]
    rfl
  rw [firstPiece, hBytes, firstChar?_utf8EncodeChar_append]

theorem chars_of_isAscii {s : Text} (h : IsAscii s) : chars s = s.map byteChar := by
  induction s with
  | nil =>
    rw [chars, pieces]
    rfl
  | cons b r ih =>
    obtain ⟨hb, hr⟩ := List.forall_mem_cons.mp h
    have hRest : (b :: r).drop (Piece.char (byteChar b)).bytes.length = r := by
      rw [Piece.bytes, utf8EncodeChar_byteChar hb]
      rfl
    rw [chars, pieces]
    simp only [firstPiece_of_ascii hb, hRest, List.map_cons]
    rw [← ih hr]
    rfl

theorem ofChars_map_byteChar {s : Text} (h : IsAscii s) : ofChars (s.map byteChar) = s := by
  induction s with
  | nil => rfl
  | cons b r ih =>
    obtain ⟨hb, hr⟩ := List.forall_mem_cons.mp h
    rw [List.map_cons, ofChars, List.flatMap_cons, utf8EncodeChar_byteChar hb, ← ofChars, ih hr]
    rfl

theorem lowerByte_ascii {b : UInt8} (hb : b < 128) : lowerByte b < 128 :=
  forall_ascii (P := fun b => lowerByte b < 128) (by decide) hb

/-- Only ASCII letters have another lower case. -/
theorem lowerByte_eq_or_ascii (b : UInt8) : lowerByte b = b ∨ b < 128 := by
  unfold lowerByte
  split
  · rename_i hUpper
    simp only [isUpper, Bool.and_eq_true, decide_eq_true_eq] at hUpper
    exact .inr (UInt8.lt_of_le_of_lt hUpper.2 (by decide))
  · exact .inl rfl

theorem toLowerLetter_byteChar {b : UInt8} (hb : b < 128) :
    toLowerLetter (byteChar b) = byteChar (lowerByte b) :=
  forall_ascii (P := fun b => toLowerLetter (byteChar b) = byteChar (lowerByte b)) (by decide) hb

theorem toLower_of_isAscii {s : Text} (h : IsAscii s) : toLower s = s.map lowerByte := by
  have hChars : (s.map byteChar).map toLowerLetter = (s.map lowerByte).map byteChar := by
    rw [List.map_map, List.map_map]
    exact List.map_congr_left fun b hb => toLowerLetter_byteChar (h b hb)
  have hLower : IsAscii (s.map lowerByte) := by
    intro b hb
    obtain ⟨a, ha, rfl⟩ := List.mem_map.mp hb
    exact lowerByte_ascii (h a ha)
  rw [toLower, chars_of_isAscii h, hChars, ofChars_map_byteChar hLower]

instance (s : Text) : Decidable (IsAscii s) := List.decidableBAll (· < 128) s

/-- The text with each stray byte replaced by the replacement character. -/
def mended (s : Text) : Text := ofChars (chars s)

theorem isPrefix_of_firstChar? {s : Text} {c : Char} (h : firstChar? s = some c) :
    String.utf8EncodeChar c <+: s := by
  obtain ⟨rest, hRest⟩ := ByteArray.exists_of_utf8DecodeChar?_eq_some h
  have hBytes : s.take 4 = String.utf8EncodeChar c ++ rest.data.toList := by
    simpa using congrArg (·.data.toList) hRest
  exact (List.prefix_append _ _).trans (hBytes ▸ List.take_prefix 4 s)

theorem isPrefix_firstPiece (b : UInt8) (r : Text) : (firstPiece b r).bytes <+: b :: r := by
  unfold firstPiece
  split
  · rename_i c hChar
    exact isPrefix_of_firstChar? hChar
  · exact ⟨r, rfl⟩

/-- Joining the pieces of a text gives it back. -/
theorem flatMap_bytes_pieces (s : Text) : (pieces s).flatMap Piece.bytes = s := by
  fun_induction pieces s with
  | case1 => rfl
  | case2 b r u ih =>
    obtain ⟨rest, hRest⟩ := isPrefix_firstPiece b r
    rw [List.flatMap_cons, ih, ← hRest, List.drop_left]

theorem mended_of_isUtf8 {s : Text} (h : isUtf8 s = true) : mended s = s := by
  have hBytes : ∀ p ∈ pieces s, String.utf8EncodeChar p.toChar = p.bytes := by
    intro p hp
    cases p with
    | char c => rfl
    | stray b => cases List.all_eq_true.mp h _ hp
  calc mended s = (pieces s).flatMap fun p => String.utf8EncodeChar p.toChar := by
        rw [mended, ofChars, chars, List.flatMap_map]
    _ = (pieces s).flatMap Piece.bytes := by
        rw [List.flatMap_def, List.flatMap_def, List.map_congr_left hBytes]
    _ = s := flatMap_bytes_pieces s

theorem pieces_utf8EncodeChar_append (c : Char) (r : Text) :
    pieces (String.utf8EncodeChar c ++ r) = .char c :: pieces r := by
  obtain ⟨b, bs, hBytes⟩ : ∃ b bs, String.utf8EncodeChar c = b :: bs :=
    List.exists_cons_of_length_pos (Piece.char c).length_bytes_pos
  have hFirst : firstPiece b (bs ++ r) = .char c := by
    rw [firstPiece, ← List.cons_append, ← hBytes, firstChar?_utf8EncodeChar_append]
  rw [hBytes, List.cons_append, pieces]
  simp only [hFirst]
  rw [← List.cons_append, ← hBytes, Piece.bytes, List.drop_left]

theorem isUtf8_ofChars (cs : List Char) : isUtf8 (ofChars cs) = true := by
  have hPieces : pieces (ofChars cs) = cs.map .char := by
    induction cs with
    | nil =>
      rw [ofChars, List.flatMap_nil, pieces]
      rfl
    | cons c cs ih => rw [ofChars, List.flatMap_cons, pieces_utf8EncodeChar_append, ← ofChars, ih,
        List.map_cons]
  rw [isUtf8, hPieces]
  exact List.all_eq_true.mpr (List.forall_mem_map.mpr fun c _ => rfl)

theorem pieces_of_isAscii {s : Text} (h : IsAscii s) :
    pieces s = s.map fun b => .char (byteChar b) := by
  induction s with
  | nil =>
    rw [pieces]
    rfl
  | cons b r ih =>
    obtain ⟨hb, hr⟩ := List.forall_mem_cons.mp h
    have hText : b :: r = String.utf8EncodeChar (byteChar b) ++ r := by
      rw [utf8EncodeChar_byteChar hb]
      rfl
    rw [hText, pieces_utf8EncodeChar_append, ih hr, utf8EncodeChar_byteChar hb]
    rfl

/-- Where the first and the last piece are no white space, trimming takes nothing away. -/
theorem trimSpace_of_ends {s : Text} (hFirst : ∀ p ∈ (pieces s).head?, p.isSpace = false)
    (hLast : ∀ p ∈ (pieces s).getLast?, p.isSpace = false) : trimSpace s = s := by
  have hKept : ∀ ps : List Piece, (∀ p ∈ ps.head?, p.isSpace = false) →
      ps.dropWhile Piece.isSpace = ps := by
    intro ps hps
    cases ps with
    | nil => rfl
    | cons p ps => rw [List.dropWhile_cons_of_neg (by simp [hps p rfl])]
  rw [trimSpace, hKept _ hFirst, hKept _ (by rwa [List.head?_reverse]), List.reverse_reverse,
    flatMap_bytes_pieces]

theorem trimSpace_of_forall {s : Text} (h : ∀ p ∈ pieces s, p.isSpace = false) :
    trimSpace s = s :=
  trimSpace_of_ends (fun p hp => h p (List.mem_of_mem_head? hp))
    fun p hp => h p (List.mem_of_mem_getLast? hp)

theorem byteChar_of_mem_utf8EncodeChar {c : Char} {b : UInt8} (hb : b ∈ String.utf8EncodeChar c)
    (hAscii : b < 128) : byteChar b = c := by
  by_cases hc : c.toNat < 128
  · have hByte : (UInt8.ofNat c.toNat).toNat = c.toNat := by
      rw [UInt8.toNat_ofNat']
      exact Nat.mod_eq_of_lt (by omega)
    have hLow : UInt8.ofNat c.toNat < 128 := by
      rw [UInt8.lt_iff_toNat_lt, hByte]
      exact hc
    have hChar : byteChar (UInt8.ofNat c.toNat) = c := by
      rw [byteChar, hByte, Char.ofNat_toNat]
    rw [← hChar, utf8EncodeChar_byteChar hLow, List.mem_singleton] at hb
    rw [hb, hChar]
  · have hHigh := le_of_mem_utf8EncodeChar (Nat.le_of_not_lt hc) hb
    rw [UInt8.le_iff_toNat_le] at hHigh
    rw [UInt8.lt_iff_toNat_lt] at hAscii
    exact absurd hAscii (Nat.not_lt.mpr hHigh)

theorem mem_ofChars_iff {b : UInt8} (hAscii : b < 128) {cs : List Char} :
    b ∈ ofChars cs ↔ byteChar b ∈ cs := by
  constructor
  · intro hb
    obtain ⟨c, hc, hMem⟩ := List.mem_flatMap.mp hb
    rwa [byteChar_of_mem_utf8EncodeChar hMem hAscii]
  · intro hc
    refine List.mem_flatMap.mpr ⟨_, hc, ?_⟩
    rw [utf8EncodeChar_byteChar hAscii]
    exact List.mem_singleton_self b

theorem byteChar_injOn {a b : UInt8} (ha : a < 128) (hb : b < 128)
    (h : byteChar a = byteChar b) : a = b := by
  have hBytes := congrArg String.utf8EncodeChar h
  rw [utf8EncodeChar_byteChar ha, utf8EncodeChar_byteChar hb] at hBytes
  exact List.singleton_inj.mp hBytes

/-- Trimming keeps every character that is no white space. -/
theorem mem_trimSpace {s : Text} {b : UInt8} (hb : b ∈ s) (hAscii : b < 128)
    (hSpace : isSpaceChar (byteChar b) = false) : b ∈ trimSpace s := by
  rw [← flatMap_bytes_pieces s] at hb
  obtain ⟨p, hp, hMem⟩ := List.mem_flatMap.mp hb
  have hNotSpace : p.isSpace = false := by
    cases p with
    | char c =>
      rw [← byteChar_of_mem_utf8EncodeChar hMem hAscii]
      exact hSpace
    | stray b' => rfl
  have hDrop : ∀ ps : List Piece, p ∈ ps → p ∈ ps.dropWhile Piece.isSpace := by
    intro ps hps
    rw [← List.takeWhile_append_dropWhile (p := Piece.isSpace) (l := ps), List.mem_append] at hps
    refine hps.resolve_left fun hTaken => ?_
    rw [List.all_eq_true.mp List.all_takeWhile p hTaken] at hNotSpace
    cases hNotSpace
  have hKept := hDrop _ (List.mem_reverse.mpr (hDrop _ hp))
  exact List.mem_flatMap.mpr ⟨p, List.mem_reverse.mpr hKept, hMem⟩

theorem chars_ofChars (cs : List Char) : chars (ofChars cs) = cs := by
  induction cs with
  | nil =>
    rw [ofChars, List.flatMap_nil, chars, pieces]
    rfl
  | cons c cs ih =>
    rw [ofChars, List.flatMap_cons, ← ofChars, chars, pieces_utf8EncodeChar_append, List.map_cons,
      ← chars, ih]
    rfl

theorem mended_ofChars (cs : List Char) : mended (ofChars cs) = ofChars cs := by
  rw [mended, chars_ofChars]

theorem mended_mended (s : Text) : mended (mended s) = mended s := mended_ofChars (chars s)

theorem mended_eq_nil_iff {s : Text} : mended s = [] ↔ s = [] := by
  constructor
  · intro h
    have hChars : chars s = [] := by
      rw [← chars_ofChars (chars s), ← mended, h, chars, pieces]
      rfl
    cases s with
    | nil => rfl
    | cons b r =>
      rw [chars, pieces] at hChars
      cases hChars
  · rintro rfl
    rw [mended, chars, pieces]
    rfl

theorem mended_of_isAscii {s : Text} (h : IsAscii s) : mended s = s := by
  rw [mended, chars_of_isAscii h, ofChars_map_byteChar h]

end AnchorScript.Text
