import AnchorScript.Proofs.Text.Characters

/-!
# Texts cut at an ASCII byte

No character reaches over an ASCII byte, so a text is cut into characters on both sides of one
separately. Mending keeps the ASCII bytes where they are, and trimming takes nothing but white space
from the ends.
-/

namespace AnchorScript.Text

theorem firstPiece_append_cons {b : UInt8} (hb : b < 128) (c : UInt8) (s r : Text) :
    firstPiece c (s ++ b :: r) = firstPiece c s := by
  have hChar : firstChar? (c :: s ++ b :: r) = firstChar? (c :: s) := by
    cases hShort : firstChar? (c :: s) with
    | some ch =>
      obtain ⟨rest, hRest⟩ := isPrefix_of_firstChar? hShort
      rw [← hRest, List.append_assoc, firstChar?_utf8EncodeChar_append]
    | none =>
      cases hLong : firstChar? (c :: s ++ b :: r) with
      | none => rfl
      | some ch =>
        have hNot (rest : Text) (hRest : String.utf8EncodeChar ch ++ rest = c :: s) : False := by
          rw [← hRest, firstChar?_utf8EncodeChar_append] at hShort
          cases hShort
        obtain ⟨rest, hRest⟩ := isPrefix_of_firstChar? hLong
        rcases List.append_eq_append_iff.mp hRest with ⟨more, hMore, _⟩ | ⟨more, hMore, hEnd⟩
        · exact (hNot more hMore.symm).elim
        · cases more with
          | nil => exact (hNot [] (by rw [hMore, List.append_nil, List.append_nil])).elim
          | cons b' more =>
            -- a character over the ASCII byte would be that byte alone
            obtain ⟨rfl, _⟩ := List.cons.inj hEnd
            have hByte : byteChar b = ch :=
              byteChar_of_mem_utf8EncodeChar (hMore ▸ List.mem_append_right _ List.mem_cons_self) hb
            rw [← hByte, utf8EncodeChar_byteChar hb] at hMore
            have hLength := congrArg List.length hMore
            simp at hLength
  rw [firstPiece, firstPiece, ← List.cons_append, hChar]

theorem pieces_append_cons {b : UInt8} (hb : b < 128) (s r : Text) :
    pieces (s ++ b :: r) = pieces s ++ Piece.char (byteChar b) :: pieces r := by
  fun_induction pieces s with
  | case1 =>
    rw [List.nil_append, List.nil_append, pieces]
    simp only [firstPiece_of_ascii hb, Piece.bytes, utf8EncodeChar_byteChar hb, List.length_singleton,
      List.drop_succ_cons, List.drop_zero]
  | case2 c s u ih =>
    obtain ⟨rest, hRest⟩ := isPrefix_firstPiece c s
    have hShort : (c :: s).drop u.bytes.length = rest := by rw [← hRest, List.drop_left]
    have hLong : (c :: (s ++ b :: r)).drop u.bytes.length = rest ++ b :: r := by
      rw [← List.cons_append, ← hRest, List.append_assoc, List.drop_left]
    rw [hShort] at ih ⊢
    rw [List.cons_append, pieces]
    simp only [firstPiece_append_cons hb]
    rw [hLong, ih]
    rfl

theorem mended_append_cons {b : UInt8} (hb : b < 128) (s r : Text) :
    mended (s ++ b :: r) = mended s ++ b :: mended r := by
  rw [mended, chars, pieces_append_cons hb, List.map_append, List.map_cons, ofChars,
    List.flatMap_append, List.flatMap_cons, Piece.toChar, utf8EncodeChar_byteChar hb]
  rfl

theorem mended_cons {b : UInt8} (hb : b < 128) (r : Text) : mended (b :: r) = b :: mended r := by
  have hCut := mended_append_cons hb [] r
  rwa [mended_eq_nil_iff.mpr rfl] at hCut

theorem mended_append {s : Text} (h : IsAscii s) (r : Text) : mended (s ++ r) = s ++ mended r := by
  induction s with
  | nil => rfl
  | cons b s ih =>
    obtain ⟨hb, hs⟩ := List.forall_mem_cons.mp h
    rw [List.cons_append, mended_cons hb, ih hs, List.cons_append]

/-- A text around ASCII bytes is mended around them. -/
theorem mended_around {s : Text} (h : IsAscii s) (hs : s ≠ []) (before after : Text) :
    mended (before ++ s ++ after) = mended before ++ s ++ mended after := by
  obtain ⟨b, s, rfl⟩ := List.exists_cons_of_ne_nil hs
  obtain ⟨hb, hs⟩ := List.forall_mem_cons.mp h
  rw [List.append_assoc, List.cons_append, mended_append_cons hb, mended_append hs, List.append_assoc,
    List.cons_append]

theorem mended_unlines (ls : List Text) : mended (unlines ls) = unlines (ls.map mended) := by
  induction ls with
  | nil => exact mended_eq_nil_iff.mpr rfl
  | cons l ls ih =>
    cases ls with
    | nil => simp [unlines, join]
    | cons l' ls =>
      rw [unlines, join_cons_cons, List.append_assoc, List.singleton_append,
        mended_append_cons (by decide), ← unlines, ih, List.map_cons, List.map_cons, List.map_cons,
        unlines, unlines, join_cons_cons, List.append_assoc, List.singleton_append]

theorem mem_of_mem_mended {s : Text} {b : UInt8} (hb : b ∈ mended s) (hAscii : b < 128) : b ∈ s := by
  rw [mended, ofChars, chars, List.flatMap_map] at hb
  obtain ⟨p, hp, hMem⟩ := List.mem_flatMap.mp hb
  rw [← flatMap_bytes_pieces s]
  refine List.mem_flatMap.mpr ⟨p, hp, ?_⟩
  cases p with
  | char c => exact hMem
  | stray b' =>
    have hHigh := le_of_mem_utf8EncodeChar (c := '\ufffd') (by decide) hMem
    exact absurd hAscii (UInt8.not_lt.mpr hHigh)

/-- An ASCII byte that begins a mended text begins the text. -/
theorem exists_cons_of_mended {s t : Text} {b : UInt8} (h : mended s = b :: t) (hb : b < 128) :
    ∃ r, s = b :: r ∧ mended r = t := by
  cases s with
  | nil =>
    rw [mended_eq_nil_iff.mpr rfl] at h
    cases h
  | cons c s =>
    by_cases hc : c < 128
    · rw [mended_cons hc] at h
      obtain ⟨rfl, rfl⟩ := List.cons.inj h
      exact ⟨s, rfl, rfl⟩
    · have hMem : b ∈ String.utf8EncodeChar (firstPiece c s).toChar := by
        rw [mended, chars, pieces, List.map_cons, ofChars, List.flatMap_cons] at h
        obtain ⟨b', bs, hBytes⟩ : ∃ b' bs, String.utf8EncodeChar (firstPiece c s).toChar = b' :: bs :=
          List.exists_cons_of_length_pos (Piece.char _).length_bytes_pos
        rw [hBytes, List.cons_append] at h
        rw [hBytes, (List.cons.inj h).1]
        exact List.mem_cons_self
      obtain ⟨rest, hRest⟩ := isPrefix_firstPiece c s
      cases hPiece : firstPiece c s with
      | stray b' =>
        rw [hPiece] at hMem
        have hHigh := le_of_mem_utf8EncodeChar (c := '\ufffd') (by decide) hMem
        exact absurd hb (UInt8.not_lt.mpr hHigh)
      | char ch =>
        rw [hPiece] at hMem hRest
        have hByte : byteChar b = ch := byteChar_of_mem_utf8EncodeChar hMem hb
        rw [Piece.bytes, ← hByte, utf8EncodeChar_byteChar hb] at hRest
        exact absurd ((List.cons.inj hRest).1 ▸ hb) hc

theorem exists_append_of_mended {p : Text} (hp : IsAscii p) {s t : Text} (h : mended s = p ++ t) :
    ∃ r, s = p ++ r ∧ mended r = t := by
  induction p generalizing s with
  | nil => exact ⟨s, rfl, h⟩
  | cons b p ih =>
    obtain ⟨hb, hp⟩ := List.forall_mem_cons.mp hp
    obtain ⟨r, rfl, hRest⟩ := exists_cons_of_mended h hb
    obtain ⟨r', rfl, hEnd⟩ := ih hp hRest
    exact ⟨r', rfl, hEnd⟩

/-- A byte of a white space character. -/
def IsWhite (b : UInt8) : Prop := isSpace b = true ∨ 128 ≤ b

instance (b : UInt8) : Decidable (IsWhite b) := inferInstanceAs (Decidable (_ ∨ _))

theorem isSpaceChar_byteChar {b : UInt8} (hb : b < 128) : isSpaceChar (byteChar b) = isSpace b :=
  forall_ascii (P := fun b => isSpaceChar (byteChar b) = isSpace b) (by decide +kernel) hb

theorem isWhite_of_mem_bytes {p : Piece} (hp : p.isSpace = true) {b : UInt8} (hb : b ∈ p.bytes) :
    IsWhite b := by
  cases p with
  | stray b' => cases hp
  | char c =>
    by_cases hAscii : b < 128
    · rw [Piece.isSpace, ← byteChar_of_mem_utf8EncodeChar hb hAscii, isSpaceChar_byteChar hAscii] at hp
      exact .inl hp
    · exact .inr (UInt8.not_lt.mp hAscii)

theorem isWhite_of_mem_mended {s : Text} (h : ∀ b ∈ s, IsWhite b) : ∀ b ∈ mended s, IsWhite b := by
  intro b hb
  by_cases hAscii : b < 128
  · exact h b (mem_of_mem_mended hb hAscii)
  · exact .inr (UInt8.not_lt.mp hAscii)

/-- Around the trimmed text stands white space. -/
theorem exists_around_trimSpace (s : Text) : ∃ before after, s = before ++ trimSpace s ++ after ∧
    (∀ b ∈ before, IsWhite b) ∧ ∀ b ∈ after, IsWhite b := by
  have hWhite (ps : List Piece) : ∀ b ∈ (ps.takeWhile Piece.isSpace).flatMap Piece.bytes,
      IsWhite b := by
    intro b hb
    obtain ⟨p, hp, hMem⟩ := List.mem_flatMap.mp hb
    exact isWhite_of_mem_bytes (List.all_eq_true.mp List.all_takeWhile p hp) hMem
  have hSplit (ps : List Piece) := List.takeWhile_append_dropWhile (p := Piece.isSpace) (l := ps)
  generalize hInner : (pieces s).dropWhile Piece.isSpace = inner
  refine ⟨((pieces s).takeWhile Piece.isSpace).flatMap Piece.bytes,
    (inner.reverse.takeWhile Piece.isSpace).reverse.flatMap Piece.bytes, ?_, hWhite _, ?_⟩
  · calc s = (pieces s).flatMap Piece.bytes := (flatMap_bytes_pieces s).symm
      _ = ((pieces s).takeWhile Piece.isSpace ++ inner).flatMap Piece.bytes := by
        rw [← hInner, hSplit]
      _ = ((pieces s).takeWhile Piece.isSpace ++ ((inner.reverse.dropWhile Piece.isSpace).reverse ++
            (inner.reverse.takeWhile Piece.isSpace).reverse)).flatMap Piece.bytes := by
        rw [← List.reverse_append, hSplit, List.reverse_reverse]
      _ = _ := by
        rw [List.flatMap_append, List.flatMap_append, trimSpace, hInner, List.append_assoc]
  · intro b hb
    refine hWhite inner.reverse b ?_
    obtain ⟨p, hp, hMem⟩ := List.mem_flatMap.mp hb
    exact List.mem_flatMap.mpr ⟨p, List.mem_reverse.mp hp, hMem⟩

theorem trimSpace_append_space (s : Text) : trimSpace (s ++ [32]) = trimSpace s := by
  have hSpace : (Piece.char (byteChar 32)).isSpace = true := isSpaceChar_byteChar (by decide)
  have hPieces : pieces (s ++ [32]) = pieces s ++ [Piece.char (byteChar 32)] := by
    rw [pieces_append_cons (by decide), pieces]
  rw [trimSpace, trimSpace, hPieces, List.dropWhile_append]
  split
  · rename_i hNone
    rw [List.isEmpty_iff.mp hNone, List.dropWhile_cons_of_pos hSpace]
    rfl
  · rw [List.reverse_append, List.reverse_singleton, List.singleton_append,
      List.dropWhile_cons_of_pos hSpace]

theorem pieces_ne_nil {s : Text} (h : s ≠ []) : pieces s ≠ [] := by
  obtain ⟨b, r, rfl⟩ := List.exists_cons_of_ne_nil h
  rw [pieces]
  exact List.cons_ne_nil _ _

/-- Trimming keeps a text that begins with no white space and ends with an ASCII byte that is none. -/
theorem trimSpace_concat {s : Text} {b : UInt8} (hb : b < 128) (hSpace : isSpace b = false)
    (hFirst : ∀ p ∈ (pieces (s ++ [b])).head?, p.isSpace = false) :
    trimSpace (s ++ [b]) = s ++ [b] := by
  refine trimSpace_of_ends hFirst ?_
  rw [pieces_append_cons hb, pieces, List.getLast?_concat]
  rintro p ⟨⟩
  exact (isSpaceChar_byteChar hb).trans hSpace

/-- Trimming takes white space away up to the first ASCII byte that is none. -/
theorem exists_trimSpace_cons {w : Text} {b : UInt8} (hw : ∀ c ∈ w, isSpace c = true) (hb : b < 128)
    (hSpace : isSpace b = false) (r : Text) : ∃ t, trimSpace (w ++ b :: r) = b :: t := by
  have hAscii : IsAscii w := fun c hc => by
    have hc := hw c hc
    simp only [isSpace, Bool.or_eq_true, Bool.and_eq_true, decide_eq_true_eq] at hc
    rcases hc with rfl | ⟨_, hLow⟩
    · decide
    · exact UInt8.lt_of_le_of_lt hLow (by decide)
  have hInner : (pieces (w ++ b :: r)).dropWhile Piece.isSpace = .char (byteChar b) :: pieces r := by
    rw [pieces_append_cons hb, pieces_of_isAscii hAscii, List.dropWhile_append_of_pos,
      List.dropWhile_cons_of_neg]
    · simp [Piece.isSpace, isSpaceChar_byteChar hb, hSpace]
    · intro p hp
      obtain ⟨c, hc, rfl⟩ := List.mem_map.mp hp
      rw [Piece.isSpace, isSpaceChar_byteChar (hAscii c hc), hw c hc]
  have hLast : [Piece.char (byteChar b)].dropWhile Piece.isSpace = [.char (byteChar b)] :=
    List.dropWhile_cons_of_neg (by simp [Piece.isSpace, isSpaceChar_byteChar hb, hSpace])
  obtain ⟨ps, hKept⟩ : ∃ ps, ((pieces r).reverse ++ [Piece.char (byteChar b)]).dropWhile
      Piece.isSpace = ps ++ [Piece.char (byteChar b)] := by
    rw [List.dropWhile_append, hLast]
    split
    · exact ⟨[], rfl⟩
    · exact ⟨_, rfl⟩
  rw [trimSpace, hInner, List.reverse_cons, hKept, List.reverse_append, List.flatMap_append]
  exact ⟨ps.reverse.flatMap Piece.bytes, by simp [Piece.bytes, utf8EncodeChar_byteChar hb]⟩

end AnchorScript.Text
