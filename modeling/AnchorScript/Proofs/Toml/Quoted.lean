import AnchorScript.Proofs.Hash.Keccak256
import AnchorScript.Proofs.Toml.Lines
import AnchorScript.Proofs.Text.Cuts

/-!
# Entries with quoted values

A quoted text is one string on its line, or none: escapes that documents do not know are faults. So a
line that gives a quoted text to a bare key reads as that entry, or no document holds it.
-/

namespace AnchorScript.Toml

open Text.Quoted

theorem prepend_nil (body : Option (Text × Text)) : prepend [] body = body := by
  cases body <;> rfl

theorem prepend_append (a b : Text) (body : Option (Text × Text)) :
    prepend (a ++ b) body = prepend a (prepend b body) := by
  cases body with
  | none => rfl
  | some v => simp [prepend]

theorem basicBody_bytes {e : Text} (h : ∀ b ∈ e, 32 ≤ b ∧ b ≠ 34 ∧ b ≠ 92) (n : Nat) (r : Text) :
    basicBody false (n + e.length) (e ++ r) = prepend e (basicBody false n r) := by
  induction e with
  | nil => exact (prepend_nil _).symm
  | cons b e ih =>
    obtain ⟨⟨hLow, hQuote, hSlash⟩, he⟩ := List.forall_mem_cons.mp h
    rw [List.length_cons, ← Nat.add_assoc, List.cons_append,
      basicBody_byte false _ _ hQuote fun hb => absurd hb hSlash, if_pos (by simp [hLow, hSlash]),
      ih he, ← prepend_append, List.singleton_append]

/-- A string with an equals sign before its closing quote has it in its text. -/
theorem mem_of_basicBody {n : Nat} {e r t r' : Text} (h : ∀ b ∈ e, b ≠ 34 ∧ b ≠ 92)
    (hBody : basicBody false n (e ++ 61 :: r) = some (t, r')) : 61 ∈ t := by
  induction e generalizing n t with
  | nil =>
    cases n with
    | zero =>
      rw [basicBody] at hBody
      cases hBody
    | succ n =>
      rw [List.nil_append, basicBody_byte false n r (by decide) (by simp)] at hBody
      obtain ⟨t', _, rfl⟩ := prepend_eq_some hBody
      exact List.mem_cons_self
  | cons b e ih =>
    obtain ⟨⟨hQuote, hSlash⟩, he⟩ := List.forall_mem_cons.mp h
    cases n with
    | zero =>
      rw [basicBody] at hBody
      cases hBody
    | succ n =>
      rw [List.cons_append, basicBody_byte false n _ hQuote fun hb => absurd hb hSlash] at hBody
      split at hBody
      · obtain ⟨t', hRest, rfl⟩ := prepend_eq_some hBody
        exact List.mem_cons_of_mem _ (ih he hRest)
      · cases hBody

/-- The kinds of escapes, beside printable characters. -/
theorem escapeChar_cases {P : Text → Prop} {c : Char}
    (printable : c ≠ '"' → c ≠ '\\' → Text.isPrintable c = true → P (String.utf8EncodeChar c))
    (simple : ∀ b : UInt8, 32 ≤ b ∧ b < 128 → b ≠ 117 → b ≠ 85 → P [92, b])
    (byte : ∀ n, P (92 :: 120 :: hexDigits 2 n)) (short : ∀ n, P (92 :: 117 :: hexDigits 4 n))
    (long : ∀ n, P (92 :: 85 :: hexDigits 8 n)) : P (escapeChar c) := by
  rw [escapeChar]
  refine iteInduction (fun _ => simple 34 (by decide) (by decide) (by decide)) fun hQuote => ?_
  refine iteInduction (fun _ => simple 92 (by decide) (by decide) (by decide)) fun hSlash => ?_
  refine iteInduction (printable hQuote hSlash) fun _ => ?_
  refine iteInduction (fun _ => simple 97 (by decide) (by decide) (by decide)) fun _ => ?_
  refine iteInduction (fun _ => simple 98 (by decide) (by decide) (by decide)) fun _ => ?_
  refine iteInduction (fun _ => simple 102 (by decide) (by decide) (by decide)) fun _ => ?_
  refine iteInduction (fun _ => simple 110 (by decide) (by decide) (by decide)) fun _ => ?_
  refine iteInduction (fun _ => simple 114 (by decide) (by decide) (by decide)) fun _ => ?_
  refine iteInduction (fun _ => simple 116 (by decide) (by decide) (by decide)) fun _ => ?_
  refine iteInduction (fun _ => simple 118 (by decide) (by decide) (by decide)) fun _ => ?_
  refine iteInduction (fun _ => byte c.toNat) fun _ => ?_
  exact iteInduction (fun _ => short c.toNat) fun _ => long c.toNat

/-- The bytes are read as a part of a string, or as a fault, whatever stands behind them. -/
def Passes (e : Text) : Prop := e.head? ≠ some 34 ∧ ∃ c ≤ e.length, ∃ o : Option Text,
  ∀ n x, basicBody false (n + c) (e ++ x) = o.bind fun head => prepend head (basicBody false n x)

theorem passes_nil : Passes [] :=
  ⟨by simp, 0, Nat.le_refl 0, some [], fun n x => (prepend_nil _).symm⟩

theorem Passes.append {e e' : Text} (h : Passes e) (h' : Passes e') : Passes (e ++ e') := by
  obtain ⟨hHead, c, hc, o, hRead⟩ := h
  obtain ⟨hHead', c', hc', o', hRead'⟩ := h'
  refine ⟨?_, c' + c, by rw [List.length_append]; omega,
    o.bind fun a => o'.map (a ++ ·), fun n x => ?_⟩
  · cases e with
    | nil => exact hHead'
    | cons => exact hHead
  · rw [List.append_assoc, ← Nat.add_assoc, hRead, hRead']
    cases o with
    | none => rfl
    | some a =>
      cases o' with
      | none => rfl
      | some b => exact (prepend_append a b _).symm

theorem passes_bytes {e : Text} (h : ∀ b ∈ e, 32 ≤ b ∧ b ≠ 34 ∧ b ≠ 92) : Passes e := by
  refine ⟨fun hHead => ?_, e.length, Nat.le_refl _, some e, basicBody_bytes h⟩
  exact (h 34 (List.mem_of_mem_head? hHead)).2.1 rfl

theorem passes_escape {b : UInt8} (hU : b ≠ 117) (hLong : b ≠ 85) : Passes [92, b] := by
  refine ⟨by simp, 1, by simp, (simpleEscape? b).map ([·]), fun n x => ?_⟩
  rw [List.cons_append, List.singleton_append, basicBody_escape false n x hU hLong]
  cases simpleEscape? b <;> rfl

/-- An escape of a byte by its number is a fault. -/
theorem passes_fault (ds : Text) : Passes (92 :: 120 :: ds) := by
  refine ⟨by simp, 1, by simp, none, fun n x => ?_⟩
  rw [List.cons_append, List.cons_append, basicBody_escape false n _ (by decide) (by decide)]
  rfl

theorem passes_coded {b : UInt8} {ds : Text} (h : b = 117 ∧ ds.length = 4 ∨ b = 85 ∧ ds.length = 8) :
    Passes (92 :: b :: ds) := by
  have hCoded (n : Nat) (x : Text) : basicBody false (n + 1) (92 :: b :: (ds ++ x)) =
      codedBody ds.length false n (ds ++ x) := by
    rcases h with ⟨rfl, hLength⟩ | ⟨rfl, hLength⟩
    · rw [hLength]
      exact basicBody_unicode false n _
    · rw [hLength]
      exact basicBody_longUnicode false n _
  refine ⟨by simp, 1, by simp, (hexNumber? ds).bind codePoint?, fun n x => ?_⟩
  rw [List.cons_append, List.cons_append, hCoded, codedBody, if_neg (by simp), List.take_left,
    List.drop_left, Option.bind_assoc]

theorem length_hexDigits (w n : Nat) : (hexDigits w n).length = w := by
  induction w generalizing n with
  | zero => rfl
  | succ w ih => rw [hexDigits, List.length_append, ih, List.length_singleton]

theorem printable_byte {b : UInt8} (hb : b < 128) :
    Text.isPrintable (Text.byteChar b) = true → 32 ≤ b :=
  Text.forall_ascii (P := fun b => Text.isPrintable (Text.byteChar b) = true → 32 ≤ b)
    (by decide +kernel) hb

theorem passes_printable {c : Char} (hQuote : c ≠ '"') (hSlash : c ≠ '\\')
    (h : Text.isPrintable c = true) : Passes (String.utf8EncodeChar c) := by
  refine passes_bytes fun b hb => ?_
  by_cases hAscii : b < 128
  · obtain rfl := Text.byteChar_of_mem_utf8EncodeChar hb hAscii
    refine ⟨printable_byte hAscii h, ?_, ?_⟩
    · rintro rfl
      exact hQuote rfl
    · rintro rfl
      exact hSlash rfl
  · have hHigh : 128 ≤ b := UInt8.not_lt.mp hAscii
    refine ⟨UInt8.le_trans (by decide) hHigh, ?_, ?_⟩ <;> rintro rfl <;> exact hAscii (by decide)

theorem passes_escapeChar (c : Char) : Passes (escapeChar c) := by
  refine escapeChar_cases passes_printable (fun b _ hU hLong => passes_escape hU hLong)
    (fun n => passes_fault _) (fun n => ?_) fun n => ?_
  · exact passes_coded (.inl ⟨rfl, length_hexDigits 4 n⟩)
  · exact passes_coded (.inr ⟨rfl, length_hexDigits 8 n⟩)

theorem passes_pieces (ps : List Text.Piece) : Passes (ps.flatMap escapePiece) := by
  induction ps with
  | nil => exact passes_nil
  | cons p ps ih =>
    rw [List.flatMap_cons]
    refine Passes.append ?_ ih
    cases p with
    | char c => exact passes_escapeChar c
    | stray b => exact passes_fault _

theorem forall_mem_hexDigits {P : UInt8 → Prop} (h : ∀ n < 16, P (Text.hexDigit (Nat.toUInt8 n)))
    (w n : Nat) : ∀ b ∈ hexDigits w n, P b := by
  induction w generalizing n with
  | zero => exact fun b hb => by cases hb
  | succ w ih =>
    intro b hb
    rcases List.mem_append.mp hb with hb | hb
    · exact ih _ b hb
    · rw [List.mem_singleton.mp hb]
      exact h _ (Nat.mod_lt _ (by decide))

theorem forall_mem_hexByte {P : UInt8 → Prop} (h : ∀ n < 16, P (Text.hexDigit (Nat.toUInt8 n)))
    (b : UInt8) : ∀ c ∈ Text.hexByte b, P c := fun c hc => by
  have hHex : c ∈ Text.hex [b] := by rwa [Text.hex, List.flatMap_singleton]
  exact Text.forall_isHexDigit h (Text.isHexDigit_of_mem_hex hHex)

theorem isAscii_hexDigits (w n : Nat) : Text.IsAscii (hexDigits w n) :=
  forall_mem_hexDigits (P := (· < 128)) (by decide) w n

theorem isAscii_hexByte (b : UInt8) : Text.IsAscii (Text.hexByte b) :=
  forall_mem_hexByte (P := (· < 128)) (by decide) b

theorem mended_escapePiece_append (p : Text.Piece) (r : Text) :
    Text.mended (escapePiece p ++ r) = escapePiece p ++ Text.mended r := by
  have hEscape {b : UInt8} {e : Text} (hb : b < 128) (he : Text.IsAscii e) :
      Text.mended (92 :: b :: e ++ r) = 92 :: b :: e ++ Text.mended r :=
    Text.mended_append (List.forall_mem_cons.mpr ⟨by decide, List.forall_mem_cons.mpr ⟨hb, he⟩⟩) r
  cases p with
  | stray b => exact hEscape (by decide) (isAscii_hexByte b)
  | char c =>
    refine escapeChar_cases (P := fun e => Text.mended (e ++ r) = e ++ Text.mended r) (fun _ _ _ => ?_)
      (fun b hb _ _ => hEscape hb.2 fun c hc => by cases hc)
      (fun n => hEscape (by decide) (isAscii_hexDigits 2 n))
      (fun n => hEscape (by decide) (isAscii_hexDigits 4 n))
      fun n => hEscape (by decide) (isAscii_hexDigits 8 n)
    rw [Text.mended, Text.chars, Text.pieces_utf8EncodeChar_append]
    rfl

theorem mended_pieces (ps : List Text.Piece) (r : Text) :
    Text.mended (ps.flatMap escapePiece ++ r) = ps.flatMap escapePiece ++ Text.mended r := by
  induction ps with
  | nil => rfl
  | cons p ps ih =>
    rw [List.flatMap_cons, List.append_assoc, mended_escapePiece_append, ih, List.append_assoc]

theorem mended_quoted (s : Text) : Text.mended (Text.quoted s) = Text.quoted s := by
  rw [Text.quoted, List.append_assoc, Text.mended_append (by decide +kernel), mended_pieces,
    Text.mended_of_isAscii (by decide +kernel)]

theorem le_of_mem_escapePiece (p : Text.Piece) : ∀ b ∈ escapePiece p, 32 ≤ b := by
  have hEscape {b : UInt8} {e : Text} (hb : 32 ≤ b) (he : ∀ c ∈ e, 32 ≤ c) :
      ∀ c ∈ 92 :: b :: e, (32 : UInt8) ≤ c :=
    List.forall_mem_cons.mpr ⟨by decide, List.forall_mem_cons.mpr ⟨hb, he⟩⟩
  have hDigits := forall_mem_hexDigits (P := (32 ≤ ·)) (by decide)
  cases p with
  | stray b => exact hEscape (by decide) (forall_mem_hexByte (P := (32 ≤ ·)) (by decide) b)
  | char c =>
    refine escapeChar_cases (P := fun e => ∀ b ∈ e, 32 ≤ b) (fun _ _ hPrintable b hb => ?_)
      (fun b hb _ _ => hEscape hb.1 fun c hc => by cases hc)
      (fun n => hEscape (by decide) (hDigits 2 n)) (fun n => hEscape (by decide) (hDigits 4 n))
      fun n => hEscape (by decide) (hDigits 8 n)
    by_contra hLow
    have hControl : ∀ n < 32, Text.isPrintable (Text.byteChar (UInt8.ofNat n)) = false := by decide
    have hUnseen := hControl b.toNat (UInt8.lt_iff_toNat_lt.mp (UInt8.not_le.mp hLow))
    have hAscii : b < 128 := UInt8.lt_trans (UInt8.not_le.mp hLow) (by decide)
    rw [UInt8.ofNat_toNat, Text.byteChar_of_mem_utf8EncodeChar hb hAscii, hPrintable] at hUnseen
    cases hUnseen

/-- A quoted text has no control characters in it, so it is one line. -/
theorem le_of_mem_quoted {s : Text} {b : UInt8} (hb : b ∈ Text.quoted s) : 32 ≤ b := by
  have hQuote : Text.ofString "\"" = [34] := rfl
  rw [Text.quoted, hQuote, List.mem_append, List.mem_append, List.mem_singleton] at hb
  rcases hb with (rfl | hb) | rfl
  · decide
  · obtain ⟨p, _, hMem⟩ := List.mem_flatMap.mp hb
    exact le_of_mem_escapePiece p b hMem
  · decide

theorem readString_quoted (s : Text) : ∃ o : Option Text, ∀ y, Follows y →
    readString (Text.quoted s ++ y) = o.map (·, y) := by
  obtain ⟨hHead, c, hc, o, hRead⟩ := passes_pieces (Text.pieces s)
  generalize hText : (Text.pieces s).flatMap escapePiece = e at *
  refine ⟨o, fun y hy => ?_⟩
  have hQuoted : Text.quoted s ++ y = 34 :: (e ++ 34 :: y) := by
    rw [Text.quoted, hText]
    change [34] ++ e ++ [34] ++ y = _
    simp
  have hSingle : Text.dropStart? "\"\"" (e ++ 34 :: y) = none := by
    rw [show Text.ofString "\"\"" = [34, 34] from rfl]
    cases e with
    | nil => rcases hy with rfl | ⟨x, rfl⟩ <;> rfl
    | cons b e => simp [Text.dropStart?, Ne.symm (show b ≠ 34 by simpa using hHead)]
  rw [hQuoted, readString_double, hSingle]
  obtain ⟨n, hn⟩ : ∃ n, (e ++ 34 :: y).length + 1 = n + 1 + c :=
    ⟨(e ++ 34 :: y).length - c, by rw [List.length_append]; omega⟩
  dsimp only
  rw [hn, hRead, basicBody_quote]
  cases o <;> simp [prepend]

/-- The key needs no quotes. -/
def isBareKey (k : Text) : Bool := !k.isEmpty && k.all isKeyByte

variable {name : Text}

theorem readKey_bare (hName : isBareKey name = true) {s : Text}
    (hEnd : ∀ b ∈ s.head?, isKeyByte b = false) : readKey (name ++ s) = some (name, s) := by
  rw [isBareKey, Bool.and_eq_true, List.all_eq_true] at hName
  have hTaken : (name ++ s).takeWhile isKeyByte = name := by
    rw [List.takeWhile_append_of_pos hName.2]
    cases s with
    | nil => simp
    | cons b s => rw [List.takeWhile_cons_of_neg (by simp [hEnd b rfl]), List.append_nil]
  have hLeft : (name ++ s).dropWhile isKeyByte = s := by
    rw [List.dropWhile_append_of_pos hName.2]
    cases s with
    | nil => rfl
    | cons b s => exact List.dropWhile_cons_of_neg (by simp [hEnd b rfl])
  rw [readKey_eq, hTaken, hLeft, if_neg (by simpa using hName.1)]

theorem exists_cons_of_isBareKey (hName : isBareKey name = true) :
    ∃ b r, isKeyByte b = true ∧ name = b :: r := by
  rw [isBareKey, Bool.and_eq_true, List.all_eq_true] at hName
  cases name with
  | nil => cases hName.1
  | cons b r => exact ⟨b, r, hName.2 b List.mem_cons_self, rfl⟩

theorem skipBlanks_bare (hName : isBareKey name = true) (s : Text) :
    skipBlanks (name ++ s) = name ++ s := by
  obtain ⟨b, r, hb, rfl⟩ := exists_cons_of_isBareKey hName
  have hBlank : isBlank b = false := (Bool.or_eq_false_iff.mp (isGap_of_isKeyByte hb)).1
  exact List.dropWhile_cons_of_neg (by simp [hBlank])

/-- A line that gives a quoted text to a bare key. -/
theorem readEntry_quoted (hName : isBareKey name = true) (s : Text) : ∃ o : Option Text,
    ∀ y, Follows y → readEntry (name ++ " = " ++ Text.quoted s ++ y) =
      o.map fun t => (.entry name (.string t), y) := by
  obtain ⟨o, hString⟩ := readString_quoted s
  refine ⟨o, fun y hy => ?_⟩
  have hValue (n : Nat) : readValue (n + 1) (Text.quoted s ++ y) = o.map fun t => (.string t, y) := by
    have hLiteral : readLiteral (Text.quoted s ++ y) = none := rfl
    have hRest : readRest n (Text.quoted s ++ y) = none := readRest_of_quote n (.inl rfl)
    rw [readValue_succ, hLiteral, hString y hy]
    cases o with
    | none => exact hRest
    | some t => rfl
  have hEnd : skipComment (skipBlanks y) = y := by rcases hy with rfl | ⟨x, rfl⟩ <;> rfl
  have hKey : readKey (name ++ " = " ++ Text.quoted s ++ y) =
      some (name, 32 :: 61 :: 32 :: (Text.quoted s ++ y)) := by
    rw [List.append_assoc, List.append_assoc]
    exact readKey_bare hName (by rintro b ⟨⟩; rfl)
  have hSign : behind? 61 (skipBlanks (32 :: 61 :: 32 :: (Text.quoted s ++ y))) =
      some (32 :: (Text.quoted s ++ y)) := rfl
  have hBlank : skipBlanks (32 :: (Text.quoted s ++ y)) = Text.quoted s ++ y := rfl
  rw [readEntry_eq, pairAt_succ, hKey, Option.bind_some]
  dsimp only
  rw [hSign, Option.bind_some, hBlank, hValue]
  cases o with
  | none => rfl
  | some t => simp [hEnd]

theorem reads_quoted (hName : isBareKey name = true) (s : Text) : ∃ o : Option Text,
    Reads (name ++ " = " ++ Text.quoted s) (o.map fun t => [.entry name (.string t)]) := by
  obtain ⟨o, hEntry⟩ := readEntry_quoted hName s
  have hBlanks : skipBlanks (name ++ " = " ++ Text.quoted s) = name ++ " = " ++ Text.quoted s := by
    rw [List.append_assoc, skipBlanks_bare hName]
  refine ⟨o, ?_⟩
  cases o with
  | none =>
    obtain ⟨b, r, hb, hCons⟩ := exists_cons_of_isBareKey hName
    refine .fault ⟨b, by rw [hBlanks, hCons]; rfl, hb⟩ fun y hy => ?_
    rw [hBlanks, hEntry y hy]
    rfl
  | some t =>
    refine .entry (r := []) ?_ (by simp [IsReturns])
    have hRead := hEntry [] (.inl rfl)
    rw [List.append_nil] at hRead
    rw [hBlanks, hRead]
    rfl

end AnchorScript.Toml
