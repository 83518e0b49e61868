import AnchorScript.ProgramTable
import AnchorScript.Proofs.Toml.Quoted
import AnchorScript.Proofs.Toml.Tables

/-!
# The lines of a table of ids

The editor finds a table and an entry by the texts of their lines. Where a line is an expression by
itself and no key holds an equals sign, what it finds is what the document says there: the line of a
header names the table, and a line that sets a name is the entry with this key.
-/

namespace AnchorScript.ProgramTable

open Toml Text

theorem isAscii_of_isKeyByte {b : UInt8} (h : isKeyByte b = true) : b < 128 := by
  simp only [isKeyByte, isLetter, isLower, isUpper, isDigit, Bool.or_eq_true, Bool.and_eq_true,
    decide_eq_true_eq] at h
  rcases h with (((⟨_, h⟩ | ⟨_, h⟩) | ⟨_, h⟩) | rfl) | rfl
  all_goals first | exact UInt8.lt_of_le_of_lt h (by decide) | decide

theorem plain_of_isKeyByte {b : UInt8} (h : isKeyByte b = true) : 32 ≤ b ∧ b ≠ 34 ∧ b ≠ 92 :=
  forall_ascii (P := fun b => isKeyByte b = true → 32 ≤ b ∧ b ≠ 34 ∧ b ≠ 92) (by decide)
    (isAscii_of_isKeyByte h) h

theorem not_isWhite_of_isKeyByte {b : UInt8} (h : isKeyByte b = true) : ¬IsWhite b := by
  have hAscii := isAscii_of_isKeyByte h
  have hSpace : isKeyByte b = true → isSpace b = false :=
    forall_ascii (P := fun b => isKeyByte b = true → isSpace b = false) (by decide) hAscii
  rintro (hWhite | hHigh)
  · rw [hSpace h] at hWhite
    cases hWhite
  · exact UInt8.not_lt.mpr hHigh hAscii

variable {l w s : Text} {b : UInt8} {is : List Item}

theorem isBlank_of_not_isWhite (hb : ¬IsWhite b) : isBlank b = false := by
  cases hBlank : isBlank b with
  | false => rfl
  | true =>
    rw [isBlank, Bool.or_eq_true, decide_eq_true_eq, decide_eq_true_eq] at hBlank
    exact (hb (by rcases hBlank with rfl | rfl <;> decide)).elim

/-- White space before the first word of a line that can be read is blanks. -/
theorem skipBlanks_of_reads (hw : ∀ c ∈ w, IsWhite c) (hb : ¬IsWhite b) 
    (h : Reads (w ++ b :: s) (some is)) : skipBlanks (w ++ b :: s) = b :: s := by
  have hBlank := isBlank_of_not_isWhite hb
  have hSkip : skipBlanks (b :: s) = b :: s :=
    List.dropWhile_cons_of_neg (by simp [hBlank])
  rw [skipBlanks, List.dropWhile_append]
  split
  · exact hSkip
  · rename_i hSome
    obtain ⟨c, w', hc⟩ := List.exists_cons_of_ne_nil (show w.dropWhile isBlank ≠ [] by simpa using hSome)
    have hLine : skipBlanks (w ++ b :: s) = c :: (w' ++ b :: s) := by
      rw [skipBlanks, List.dropWhile_append, if_neg hSome, hc, List.cons_append]
    have hWhite : IsWhite c := hw c ((List.dropWhile_sublist isBlank).subset (hc ▸ List.mem_cons_self))
    exfalso
    cases h with
    | nothing hStart hRest =>
      rcases comment_or_returns hStart hRest with ⟨s', hs⟩ | hReturns
      · rw [hLine] at hs
        rw [(List.cons.inj hs).1] at hWhite
        revert hWhite
        decide
      · rw [hLine] at hReturns
        exact hb (by rw [hReturns b (by simp)]; decide)
    | header hRead =>
      obtain ⟨s', hs⟩ := exists_of_readHeader hRead
      rw [hLine] at hs
      rw [(List.cons.inj hs).1] at hWhite
      revert hWhite
      decide
    | entry hRead =>
      obtain ⟨b', s', hs, hb'⟩ := exists_of_readEntry hRead
      rw [hLine] at hs
      rw [(List.cons.inj hs).1] at hWhite
      rcases hb' with hKey | rfl
      · exact not_isWhite_of_isKeyByte hKey hWhite
      · revert hWhite
        decide

theorem header_eq (c : Text) :
    header c = 91 :: (Text.ofString "programs" ++ 46 :: (c ++ [93])) := rfl

/-- The way to the table of a cluster. -/
def way (c : Text) : List Text := [Text.ofString "programs", c]

theorem readHeader_header {c : Text} (hc : isBareKey c = true) (r : Text) :
    readHeader (header c ++ r) = some (.header (way c), r) := by
  have hInner (n : Nat) : readNames (n + 1) (c ++ 93 :: r) = some ([c], 93 :: r) := by
    rw [readNames_succ, readKey_bare hc (by rintro b ⟨⟩; rfl)]
    rfl
  have hNames (n : Nat) : readNames (n + 2) (Text.ofString "programs" ++ 46 :: (c ++ 93 :: r)) =
      some (way c, 93 :: r) := by
    have hPoint : behind? 46 (skipBlanks (46 :: (c ++ 93 :: r))) = some (c ++ 93 :: r) := rfl
    rw [readNames_succ, readKey_bare (by decide) (by rintro b ⟨⟩; rfl), Option.bind_some]
    dsimp only
    rw [hPoint]
    dsimp only
    rw [skipBlanks_bare hc, hInner]
    rfl
  have hSingle : bracketed "[" "]" (header c ++ r) = some (way c, r) := by
    have hText : header c ++ r = 91 :: (Text.ofString "programs" ++ 46 :: (c ++ 93 :: r)) := by
      rw [header_eq]
      simp
    have hOpen (z : Text) : Text.dropStart? "[" (91 :: z) = some z := rfl
    have hClose (z : Text) : Text.dropStart? "]" (skipBlanks (93 :: z)) = some z := rfl
    obtain ⟨n, hn⟩ : ∃ n, (Text.ofString "programs" ++ 46 :: (c ++ 93 :: r)).length + 1 = n + 2 :=
      ⟨(Text.ofString "programs").length + (c ++ 93 :: r).length, by
        rw [List.length_append, List.length_cons]; omega⟩
    rw [bracketed, hText, hOpen, Option.bind_some, skipBlanks_bare (by decide), hn, hNames,
      Option.bind_some]
    dsimp only
    rw [hClose]
    rfl
  rw [readHeader_eq, hSingle]

theorem isAscii_of_isBareKey {c : Text} (hc : isBareKey c = true) : IsAscii c := fun b hb => by
  rw [isBareKey, Bool.and_eq_true, List.all_eq_true] at hc
  exact isAscii_of_isKeyByte (hc.2 b hb)

theorem isAscii_header {c : Text} (hc : isBareKey c = true) : IsAscii (header c) := by
  intro b hb
  rw [header, List.mem_append, List.mem_append] at hb
  rcases hb with (hb | hb) | hb
  · exact (show IsAscii "[programs." by decide +kernel) b hb
  · exact isAscii_of_isBareKey hc b hb
  · exact (show IsAscii "]" by decide +kernel) b hb

/-- The line that the editor takes for the header of a cluster is this header. -/
theorem items_of_header {c : Text} (hc : isBareKey c = true) (hHeader : trimSpace l = header c)
    (h : Reads (mended l) (some is)) : is = [.header (way c)] := by
  obtain ⟨before, after, hLine, hBefore, hAfter⟩ := exists_around_trimSpace l
  rw [hHeader] at hLine
  have hMended : mended l = mended before ++ 91 :: ((header c).tail ++ mended after) := by
    rw [hLine, mended_around (isAscii_header hc) (by simp [header_eq]), List.append_assoc]
    rfl
  rw [hMended] at h
  have hStart := skipBlanks_of_reads (isWhite_of_mem_mended hBefore) (by decide) h
  cases h with
  | nothing hHead =>
    rw [hStart] at hHead
    exact absurd (hHead 91 rfl) (by decide)
  | header hRead =>
    rw [hStart] at hRead
    have hThis := readHeader_header hc (mended after)
    rw [show header c ++ mended after = 91 :: ((header c).tail ++ mended after) from rfl, hRead] at hThis
    cases hThis
    rfl
  | entry hRead =>
    obtain ⟨b', s', hs, hb'⟩ := exists_of_readEntry hRead
    rw [hStart] at hs
    rw [← (List.cons.inj hs).1] at hb'
    exact absurd hb' (by decide)

theorem reads_header {c : Text} (hc : isBareKey c = true) :
    Reads (mended (header c)) (some [.header (way c)]) := by
  have hMended : mended (header c) = header c := by
    have hNil : mended [] = [] := mended_eq_nil_iff.mpr rfl
    rw [← List.append_nil (header c), mended_append (isAscii_header hc), hNil]
  have hBlanks : skipBlanks (header c) = header c := rfl
  have hRead := readHeader_header hc []
  rw [List.append_nil] at hRead
  rw [hMended]
  exact .header (r := []) (by rw [hBlanks, hRead]) (by simp [IsReturns, skipBlanks, skipComment])

/-- Between two headers every line says nothing or gives a value to a key. -/
theorem isEntry_of_beginsTable (hTable : beginsTable l = false)
    (h : Reads (mended l) (some is)) : ∀ i ∈ is, i.IsEntry := by
  cases h with
  | nothing => exact fun i hi => by cases hi
  | entry hRead =>
    rw [readEntry_eq] at hRead
    obtain ⟨v, _, hItem⟩ := Option.map_eq_some_iff.mp hRead
    cases hItem
    exact List.forall_mem_singleton.mpr trivial
  | header hRead =>
    exfalso
    obtain ⟨s', hs⟩ := exists_of_readHeader hRead
    have hBlanks (b : UInt8) (hb : b ∈ (mended l).takeWhile isBlank) : b = 32 ∨ b = 9 := by
      have := List.all_eq_true.mp List.all_takeWhile b hb
      rwa [isBlank, Bool.or_eq_true, decide_eq_true_eq, decide_eq_true_eq] at this
    have hMended : mended l = (mended l).takeWhile isBlank ++ 91 :: s' := by
      rw [← hs]
      exact List.takeWhile_append_dropWhile.symm
    obtain ⟨r, hLine, hRest⟩ := exists_append_of_mended
      (fun b hb => by rcases hBlanks b hb with rfl | rfl <;> decide) hMended
    obtain ⟨r', rfl, _⟩ := exists_cons_of_mended hRest (by decide)
    obtain ⟨t, hTrim⟩ := exists_trimSpace_cons
      (fun b hb => by rcases hBlanks b hb with rfl | rfl <;> rfl) (show (91 : UInt8) < 128 by decide)
      rfl r'
    rw [← hLine] at hTrim
    rw [beginsTable, hTrim] at hTable
    cases hTable

/-- The text between the quotes that are trimmed from both ends. -/
theorem exists_quotes (s : Text) : ∃ quotes quotes',
    s = quotes ++ trimRight (· = 34) (trimLeft (· = 34) s) ++ quotes' ∧
      (∀ b ∈ quotes, b = 34) ∧ ∀ b ∈ quotes', b = 34 := by
  have hTaken (t : Text) : ∀ b ∈ t.takeWhile (· = 34), b = 34 := fun b hb =>
    of_decide_eq_true (List.all_eq_true.mp List.all_takeWhile b hb)
  have hSplit (t : Text) := List.takeWhile_append_dropWhile (p := fun b : UInt8 => b = 34) (l := t)
  generalize hInner : trimLeft (· = 34) s = inner
  refine ⟨s.takeWhile (· = 34), (inner.reverse.takeWhile (· = 34)).reverse, ?_, hTaken s,
    fun b hb => hTaken _ b (List.mem_reverse.mp hb)⟩
  rw [trimRight, List.append_assoc, ← List.reverse_append, hSplit, List.reverse_reverse, ← hInner,
    trimLeft, hSplit]

theorem exists_takeWhile_cons {s : Text} (h : b ∈ s) :
    ∃ rest, s = s.takeWhile (· ≠ b) ++ b :: rest := by
  induction s with
  | nil => cases h
  | cons c s ih =>
    by_cases hc : c = b
    · exact ⟨s, by simp [hc]⟩
    · obtain ⟨rest, hRest⟩ := ih ((List.mem_cons.mp h).resolve_left (Ne.symm hc))
      exact ⟨rest, by rw [List.takeWhile_cons_of_pos (by simp [hc]), List.cons_append, ← hRest]⟩

theorem exists_of_sets {name : Text} (h : sets name l = true) : ∃ before quotes quotes' after rest,
    l = before ++ (quotes ++ name ++ quotes') ++ (after ++ 61 :: rest) ∧
      (∀ b ∈ before, IsWhite b) ∧ (∀ b ∈ quotes, b = 34) ∧ (∀ b ∈ quotes', b = 34) ∧
      ∀ b ∈ after, IsWhite b := by
  simp only [sets, Bool.and_eq_true, decide_eq_true_eq, List.contains_iff_mem] at h
  obtain ⟨⟨_, hSign⟩, hKey⟩ := h
  obtain ⟨left, right, hLine, hLeft, hRight⟩ := exists_around_trimSpace l
  generalize trimSpace l = inner at *
  obtain ⟨rest, hInner⟩ := exists_takeWhile_cons hSign
  generalize inner.takeWhile (· ≠ 61) = taken at *
  obtain ⟨before, after, hTaken, hBefore, hAfter⟩ := exists_around_trimSpace taken
  obtain ⟨quotes, quotes', hQuoted, hQuotes, hQuotes'⟩ := exists_quotes (trimSpace taken)
  rw [hKey] at hQuoted
  rw [hQuoted] at hTaken
  refine ⟨left ++ before, quotes, quotes', after, rest ++ right, ?_, ?_, hQuotes, hQuotes', hAfter⟩
  · rw [hLine, hInner, hTaken]
    simp only [List.append_assoc, List.cons_append]
  · exact List.forall_mem_append.mpr ⟨hLeft, hBefore⟩

theorem readKey_quote (r : Text) : readKey (34 :: r) = basicBody false (r.length + 1) r := by
  rw [readKey_eq]
  rfl

/-- A byte that begins a name with quotes before it. -/
def BeginsKey (b : UInt8) : Prop := b = 34 ∨ isKeyByte b = true

instance (b : UInt8) : Decidable (BeginsKey b) := inferInstanceAs (Decidable (_ ∨ _))

theorem BeginsKey.not_isWhite (hb : BeginsKey b) : ¬IsWhite b := by
  rcases hb with rfl | hb
  · decide
  · exact not_isWhite_of_isKeyByte hb

theorem BeginsKey.no_sign (hb : BeginsKey b) (s : Text) : behind? 61 (skipBlanks (b :: s)) = none := by
  have hBlank := isBlank_of_not_isWhite hb.not_isWhite
  rw [skipBlanks, List.dropWhile_cons_of_neg (by simp [hBlank])]
  refine if_neg ?_
  rintro rfl
  exact absurd hb (by decide)

theorem exists_beginsKey {name quotes : Text} (hName : isBareKey name = true)
    (hQuotes : ∀ b ∈ quotes, b = 34) : ∃ b z, BeginsKey b ∧ quotes ++ name = b :: z := by
  cases quotes with
  | cons q quotes => exact ⟨q, _, .inl (hQuotes q List.mem_cons_self), rfl⟩
  | nil =>
    obtain ⟨b, z, hb, rfl⟩ := exists_cons_of_isBareKey hName
    exact ⟨b, z, .inr hb, rfl⟩

/-- A key that is the name with quotes around it, or holds an equals sign. -/
theorem key_eq {name quotes quotes' after rest k r r' : Text} (hName : isBareKey name = true)
    (hQuotes : ∀ b ∈ quotes, b = 34) (hQuotes' : ∀ b ∈ quotes', b = 34)
    (hAfter : ∀ b ∈ after, IsWhite b)
    (hKey : readKey (quotes ++ name ++ quotes' ++ (after ++ 61 :: rest)) = some (k, r))
    (hSign : behind? 61 (skipBlanks r) = some r') (hNoSign : 61 ∉ k) : k = name := by
  have hPlain : ∀ b ∈ name, 32 ≤ b ∧ b ≠ 34 ∧ b ≠ 92 := by
    rw [isBareKey, Bool.and_eq_true, List.all_eq_true] at hName
    exact fun b hb => plain_of_isKeyByte (hName.2 b hb)
  cases quotes with
  | nil =>
    rw [List.nil_append, List.append_assoc, readKey_bare hName] at hKey
    · cases hKey
      rfl
    · intro b hb
      rcases quotes' with - | ⟨q, quotes'⟩
      · rcases after with - | ⟨c, after⟩
        · cases hb
          rfl
        · cases hb
          cases hKeyByte : isKeyByte b with
          | false => rfl
          | true => exact absurd (hAfter b List.mem_cons_self) (not_isWhite_of_isKeyByte hKeyByte)
      · cases hb
        rw [hQuotes' b List.mem_cons_self]
        rfl
  | cons q quotes =>
    obtain ⟨rfl, hInner⟩ := List.forall_mem_cons.mp hQuotes
    rw [List.cons_append, List.cons_append, List.cons_append, readKey_quote] at hKey
    cases quotes with
    | nil =>
      obtain ⟨n, hn⟩ : ∃ n, ([] ++ name ++ quotes' ++ (after ++ 61 :: rest)).length + 1 =
          n + name.length :=
        ⟨(quotes' ++ (after ++ 61 :: rest)).length + 1, by
          simp only [List.nil_append, List.length_append]; omega⟩
      rw [hn, List.nil_append, List.append_assoc, basicBody_bytes hPlain] at hKey
      obtain ⟨k', hRest, rfl⟩ := prepend_eq_some hKey
      cases quotes' with
      | nil =>
        refine absurd (List.mem_append_right name (mem_of_basicBody (fun b hb => ?_) hRest)) hNoSign
        refine ⟨?_, ?_⟩ <;> rintro rfl <;> exact absurd (hAfter _ hb) (by decide)
      | cons q quotes' =>
        rw [hQuotes' q List.mem_cons_self, List.cons_append] at hRest
        cases n with
        | zero =>
          rw [basicBody] at hRest
          cases hRest
        | succ n =>
          rw [basicBody_quote] at hRest
          cases hRest
          exact List.append_nil name
    | cons q quotes =>
      rw [hInner q List.mem_cons_self, List.cons_append, List.cons_append, List.cons_append,
        basicBody_quote] at hKey
      obtain ⟨b, z, hb, hz⟩ := exists_beginsKey hName (List.forall_mem_cons.mp hInner).2
      cases hKey
      rw [hz, List.cons_append, List.cons_append, hb.no_sign] at hSign
      cases hSign

/-- The line that the editor takes for the entry of a name is the entry with this key. -/
theorem items_of_sets {name : Text} (hName : isBareKey name = true) (hSets : sets name l = true)
    (h : Reads (mended l) (some is)) (hKeys : ∀ k v, .entry k v ∈ is → 61 ∉ k) :
    ∃ v, is = [.entry name v] := by
  obtain ⟨before, quotes, quotes', after, rest, hLine, hBefore, hQuotes, hQuotes', hAfter⟩ :=
    exists_of_sets hSets
  obtain ⟨b, z, hb, hz⟩ := exists_beginsKey hName hQuotes
  have hAscii : IsAscii (quotes ++ name ++ quotes') := by
    have hQuote {quotes : Text} (h : ∀ b ∈ quotes, b = 34) : IsAscii quotes := fun b hb => by
      rw [h b hb]
      decide
    exact List.forall_mem_append.mpr
      ⟨List.forall_mem_append.mpr ⟨hQuote hQuotes, isAscii_of_isBareKey hName⟩, hQuote hQuotes'⟩
  have hMended : mended l = mended before ++ b :: (z ++ quotes' ++
      (mended after ++ 61 :: mended rest)) := by
    rw [hLine, mended_around hAscii (by simp [hz]), mended_append_cons (by decide), hz]
    simp only [List.append_assoc, List.cons_append]
  rw [hMended] at h
  have hStart := skipBlanks_of_reads (isWhite_of_mem_mended hBefore) hb.not_isWhite h
  cases h with
  | nothing hHead =>
    rw [hStart] at hHead
    rcases hHead b rfl with rfl | rfl <;> exact absurd hb (by decide)
  | header hRead =>
    obtain ⟨s', hs⟩ := exists_of_readHeader hRead
    rw [hStart] at hs
    rw [(List.cons.inj hs).1] at hb
    exact absurd hb (by decide)
  | entry hRead =>
    rw [hStart, readEntry_eq, pairAt_succ] at hRead
    obtain ⟨⟨e, r⟩, hPair, hItem⟩ := Option.map_eq_some_iff.mp hRead
    obtain ⟨⟨k, r'⟩, hKey, hPair⟩ := Option.bind_eq_some_iff.mp hPair
    obtain ⟨r'', hSign, hPair⟩ := Option.bind_eq_some_iff.mp hPair
    obtain ⟨v, _, hPair⟩ := Option.map_eq_some_iff.mp hPair
    cases hPair
    cases hItem
    have hName' : k = name := by
      have hRead : readKey (quotes ++ name ++ quotes' ++ (mended after ++ 61 :: mended rest)) =
          some (k, r') := by
        rw [hz, ← hKey]
        simp only [List.append_assoc, List.cons_append]
      exact key_eq hName hQuotes hQuotes' (isWhite_of_mem_mended hAfter) hRead hSign
        (hKeys k _ (List.mem_singleton.mpr rfl))
    exact ⟨_, by rw [hName']⟩

end AnchorScript.ProgramTable
