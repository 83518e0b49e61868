import AnchorScript.Proofs.Toml.Numbers

/-!
# Values, entries and headers on a line

The readers of values, array elements and entries in braces call each other with one step less, so
that they read on behind a line is one induction over the steps of all four.
-/

namespace AnchorScript.Toml

variable {y : Text}

/-- The entries of a table in braces. -/
def inlineTable (es : List (Text × Toml)) : Option Toml :=
  (build [] [] (es.map fun (k, v) => .entry k v)).map (.table true)

/-- The elements behind an opening bracket or a comma; there may be none. -/
def elemsAt (n : Nat) (s : Text) : Option (List Toml × Text) :=
  match behind? 93 (skipSpace s) with
  | some r => some ([], r)
  | none => readElems n (skipSpace s)

/-- A truth value, an array or a table in braces. -/
def readRest (n : Nat) (s : Text) : Option (Toml × Text) :=
  match Text.dropStart? "true" s with
  | some r => some (.bool true, r)
  | none => match Text.dropStart? "false" s with
    | some r => some (.bool false, r)
    | none => match behind? 91 s with
      | some r => (elemsAt n r).map fun (es, r) => (.array es, r)
      | none => (behind? 123 s).bind fun r => (readPairs n (skipBlanks r)).bind fun (es, r) =>
          (inlineTable es).map (·, r)

theorem readValue_succ (n : Nat) (s : Text) : readValue (n + 1) s =
    match readLiteral s with
    | some v => some v
    | none => match readString s with
      | some (t, r) => some (.string t, r)
      | none => readRest n s := by
  conv => lhs; unfold readValue
  cases readLiteral s with
  | some v => rfl
  | none =>
    dsimp only
    cases readString s with
    | some v => rfl
    | none =>
      dsimp only
      unfold readRest
      cases Text.dropStart? "true" s with
      | some r => rfl
      | none =>
        dsimp only
        cases Text.dropStart? "false" s with
        | some r => rfl
        | none =>
          dsimp only
          split
          · rename_i r
            rw [behind?_self]
            dsimp only [elemsAt]
            split
            · rename_i hEmpty
              rw [hEmpty, behind?_self]
              rfl
            · rename_i hFull
              rw [behind?_eq_none hFull]
          · rename_i r
            rw [behind?_eq_none (by simp), behind?_self]
            refine congrArg _ (funext fun (es, r) => ?_)
            dsimp only
            rw [inlineTable]
            cases build [] [] (es.map fun (k, v) => .entry k v) <;> rfl
          · rename_i hArray hBrace
            rw [behind?_eq_none hArray, behind?_eq_none hBrace]
            rfl

theorem readElems_succ (n : Nat) (s : Text) : readElems (n + 1) s =
    (readValue n s).bind fun (v, r) =>
      match behind? 93 (skipSpace r) with
      | some r => some ([v], r)
      | none => (behind? 44 (skipSpace r)).bind fun r =>
        (elemsAt n r).map fun (vs, r) => (v :: vs, r) := by
  conv => lhs; unfold readElems
  refine congrArg _ (funext fun (v, r) => ?_)
  dsimp only
  split
  · rename_i hEnd
    rw [hEnd, behind?_self]
    rfl
  · rename_i hComma
    rw [hComma, behind?_eq_none (by simp), behind?_self]
    dsimp only [Option.bind_some, elemsAt]
    split
    · rename_i hEnd
      rw [hEnd, behind?_self]
      rfl
    · rename_i hMore
      rw [behind?_eq_none hMore]
      cases readElems n _ <;> rfl
  · rename_i hEnd hComma
    rw [behind?_eq_none hEnd, behind?_eq_none hComma]
    rfl

/-- A key and its value, as one thing read. -/
def pairAt (n : Nat) (s : Text) : Option ((Text × Toml) × Text) :=
  (readPair n s).map fun (k, v, r) => ((k, v), r)

theorem pairAt_succ (n : Nat) (s : Text) : pairAt (n + 1) s =
    (readKey s).bind fun (k, r) => (behind? 61 (skipBlanks r)).bind fun r =>
      (readValue n (skipBlanks r)).map fun (v, r) => ((k, v), r) := by
  rw [pairAt]
  conv => lhs; unfold readPair
  cases readKey s with
  | none => rfl
  | some v =>
    obtain ⟨k, r⟩ := v
    simp only [Option.bind_eq_bind, Option.bind_some]
    split
    · rename_i hSign
      rw [hSign, behind?_self, Option.bind_some]
      cases readValue n _ <;> rfl
    · rename_i hSign
      rw [behind?_eq_none hSign]
      rfl

/-- What follows the comma of an entry in braces; there may be none. -/
def skipComma (s : Text) : Text :=
  match behind? 44 (skipBlanks s) with
  | some r => skipBlanks r
  | none => skipBlanks s

theorem skipComma_append (hy : Follows y) (s : Text) : skipComma (s ++ y) = skipComma s ++ y := by
  rw [skipComma, skipBlanks_append hy, behind?_append hy (by decide), skipComma]
  cases behind? 44 (skipBlanks s) with
  | some r => exact skipBlanks_append hy r
  | none => rfl

theorem readPairs_succ (n : Nat) (s : Text) : readPairs (n + 1) s =
    match behind? 125 s with
    | some r => some ([], r)
    | none => (pairAt n s).bind fun (e, r) =>
      (readPairs n (skipComma r)).map fun (es, r) => (e :: es, r) := by
  conv => lhs; unfold readPairs
  split
  · rename_i h
    cases h
  · rw [behind?_self]
  · rename_i h hEnd
    cases h
    rw [behind?_eq_none hEnd, pairAt]
    cases readPair n _ with
    | none => rfl
    | some v =>
      obtain ⟨k, v, r⟩ := v
      simp only [Option.bind_eq_bind, Option.bind_some, Option.map_some, skipComma]
      cases hComma : behind? 44 (skipBlanks r) with
      | some r' =>
        simp only [behind?_eq_some hComma]
        cases readPairs n _ <;> rfl
      | none =>
        split
        · rename_i hMore
          rw [hMore, behind?_self] at hComma
          cases hComma
        · cases readPairs n _ <;> rfl

theorem readString_of_head {s : Text} (h : ∀ r, ¬(s = 34 :: r ∨ s = 39 :: r)) :
    readString s = none := by
  cases hRead : readString s with
  | none => rfl
  | some v =>
    rcases readString_cases hRead with ⟨r, hStart, _⟩ | ⟨r, _, hs, _⟩ | ⟨r, _, hs, _⟩ |
      ⟨r, hs, _⟩
    · rcases s with - | ⟨b, s⟩
      · cases hStart
      by_cases hb : b = 39
      · exact (h s (.inr (by rw [hb]))).elim
      · rw [show Text.ofString "'''" = [39, 39, 39] from rfl] at hStart
        simp [Text.dropStart?, Ne.symm hb] at hStart
    · exact (h r (.inr hs)).elim
    · exact (h r (.inl hs)).elim
    · exact (h r (.inl hs)).elim

theorem readRest_of_quote (n : Nat) {s r : Text} (h : s = 34 :: r ∨ s = 39 :: r) :
    readRest n s = none := by
  rcases h with rfl | rfl <;> rfl

theorem readValue_nil (n : Nat) : readValue n [] = none := by
  cases n with
  | zero => rw [readValue]
  | succ n => rw [readValue_succ]; rfl

theorem readElems_nil (n : Nat) : readElems n [] = none := by
  cases n with
  | zero => rw [readElems]
  | succ n => rw [readElems_succ, readValue_nil]; rfl

theorem extends_elemsAt {n m : Nat} (hElems : Extends (readElems n) (readElems m)) :
    Extends (elemsAt n) (elemsAt m) := by
  intro s es r y hy hRead
  unfold elemsAt at hRead ⊢
  have hSpace : skipSpace s ≠ [] := by
    intro hNil
    rw [hNil, readElems_nil] at hRead
    cases hRead
  rw [skipSpace_append hy hSpace, behind?_append hy (by decide)]
  cases hEnd : behind? 93 (skipSpace s) with
  | some r' =>
    rw [hEnd] at hRead
    cases hRead
    rfl
  | none =>
    rw [hEnd] at hRead
    exact hElems _ _ _ _ hy hRead

theorem extends_readRest {n m : Nat} (hElems : Extends (readElems n) (readElems m))
    (hPairs : Extends (readPairs n) (readPairs m)) : Extends (readRest n) (readRest m) := by
  intro s v r y hy hRead
  unfold readRest at hRead ⊢
  rw [dropStart?_append hy (by decide), dropStart?_append hy (by decide),
    behind?_append hy (by decide), behind?_append hy (by decide)]
  cases hTrue : Text.dropStart? "true" s with
  | some r' =>
    rw [hTrue] at hRead
    cases hRead
    rfl
  | none =>
    simp only [hTrue] at hRead
    cases hFalse : Text.dropStart? "false" s with
    | some r' =>
      rw [hFalse] at hRead
      cases hRead
      rfl
    | none =>
      simp only [hFalse] at hRead
      cases hArray : behind? 91 s with
      | some s' =>
        simp only [hArray] at hRead
        obtain ⟨⟨es, r'⟩, hEntries, hPair⟩ := Option.map_eq_some_iff.mp hRead
        cases hPair
        simp only [Option.map_none, Option.map_some, extends_elemsAt hElems _ _ _ _ hy hEntries]
      | none =>
        simp only [hArray] at hRead
        dsimp only [Option.map_none, Option.map_some]
        obtain ⟨s', hBrace, hRead⟩ := Option.bind_eq_some_iff.mp hRead
        obtain ⟨⟨es, r'⟩, hEntries, hRead⟩ := Option.bind_eq_some_iff.mp hRead
        rw [hBrace, Option.map_some, Option.bind_some, skipBlanks_append hy,
          hPairs _ _ _ _ hy hEntries, Option.bind_some]
        obtain ⟨t, hTable, hPair⟩ := Option.map_eq_some_iff.mp hRead
        cases hPair
        simp only [hTable, Option.map_some]

theorem extends_readValue {n m : Nat} (hElems : Extends (readElems n) (readElems m))
    (hPairs : Extends (readPairs n) (readPairs m)) :
    Extends (readValue (n + 1)) (readValue (m + 1)) := by
  intro s v r y hy hRead
  rw [readValue_succ] at hRead ⊢
  rw [readLiteral_append hy]
  cases hLiteral : readLiteral s with
  | some v' =>
    rw [hLiteral] at hRead
    cases hRead
    rfl
  | none =>
    simp only [hLiteral] at hRead
    dsimp only [Option.map_none]
    cases hString : readString s with
    | some v' =>
      rw [hString] at hRead
      cases hRead
      rw [extends_readString _ _ _ _ hy hString]
    | none =>
      simp only [hString] at hRead
      have hHead : readString (s ++ y) = none := by
        refine readString_of_head fun r hr => ?_
        cases s with
        | nil => cases hRead
        | cons b s =>
          have hQuote : b :: s = 34 :: s ∨ b :: s = 39 :: s := by
            simpa using hr.imp (fun h => (List.cons.inj h).1) fun h => (List.cons.inj h).1
          rw [readRest_of_quote n hQuote] at hRead
          cases hRead
      rw [hHead]
      exact extends_readRest hElems hPairs _ _ _ _ hy hRead

theorem extends_readElems {n m : Nat} (hValue : Extends (readValue n) (readValue m))
    (hElems : Extends (readElems n) (readElems m)) :
    Extends (readElems (n + 1)) (readElems (m + 1)) := by
  intro s vs r y hy hRead
  rw [readElems_succ] at hRead ⊢
  obtain ⟨⟨v, r₁⟩, hFirst, hRead⟩ := Option.bind_eq_some_iff.mp hRead
  rw [hValue _ _ _ _ hy hFirst, Option.bind_some]
  have hSpace : skipSpace r₁ ≠ [] := by
    intro hNil
    simp only [hNil] at hRead
    cases hRead
  dsimp only at hRead ⊢
  rw [skipSpace_append hy hSpace, behind?_append hy (by decide), behind?_append hy (by decide)]
  cases hEnd : behind? 93 (skipSpace r₁) with
  | some r' =>
    rw [hEnd] at hRead
    cases hRead
    rfl
  | none =>
    simp only [hEnd] at hRead
    obtain ⟨r₂, hComma, hRead⟩ := Option.bind_eq_some_iff.mp hRead
    obtain ⟨⟨vs', r₃⟩, hRest, hPair⟩ := Option.map_eq_some_iff.mp hRead
    cases hPair
    simp only [Option.map_none, hComma, Option.map_some, Option.bind_some,
      extends_elemsAt hElems _ _ _ _ hy hRest]

theorem extends_pairAt {n m : Nat} (hValue : Extends (readValue n) (readValue m)) :
    Extends (pairAt (n + 1)) (pairAt (m + 1)) := by
  intro s e r y hy hRead
  rw [pairAt_succ] at hRead ⊢
  obtain ⟨⟨k, r₁⟩, hKey, hRead⟩ := Option.bind_eq_some_iff.mp hRead
  obtain ⟨r₂, hSign, hRead⟩ := Option.bind_eq_some_iff.mp hRead
  obtain ⟨⟨v, r₃⟩, hGiven, hPair⟩ := Option.map_eq_some_iff.mp hRead
  cases hPair
  rw [extends_readKey _ _ _ _ hy hKey, Option.bind_some]
  simp only [skipBlanks_append hy, behind?_append hy (show (61 : UInt8) ≠ 10 by decide), hSign,
    Option.map_some, Option.bind_some, hValue _ _ _ _ hy hGiven]

theorem extends_readPairs {n m : Nat} (hPair : Extends (pairAt n) (pairAt m))
    (hPairs : Extends (readPairs n) (readPairs m)) :
    Extends (readPairs (n + 1)) (readPairs (m + 1)) := by
  intro s es r y hy hRead
  rw [readPairs_succ] at hRead ⊢
  rw [behind?_append hy (by decide)]
  cases hEnd : behind? 125 s with
  | some r' =>
    rw [hEnd] at hRead
    cases hRead
    rfl
  | none =>
    simp only [hEnd] at hRead
    obtain ⟨⟨e, r₁⟩, hFirst, hRead⟩ := Option.bind_eq_some_iff.mp hRead
    obtain ⟨⟨es', r₂⟩, hRest, hPairEq⟩ := Option.map_eq_some_iff.mp hRead
    cases hPairEq
    simp only [Option.map_none, hPair _ _ _ _ hy hFirst, Option.bind_some, skipComma_append hy,
      hPairs _ _ _ _ hy hRest, Option.map_some]

theorem extends_values {n m : Nat} (h : n ≤ m) : Extends (readValue n) (readValue m) ∧
    Extends (readElems n) (readElems m) ∧ Extends (readPairs n) (readPairs m) ∧
    Extends (pairAt n) (pairAt m) := by
  induction n generalizing m with
  | zero =>
    refine ⟨?_, ?_, ?_, ?_⟩ <;> intro s v r y _ hRead
    · rw [readValue] at hRead
      cases hRead
    · rw [readElems] at hRead
      cases hRead
    · rw [readPairs] at hRead
      cases hRead
    · rw [pairAt, readPair] at hRead
      cases hRead
  | succ n ih =>
    obtain ⟨m, rfl⟩ : ∃ m', m = m' + 1 := ⟨m - 1, by omega⟩
    obtain ⟨hValue, hElems, hPairs, hPair⟩ := ih (Nat.le_of_succ_le_succ h)
    exact ⟨extends_readValue hElems hPairs, extends_readElems hValue hElems,
      extends_readPairs hPair hPairs, extends_pairAt hValue⟩

theorem readEntry_eq (s : Text) : readEntry s =
    (pairAt (s.length + 2) s).map fun (e, r) => (.entry e.1 e.2, skipComment (skipBlanks r)) := by
  rw [readEntry, pairAt]
  cases readPair (s.length + 2) s <;> rfl

theorem extends_readEntry : Extends readEntry readEntry := by
  intro s i r y hy hRead
  rw [readEntry_eq] at hRead ⊢
  obtain ⟨⟨e, r'⟩, hPair, hEq⟩ := Option.map_eq_some_iff.mp hRead
  cases hEq
  rw [(extends_values (by simp)).2.2.2 _ _ _ _ hy hPair]
  simp only [Option.map_some, skipBlanks_append hy, skipComment_append hy]

/-- The names between these brackets. -/
def bracketed (opening closing s : Text) : Option (List Text × Text) :=
  (Text.dropStart? opening s).bind fun r =>
    (readNames (r.length + 1) (skipBlanks r)).bind fun (ns, r) =>
      (Text.dropStart? closing (skipBlanks r)).map (ns, ·)

theorem readHeader_eq (s : Text) : readHeader s =
    match bracketed "[" "]" s with
    | some (ns, r) => some (.header ns, r)
    | none => (bracketed "[[" "]]" s).map fun (ns, r) => (.arrayHeader ns, r) := by
  have hEach (opening closing : Text) (f : List Text → Item) : (do
      let r ← Text.dropStart? opening s
      let (ns, r) ← readNames (r.length + 1) (skipBlanks r)
      return (f ns, ← Text.dropStart? closing (skipBlanks r))) =
        (bracketed opening closing s).map fun (ns, r) => (f ns, r) := by
    rw [bracketed]
    cases Text.dropStart? opening s with
    | none => rfl
    | some r =>
      simp only [Option.bind_eq_bind, Option.bind_some]
      cases readNames (r.length + 1) (skipBlanks r) with
      | none => rfl
      | some v => cases hClose : Text.dropStart? closing (skipBlanks v.2) <;> simp [hClose]
  rw [readHeader]
  simp only [hEach]
  cases bracketed "[" "]" s <;> rfl

theorem extends_bracketed {opening closing : Text} (hOpening : 10 ∉ opening) (hClosing : 10 ∉ closing)
    (hPoint : closing.head? = some 93) :
    Extends (bracketed opening closing) (bracketed opening closing) := by
  intro s ns r y hy hRead
  unfold bracketed at hRead ⊢
  obtain ⟨r₁, hOpen, hRead⟩ := Option.bind_eq_some_iff.mp hRead
  obtain ⟨⟨ns', r₂⟩, hNames, hRead⟩ := Option.bind_eq_some_iff.mp hRead
  obtain ⟨r₃, hClose, hPair⟩ := Option.map_eq_some_iff.mp hRead
  cases hPair
  have hEnd : behind? 46 (skipBlanks r₂) = none := by
    obtain ⟨c, rfl⟩ : ∃ c, closing = 93 :: c := by
      cases closing with
      | nil => cases hPoint
      | cons b c => exact ⟨c, by rw [Option.some.inj hPoint]⟩
    rw [eq_append_of_dropStart? hClose]
    rfl
  rw [dropStart?_append hy hOpening, hOpen, Option.map_some, Option.bind_some, skipBlanks_append hy,
    extends_readNames (by simp) hy hNames hEnd]
  simp only [Option.bind_some, skipBlanks_append hy, dropStart?_append hy hClosing, hClose,
    Option.map_some]

theorem extends_readHeader : Extends readHeader readHeader := by
  intro s i r y hy hRead
  rw [readHeader_eq] at hRead ⊢
  cases hSingle : bracketed "[" "]" s with
  | some v =>
    rw [hSingle] at hRead
    cases hRead
    rw [extends_bracketed (by decide) (by decide) rfl _ _ _ _ hy hSingle]
  | none =>
    rw [hSingle] at hRead
    obtain ⟨⟨ns, r'⟩, hDouble, hPair⟩ := Option.map_eq_some_iff.mp hRead
    cases hPair
    rw [extends_bracketed (by decide) (by decide) rfl _ _ _ _ hy hDouble]
    have hNone : bracketed "[" "]" (s ++ y) = none := by
      obtain ⟨r, hStart, _⟩ := Option.bind_eq_some_iff.mp hDouble
      rw [eq_append_of_dropStart? hStart]
      rfl
    rw [hNone]
    rfl

end AnchorScript.Toml
