import AnchorScript.Proofs.Toml.Values

/-!
# Documents read line by line

A line that is an expression by itself reads the same wherever it stands in a document, so a document
of such lines has the items of its lines, in their order.
-/

namespace AnchorScript.Toml

/-- Carriage returns, as they stand before a line break. -/
def IsReturns (c : Text) : Prop := ∀ b ∈ c, b = 13

/-- How a line reads wherever it stands: as these items, or as what no document holds. -/
inductive Reads (l : Text) : Option (List Item) → Prop
  | nothing (hStart : ∀ b ∈ (skipBlanks l).head?, b = 35 ∨ b = 13)
      (hRest : IsReturns (skipComment (skipBlanks l))) : Reads l (some [])
  | header {i : Item} {r : Text} (hRead : readHeader (skipBlanks l) = some (i, r))
      (hRest : IsReturns (skipComment (skipBlanks r))) : Reads l (some [i])
  | entry {i : Item} {r : Text} (hRead : readEntry (skipBlanks l) = some (i, r))
      (hRest : IsReturns r) : Reads l (some [i])
  | fault (hStart : ∃ b ∈ (skipBlanks l).head?, isKeyByte b = true)
      (hRead : ∀ y, Follows y → readEntry (skipBlanks l ++ y) = none) : Reads l none

theorem exists_of_readHeader {s r : Text} {i : Item} (h : readHeader s = some (i, r)) :
    ∃ s', s = 91 :: s' := by
  have hOpening {opening closing : Text} {v : List Text × Text}
      (hRead : bracketed opening closing s = some v) : ∃ s', s = opening ++ s' := by
    obtain ⟨s', hStart, _⟩ := Option.bind_eq_some_iff.mp hRead
    exact ⟨s', eq_append_of_dropStart? hStart⟩
  rw [readHeader_eq] at h
  split at h
  · obtain ⟨s', rfl⟩ := hOpening ‹_›
    exact ⟨s', rfl⟩
  · obtain ⟨v, hRead, _⟩ := Option.map_eq_some_iff.mp h
    obtain ⟨s', rfl⟩ := hOpening hRead
    exact ⟨91 :: s', rfl⟩

theorem readHeader_of_head {b : UInt8} (hb : b ≠ 91) (s : Text) : readHeader (b :: s) = none := by
  cases h : readHeader (b :: s) with
  | none => rfl
  | some v =>
    obtain ⟨s', hs⟩ := exists_of_readHeader h
    exact absurd (List.cons.inj hs).1 hb

theorem exists_of_readEntry {s r : Text} {i : Item} (h : readEntry s = some (i, r)) :
    ∃ b s', s = b :: s' ∧ (isKeyByte b = true ∨ b = 34) := by
  rw [readEntry_eq, pairAt_succ] at h
  obtain ⟨v, hPair, _⟩ := Option.map_eq_some_iff.mp h
  obtain ⟨⟨k, r'⟩, hKey, _⟩ := Option.bind_eq_some_iff.mp hPair
  rw [readKey_eq] at hKey
  split at hKey
  · split at hKey
    · exact ⟨34, _, rfl, .inr rfl⟩
    · cases hKey
  · rename_i hSome
    cases s with
    | nil => simp at hSome
    | cons b s =>
      cases hb : isKeyByte b with
      | true => exact ⟨b, s, rfl, .inl hb⟩
      | false => simp [hb] at hSome

theorem readEntry_of_head {b : UInt8} (hKey : isKeyByte b = false) (hQuote : b ≠ 34) (s : Text) :
    readEntry (b :: s) = none := by
  cases h : readEntry (b :: s) with
  | none => rfl
  | some v =>
    obtain ⟨b', s', hs, hb⟩ := exists_of_readEntry h
    obtain ⟨rfl, rfl⟩ := List.cons.inj hs
    rcases hb with hb | hb
    · rw [hb] at hKey
      cases hKey
    · exact absurd hb hQuote

theorem skipComment_of_ne {b : UInt8} (hb : b ≠ 35) (s : Text) : skipComment (b :: s) = b :: s := by
  simp [skipComment, hb]

theorem skipGaps_skipBlanks (l z : Text) : skipGaps (l ++ z) = skipGaps (skipBlanks l ++ z) := by
  have hBlanks : ∀ c ∈ l.takeWhile isBlank, isGap c = true := fun c hc => by
    rw [isGap, List.all_eq_true.mp List.all_takeWhile c hc, Bool.true_or]
  calc skipGaps (l ++ z) = skipGaps (l.takeWhile isBlank ++ (skipBlanks l ++ z)) := by
        rw [← List.append_assoc, skipBlanks, List.takeWhile_append_dropWhile]
    _ = skipGaps (skipBlanks l ++ z) := List.dropWhile_append_of_pos hBlanks

/-- Gaps before a line's first word are its blanks. -/
theorem skipGaps_line {l s : Text} {b : UInt8} (h : skipBlanks l = b :: s) (hb : isGap b = false)
    (z : Text) : skipGaps (l ++ z) = skipBlanks l ++ z := by
  rw [skipGaps_skipBlanks, h, List.cons_append, skipGaps, List.dropWhile_cons_of_neg (by simp [hb])]

theorem isGap_of_isKeyByte {b : UInt8} (h : isKeyByte b = true) : isGap b = false := by
  cases hb : isGap b with
  | false => rfl
  | true =>
    simp only [isGap, isBlank, isBreak, Bool.or_eq_true, decide_eq_true_eq] at hb
    rcases hb with (rfl | rfl) | (rfl | rfl) <;> cases h

variable {l y : Text}

/-- A byte that begins no header and no entry. -/
def IsIdle (b : UInt8) : Prop := b ≠ 91 ∧ isKeyByte b = false ∧ b ≠ 34

instance (b : UInt8) : Decidable (IsIdle b) := inferInstanceAs (Decidable (_ ∧ _ ∧ _))

theorem idle_append {s : Text} (h : ∀ b ∈ s.head?, IsIdle b) (hy : Follows y) :
    ∀ b ∈ (s ++ y).head?, IsIdle b := by
  cases s with
  | nil =>
    rcases hy with rfl | ⟨x, rfl⟩
    · exact h
    · rintro b ⟨⟩
      decide
  | cons => exact h

theorem readEntry_of_idle {s : Text} (h : ∀ b ∈ s.head?, IsIdle b) : readEntry s = none := by
  cases s with
  | nil => rfl
  | cons b s =>
    obtain ⟨_, hKey, hQuote⟩ := h b rfl
    exact readEntry_of_head hKey hQuote s

theorem readExpression_of_idle {s : Text} (h : ∀ b ∈ (skipBlanks s).head?, IsIdle b) :
    readExpression s = ([], skipComment (skipBlanks s)) := by
  have hHeader : readHeader (skipBlanks s) = none := by
    cases hs : skipBlanks s with
    | nil => rfl
    | cons b r =>
      rw [hs] at h
      exact readHeader_of_head (h b rfl).1 r
  rw [readExpression, hHeader, readEntry_of_idle h]

theorem readExpression_header (hy : Follows y) {i : Item} {r : Text}
    (hRead : readHeader (skipBlanks l) = some (i, r)) : readExpression (l ++ y) =
      (i :: (readBody (r ++ y).length (skipComment (skipBlanks r) ++ y)).1,
        (readBody (r ++ y).length (skipComment (skipBlanks r) ++ y)).2) := by
  rw [readExpression, skipBlanks_append hy, extends_readHeader _ _ _ _ hy hRead]
  simp only [skipBlanks_append hy, skipComment_append hy]

theorem readExpression_entry (hy : Follows y) {i : Item} {r : Text}
    (hRead : readEntry (skipBlanks l) = some (i, r)) : readExpression (l ++ y) = ([i], r ++ y) := by
  have hHeader : readHeader (skipBlanks l ++ y) = none := by
    obtain ⟨b, s, hs, hb⟩ := exists_of_readEntry hRead
    rw [hs, List.cons_append]
    refine readHeader_of_head ?_ _
    rintro rfl
    simp at hb
    cases hb
  rw [readExpression, skipBlanks_append hy, hHeader, extends_readEntry _ _ _ _ hy hRead]

theorem readExpression_fault (hy : Follows y)
    (hStart : ∃ b ∈ (skipBlanks l).head?, isKeyByte b = true)
    (hRead : readEntry (skipBlanks l ++ y) = none) :
    readExpression (l ++ y) = ([], skipBlanks l ++ y) := by
  obtain ⟨b, hHead, hb⟩ := hStart
  obtain ⟨s, hs⟩ : ∃ s, skipBlanks l = b :: s := List.head?_eq_some_iff.mp hHead
  rw [hs, List.cons_append] at hRead
  rw [readExpression, skipBlanks_append hy, hs, List.cons_append,
    readHeader_of_head (by rintro rfl; cases hb), hRead,
    skipComment_of_ne (by rintro rfl; cases hb)]

theorem readExpression_nothing (hy : Follows y)
    (hStart : ∀ b ∈ (skipBlanks l).head?, b = 35 ∨ b = 13) :
    readExpression (l ++ y) = ([], skipComment (skipBlanks l) ++ y) := by
  have hIdle : ∀ b ∈ (skipBlanks l).head?, IsIdle b := fun b hb => by
    rcases hStart b hb with rfl | rfl <;> decide
  rw [readExpression_of_idle, skipBlanks_append hy, skipComment_append hy]
  rw [skipBlanks_append hy]
  exact idle_append hIdle hy

/-- Lines with a line break before each. -/
def following (ls : List Text) : Text := ls.flatMap (10 :: ·)

theorem follows_following (ls : List Text) : Follows (following ls) := by
  cases ls with
  | nil => exact .inl rfl
  | cons l ls => exact .inr ⟨l ++ following ls, rfl⟩

/-- The items of a line that is read by itself. -/
def lineItems? (l : Text) : Option (List Item) :=
  let (is, r) := readExpression l
  if r.all (· = 13) then some is else none

def itemsOf : List Text → Option (List Item)
  | [] => some []
  | l :: ls => (lineItems? l).bind fun is => (itemsOf ls).map (is ++ ·)

theorem itemsOf_append (ls ls' : List Text) :
    itemsOf (ls ++ ls') = (itemsOf ls).bind fun is => (itemsOf ls').map (is ++ ·) := by
  induction ls with
  | nil => simp [itemsOf]
  | cons l ls ih =>
    rw [List.cons_append, itemsOf, itemsOf, ih]
    cases lineItems? l with
    | none => rfl
    | some is => cases itemsOf ls <;> cases itemsOf ls' <;> simp

theorem readBody_succ (n : Nat) (s : Text) : readBody (n + 1) s =
    match readEntry (skipGaps s) with
    | some (i, r) => (i :: (readBody n r).1, (readBody n r).2)
    | none => ([], s) := by
  cases h : readEntry (skipGaps s) <;> simp only [readBody, h]

theorem readBody_of_none {s : Text} (h : readEntry (skipGaps s) = none) (n : Nat) :
    readBody n s = ([], s) := by
  cases n with
  | zero => rw [readBody]
  | succ n => rw [readBody_succ, h]

theorem readBody_of_nil {n : Nat} {s : Text} (h : (readBody n s).1 = []) :
    readBody n s = ([], s) := by
  cases n with
  | zero => rw [readBody]
  | succ n =>
    rw [readBody_succ] at h ⊢
    cases hEntry : readEntry (skipGaps s) with
    | none => rfl
    | some v =>
      rw [hEntry] at h
      cases h

theorem skipGaps_returns {c : Text} (h : IsReturns c) (s : Text) :
    skipGaps (c ++ s) = skipGaps s :=
  List.dropWhile_append_of_pos fun b hb => by rw [h b hb]; rfl

theorem readBody_returns {c : Text} (h : IsReturns c) (n : Nat) : readBody n c = ([], c) := by
  refine readBody_of_none ?_ n
  rw [← List.append_nil c, skipGaps_returns h]
  rfl

theorem Reads.lineItems_eq {o : Option (List Item)} (h : Reads l o) : lineItems? l = o := by
  have hEnd : Follows [] := .inl rfl
  have hReturns {is : List Item} {c : Text} (hc : IsReturns c) (hRead : readExpression l = (is, c)) :
      lineItems? l = some is := by
    rw [lineItems?, hRead]
    exact if_pos (List.all_eq_true.mpr fun b hb => decide_eq_true (hc b hb))
  cases h with
  | nothing hStart hRest => 
    exact hReturns hRest (by simpa using readExpression_nothing hEnd hStart)
  | header hRead hRest => 
    refine hReturns hRest ?_
    have hLine := readExpression_header hEnd hRead
    simpa [readBody_returns hRest] using hLine
  | entry hRead hRest => exact hReturns hRest (by simpa using readExpression_entry hEnd hRead)
  | fault hStart hRead =>
    have hLine := readExpression_fault hEnd hStart (hRead [] hEnd)
    obtain ⟨b, hHead, hb⟩ := hStart
    obtain ⟨s, hs⟩ : ∃ s, skipBlanks l = b :: s := List.head?_eq_some_iff.mp hHead
    rw [List.append_nil, List.append_nil, hs] at hLine
    rw [lineItems?, hLine]
    refine if_neg fun hAll => ?_
    rw [List.all_cons, Bool.and_eq_true, decide_eq_true_eq] at hAll
    rw [hAll.1] at hb
    cases hb

theorem comment_or_returns (hStart : ∀ b ∈ (skipBlanks l).head?, b = 35 ∨ b = 13)
    (hRest : IsReturns (skipComment (skipBlanks l))) :
    (∃ s, skipBlanks l = 35 :: s) ∨ IsReturns (skipBlanks l) := by
  cases hs : skipBlanks l with
  | nil => exact .inr fun b hb => by cases hb
  | cons b s =>
    rw [hs] at hStart hRest
    rcases hStart b rfl with rfl | rfl
    · exact .inl ⟨s, rfl⟩
    · rw [skipComment_of_ne (by decide)] at hRest
      exact .inr hRest

/-- The entries below a header are those of some of the lines that follow it. -/
theorem readBody_following {ls : List Text} (h : ∀ l ∈ ls, ∃ o, Reads l o) (n : Nat) {c : Text}
    (hc : IsReturns c) : ∃ read left c' is, ls = read ++ left ∧ IsReturns c' ∧
      itemsOf read = some is ∧ readBody n (c ++ following ls) = (is, c' ++ following left) := by
  induction ls generalizing n c with
  | nil => exact ⟨[], [], c, [], rfl, hc, rfl, by simpa [following] using readBody_returns hc n⟩
  | cons l ls ih =>
    obtain ⟨⟨o, hLine⟩, hLines⟩ := List.forall_mem_cons.mp h
    have hy := follows_following ls
    have hGaps : skipGaps (c ++ following (l :: ls)) = skipGaps (l ++ following ls) := by
      rw [skipGaps_returns hc]
      exact List.dropWhile_cons_of_pos rfl
    have stopped (hNone : readEntry (skipGaps (l ++ following ls)) = none) :
        ∃ read left c' is, l :: ls = read ++ left ∧ IsReturns c' ∧ itemsOf read = some is ∧
          readBody n (c ++ following (l :: ls)) = (is, c' ++ following left) :=
      ⟨[], l :: ls, c, [], rfl, hc, rfl, readBody_of_none (hGaps ▸ hNone) n⟩
    have hItems := hLine.lineItems_eq
    cases hLine with
    | nothing hStart hRest =>
      rcases comment_or_returns hStart hRest with ⟨s, hs⟩ | hReturns
      · refine stopped ?_
        rw [skipGaps_line hs rfl, hs]
        exact readEntry_of_head rfl (by decide) _
      · rw [skipGaps_skipBlanks l] at hGaps stopped
        obtain ⟨read, left, c', is, rfl, hc', hIs, hBody⟩ := ih hLines n hReturns
        cases n with
        | zero => exact ⟨[], _, c, [], rfl, hc, rfl, by rw [readBody]⟩
        | succ n =>
          rw [readBody_succ] at hBody
          cases hEntry : readEntry (skipGaps (skipBlanks l ++ following (read ++ left))) with
          | none => exact stopped hEntry
          | some v =>
            refine ⟨l :: read, left, c', is, rfl, hc', by simp [itemsOf, hItems, hIs], ?_⟩
            rw [hEntry] at hBody
            rw [readBody_succ, hGaps, hEntry]
            exact hBody
    | header hRead =>
      obtain ⟨s, hs⟩ := exists_of_readHeader hRead
      refine stopped ?_
      rw [skipGaps_line hs rfl, hs]
      exact readEntry_of_head rfl (by decide) _
    | @entry i r hRead hRest =>
      obtain ⟨b, s, hs, hb⟩ := exists_of_readEntry hRead
      cases n with
      | zero => exact ⟨[], _, c, [], rfl, hc, rfl, by rw [readBody]⟩
      | succ n =>
        obtain ⟨read, left, c', is, rfl, hc', hIs, hBody⟩ := ih hLines n hRest
        have hGap : isGap b = false := hb.elim isGap_of_isKeyByte (by rintro rfl; rfl)
        refine ⟨l :: read, left, c', i :: is, rfl, hc', by simp [itemsOf, hItems, hIs], ?_⟩
        rw [readBody_succ, hGaps, skipGaps_line hs hGap, extends_readEntry _ _ _ _ hy hRead]
        simp only [hBody]
    | fault hStart hRead =>
      obtain ⟨b, hHead, hb⟩ := hStart
      obtain ⟨s, hs⟩ : ∃ s, skipBlanks l = b :: s := List.head?_eq_some_iff.mp hHead
      refine stopped ?_
      rw [skipGaps_line hs (isGap_of_isKeyByte hb)]
      exact hRead _ hy

theorem IsReturns.skips (h : IsReturns l) : skipBlanks l = l ∧ skipComment l = l := by
  cases l with
  | nil => exact ⟨rfl, rfl⟩
  | cons b s =>
    rw [h b List.mem_cons_self]
    exact ⟨rfl, rfl⟩

theorem reads_of_returns (h : IsReturns l) : Reads l (some []) := by
  refine .nothing ?_ ?_
  · rw [h.skips.1]
    exact fun b hb => .inr (h b (List.mem_of_mem_head? hb))
  · rwa [h.skips.1, h.skips.2]

theorem Reads.returns_or_head {o : Option (List Item)} (h : Reads l o) :
    IsReturns l ∨ ∃ b s, l = b :: s ∧ isBreak b = false := by
  cases l with
  | nil => exact .inl fun b hb => by cases hb
  | cons b s =>
    cases hBlank : isBlank b with
    | true =>
      refine .inr ⟨b, s, rfl, ?_⟩
      rw [isBlank, Bool.or_eq_true, decide_eq_true_eq, decide_eq_true_eq] at hBlank
      rcases hBlank with rfl | rfl <;> rfl
    | false =>
      have hLine : skipBlanks (b :: s) = b :: s := by
        rw [skipBlanks, List.dropWhile_cons_of_neg (by simp [hBlank])]
      have hKey (hb : isKeyByte b = true) : isBreak b = false :=
        (Bool.or_eq_false_iff.mp (isGap_of_isKeyByte hb)).2
      cases h with
      | nothing hStart hRest =>
        rcases comment_or_returns hStart hRest with ⟨s', hs⟩ | hReturns
        · rw [hLine] at hs
          exact .inr ⟨b, s, rfl, by rw [(List.cons.inj hs).1]; rfl⟩
        · exact .inl (hLine ▸ hReturns)
      | header hRead =>
        obtain ⟨s', hs⟩ := exists_of_readHeader hRead
        rw [hLine] at hs
        exact .inr ⟨b, s, rfl, by rw [(List.cons.inj hs).1]; rfl⟩
      | entry hRead =>
        obtain ⟨b', s', hs, hb⟩ := exists_of_readEntry hRead
        rw [hLine] at hs
        obtain ⟨rfl, rfl⟩ := List.cons.inj hs
        exact .inr ⟨b, s, rfl, hb.elim hKey (by rintro rfl; rfl)⟩
      | fault hStart =>
        obtain ⟨b', hHead, hb⟩ := hStart
        rw [hLine] at hHead
        cases hHead
        exact .inr ⟨b, s, rfl, hKey hb⟩

theorem readItems_succ (n : Nat) (s : Text) : readItems (n + 1) s =
    match (readExpression s).2 with
    | [] => some (readExpression s).1
    | b :: r =>
      if isBreak b then
        (readItems n ((b :: r).dropWhile isBreak)).map ((readExpression s).1 ++ ·)
      else none := by
  rw [readItems]
  obtain ⟨is, r⟩ := readExpression s
  cases r <;> rfl

theorem dropBreaks_returns {c : Text} (h : IsReturns c) (s : Text) :
    (c ++ s).dropWhile isBreak = s.dropWhile isBreak :=
  List.dropWhile_append_of_pos fun b hb => by rw [h b hb]; rfl

/-- Reading goes on behind an expression with the lines that it leaves. -/
theorem readItems_of_expression {s c : Text} {is : List Item} {left : List Text} (hc : IsReturns c)
    (hRead : readExpression s = (is, c ++ following left)) {n : Nat}
    (hLeft : readItems n ((following left).dropWhile isBreak) = itemsOf left) :
    readItems (n + 1) s = (itemsOf left).map (is ++ ·) := by
  rw [readItems_succ, hRead]
  dsimp only
  have hDrop := dropBreaks_returns hc (following left)
  split
  · rename_i hEnd
    cases left with
    | nil => simp [itemsOf]
    | cons l ls => cases (List.append_eq_nil_iff.mp hEnd).2
  · rename_i b r hEnd
    have hBreak : isBreak b = true := by
      cases c with
      | nil =>
        rcases follows_following left with hNil | ⟨x, hFeed⟩
        · rw [hNil] at hEnd
          cases hEnd
        · rw [hFeed] at hEnd
          cases hEnd
          rfl
      | cons b' c =>
        rw [← (List.cons.inj hEnd).1, hc b' List.mem_cons_self]
        rfl
    rw [if_pos hBreak, ← hEnd, hDrop, hLeft]

/-- Below a line break the items are those of the lines, one after the other. -/
theorem readItems_following {ls : List Text} (h : ∀ l ∈ ls, ∃ o, Reads l o) {n : Nat}
    (hn : ((following ls).dropWhile isBreak).length < n) :
    readItems n ((following ls).dropWhile isBreak) = itemsOf ls := by
  induction hLength : ls.length using Nat.strongRecOn generalizing ls n with
  | ind k ih =>
  obtain ⟨n, rfl⟩ : ∃ n', n = n' + 1 := ⟨n - 1, by omega⟩
  cases ls with
  | nil => rfl
  | cons l ls =>
    obtain ⟨⟨o, hLine⟩, hLines⟩ := List.forall_mem_cons.mp h
    have hy := follows_following ls
    have hBreaks : (following (l :: ls)).dropWhile isBreak =
        (l ++ following ls).dropWhile isBreak := List.dropWhile_cons_of_pos rfl
    rcases hLine.returns_or_head with hReturns | ⟨b, s, rfl, hb⟩
    · rw [hBreaks, dropBreaks_returns hReturns] at hn ⊢
      rw [ih _ (by rw [← hLength]; exact Nat.lt_succ_self _) hLines hn rfl, itemsOf,
        (reads_of_returns hReturns).lineItems_eq]
      simp
    · have hLine' : (b :: s ++ following ls).dropWhile isBreak = b :: s ++ following ls :=
        List.dropWhile_cons_of_neg (by simp [hb])
      rw [hBreaks, hLine'] at hn ⊢
      -- every split of the lines below leaves fewer lines and fewer bytes
      have hLeft {read left : List Text} (hSplit : ls = read ++ left) :
          readItems n ((following left).dropWhile isBreak) = itemsOf left := by
        subst hSplit
        refine ih _ ?_ (fun l hl => hLines l (List.mem_append_right _ hl)) ?_ rfl
        · simp only [List.length_cons, List.length_append] at hLength
          omega
        · have hDrop := (List.dropWhile_sublist isBreak (l := following left)).length_le
          simp only [following, List.flatMap_append, List.length_append, List.length_cons] at hn hDrop ⊢
          omega
      have hItems := hLine.lineItems_eq
      rw [itemsOf, hItems]
      cases hLine with
      | nothing hStart hRest =>
        rw [readItems_of_expression hRest (readExpression_nothing hy hStart)
          (hLeft (List.nil_append ls).symm)]
        rfl
      | @header i r hRead hRest =>
        obtain ⟨read, left, c, is, rfl, hc, hIs, hBody⟩ :=
          readBody_following hLines (r ++ following ls).length hRest
        have hExpression := readExpression_header hy hRead
        rw [hBody] at hExpression
        rw [readItems_of_expression hc hExpression (hLeft rfl), itemsOf_append, hIs]
        cases itemsOf left <;> rfl
      | entry hRead hRest =>
        rw [readItems_of_expression hRest (readExpression_entry hy hRead)
          (hLeft (List.nil_append ls).symm)]
        rfl
      | fault hStart hRead =>
        rw [readItems_succ, readExpression_fault hy hStart (hRead _ hy)]
        obtain ⟨b', hHead, hKey⟩ := hStart
        obtain ⟨s', hs⟩ : ∃ s', skipBlanks (b :: s) = b' :: s' := List.head?_eq_some_iff.mp hHead
        have hBreak : isBreak b' = false := (Bool.or_eq_false_iff.mp (isGap_of_isKeyByte hKey)).2
        rw [hs, List.cons_append]
        simp [hBreak]

theorem unlines_cons (l : Text) (ls : List Text) :
    Text.unlines (l :: ls) = l ++ following ls := by
  induction ls generalizing l with
  | nil => simp [Text.unlines, Text.join, following]
  | cons l' ls ih =>
    rw [Text.unlines, Text.join_cons_cons, ← Text.unlines, ih, List.append_assoc]
    rfl

/-- A document of lines that can be read by themselves has the items of its lines. -/
theorem readItems_unlines {ls : List Text} (hLines : ls ≠ []) (h : ∀ l ∈ ls, ∃ o, Reads l o) :
    readItems ((Text.unlines ls).length + 1) (Text.unlines ls) = itemsOf ls := by
  obtain ⟨l, ls, rfl⟩ := List.exists_cons_of_ne_nil hLines
  obtain ⟨⟨o, hLine⟩, hRest⟩ := List.forall_mem_cons.mp h
  rw [unlines_cons]
  rcases hLine.returns_or_head with hReturns | ⟨b, s, rfl, hb⟩
  · have hNothing := reads_of_returns hReturns
    have hExpression : readExpression (l ++ following ls) = ([], l ++ following ls) := by
      have hRead := readExpression_nothing (l := l) (follows_following ls) fun b hb =>
        .inr (hReturns b (List.mem_of_mem_head? (hReturns.skips.1 ▸ hb)))
      rwa [hReturns.skips.1, hReturns.skips.2] at hRead
    have hItems : itemsOf (l :: ls) = (itemsOf ls).map ([] ++ ·) := by
      rw [itemsOf, hNothing.lineItems_eq]
      rfl
    rw [hItems]
    cases hText : (l ++ following ls).length with
    | zero => 
      obtain ⟨rfl, hNil⟩ := List.append_eq_nil_iff.mp (List.length_eq_zero_iff.mp hText)
      cases ls with
      | nil => rfl
      | cons => cases hNil
    | succ n =>
      refine readItems_of_expression hReturns hExpression (readItems_following hRest ?_)
      rw [← hText]
      have hDrop (s : Text) := (List.dropWhile_sublist isBreak (l := s)).length_le
      cases l with
      | cons b s =>
        have := hDrop (following ls)
        simp only [List.length_append, List.length_cons]
        omega
      | nil =>
        cases ls with
        | nil => cases hText
        | cons l ls =>
          exact Nat.lt_succ_of_le (hDrop (l ++ following ls))
  · have hBreaks : (following ((b :: s) :: ls)).dropWhile isBreak = b :: s ++ following ls := by
      rw [following, List.flatMap_cons, List.cons_append, List.dropWhile_cons_of_pos rfl]
      exact List.dropWhile_cons_of_neg (by simp [hb])
    rw [← hBreaks]
    exact readItems_following h (Nat.lt_succ_self _)

/-- The line is an expression by itself and says one thing at most; the key of its entry has no
equals sign in it. -/
def standsAlone (l : Text) : Bool :=
  let (is, r) := readExpression l
  r.all (· = 13) && match is with
    | [] => true
    | [.entry k _] => !k.contains 61
    | [_] => true
    | _ => false

theorem reads_of_expression {is : List Item} {r : Text} (hRead : readExpression l = (is, r))
    (hReturns : IsReturns r) (hOne : is.length ≤ 1) : Reads l (some is) := by
  rw [readExpression] at hRead
  cases hHeader : readHeader (skipBlanks l) with
  | some v =>
    obtain ⟨i, r'⟩ := v
    rw [hHeader] at hRead
    cases hRead
    have hBody : (readBody r'.length (skipComment (skipBlanks r'))).1 = [] :=
      List.length_eq_zero_iff.mp (Nat.le_zero.mp (Nat.le_of_succ_le_succ hOne))
    rw [hBody]
    rw [readBody_of_nil hBody] at hReturns
    exact .header hHeader hReturns
  | none =>
    rw [hHeader] at hRead
    cases hEntry : readEntry (skipBlanks l) with
    | some v =>
      rw [hEntry] at hRead
      cases hRead
      exact .entry hEntry hReturns
    | none =>
      rw [hEntry] at hRead
      cases hRead
      refine .nothing (fun b hb => ?_) hReturns
      obtain ⟨s, hs⟩ := List.head?_eq_some_iff.mp hb
      by_cases hComment : b = 35
      · exact .inl hComment
      · rw [hs, skipComment_of_ne hComment] at hReturns
        exact .inr (hReturns b List.mem_cons_self)

theorem reads_of_standsAlone (h : standsAlone l = true) :
    ∃ is, Reads l (some is) ∧ ∀ k v, .entry k v ∈ is → 61 ∉ k := by
  rw [standsAlone] at h
  cases hRead : readExpression l with
  | mk is r =>
    simp only [hRead, Bool.and_eq_true, List.all_eq_true, decide_eq_true_eq] at h
    obtain ⟨hReturns, hItems⟩ := h
    refine ⟨is, reads_of_expression hRead hReturns ?_, ?_⟩
    · split at hItems <;> simp_all
    · intro k v hEntry
      split at hItems
      · cases hEntry
      · cases List.mem_singleton.mp hEntry
        simpa using hItems
      · rename_i hNoEntry
        exact (hNoEntry k v (List.mem_singleton.mp hEntry).symm).elim
      · cases hItems

end AnchorScript.Toml
