import AnchorScript.Toml

/-!
# Reading on behind a line

What is read from a line by itself is read from it where a line break and more text follow. The
readers of strings and keys are bounded by steps, and read the same with more of them.
-/

namespace AnchorScript.Toml

/-- What can follow a line: nothing, or a line break and more lines. -/
def Follows (y : Text) : Prop := y = [] ∨ ∃ x, y = 10 :: x

variable {y : Text}

theorem Follows.span {p : UInt8 → Bool} (h : Follows y) (hp : p 10 = false) (s : Text) :
    (s ++ y).takeWhile p = s.takeWhile p ∧ (s ++ y).dropWhile p = s.dropWhile p ++ y := by
  induction s with
  | nil =>
    rcases h with rfl | ⟨x, rfl⟩
    · exact ⟨rfl, rfl⟩
    · simp [hp]
  | cons b s ih => cases hb : p b <;> simp [hb, ih]

theorem drop_length_takeWhile (p : UInt8 → Bool) (s : Text) :
    s.drop (s.takeWhile p).length = s.dropWhile p := by
  have hSplit := congrArg (List.drop (s.takeWhile p).length)
    (List.takeWhile_append_dropWhile (p := p) (l := s))
  rw [List.drop_left] at hSplit
  exact hSplit.symm

theorem Follows.head? (h : Follows y) (s : Text) :
    (s ++ y).head? = s.head? ∨ s = [] ∧ (s ++ y).head? = some 10 := by
  cases s with
  | nil =>
    rcases h with rfl | ⟨x, rfl⟩
    · exact .inl rfl
    · exact .inr ⟨rfl, rfl⟩
  | cons => exact .inl rfl

theorem eq_append_of_dropStart? {w s r : Text} (h : Text.dropStart? w s = some r) : s = w ++ r := by
  unfold Text.dropStart? at h
  split at h
  · rename_i hStart
    obtain ⟨r', rfl⟩ := List.isPrefixOf_iff_prefix.mp hStart
    rw [List.drop_left] at h
    rw [Option.some.inj h]
  · cases h

theorem dropStart?_append (h : Follows y) {w : Text} (hw : 10 ∉ w) (s : Text) :
    Text.dropStart? w (s ++ y) = (Text.dropStart? w s).map (· ++ y) := by
  induction w generalizing s with
  | nil => simp [Text.dropStart?]
  | cons c w ih =>
    simp only [List.mem_cons, not_or] at hw
    cases s with
    | nil =>
      rcases h with rfl | ⟨x, rfl⟩
      · rfl
      · simp [Text.dropStart?, Ne.symm hw.1]
    | cons b s =>
      have hRest := ih hw.2 s
      simp only [Text.dropStart?] at hRest ⊢
      by_cases hb : c = b
      · simpa [hb] using hRest
      · simp [hb]

/-- What follows a byte, where the text begins with it. -/
def behind? (b : UInt8) : Text → Option Text
  | [] => none
  | c :: r => if c = b then some r else none

theorem behind?_self (b : UInt8) (r : Text) : behind? b (b :: r) = some r := if_pos rfl

theorem behind?_eq_some {b : UInt8} {s r : Text} (h : behind? b s = some r) : s = b :: r := by
  cases s with
  | nil => cases h
  | cons c s =>
    rw [behind?] at h
    split at h
    · rename_i hByte
      rw [hByte, Option.some.inj h]
    · cases h

theorem behind?_eq_none {b : UInt8} {s : Text} (h : ∀ r, s = b :: r → False) :
    behind? b s = none := by
  cases hBehind : behind? b s with
  | none => rfl
  | some r => exact (h r (behind?_eq_some hBehind)).elim

theorem behind?_append (h : Follows y) {b : UInt8} (hb : b ≠ 10) (s : Text) :
    behind? b (s ++ y) = (behind? b s).map (· ++ y) := by
  cases s with
  | nil =>
    rcases h with rfl | ⟨x, rfl⟩
    · rfl
    · exact if_neg (Ne.symm hb)
  | cons c s => by_cases hc : c = b <;> simp [behind?, hc]

theorem skipBlanks_append (h : Follows y) (s : Text) : skipBlanks (s ++ y) = skipBlanks s ++ y :=
  (h.span rfl s).2

theorem skipComment_append (h : Follows y) (s : Text) :
    skipComment (s ++ y) = skipComment s ++ y := by
  cases s with
  | nil => rcases h with rfl | ⟨x, rfl⟩ <;> rfl
  | cons b s =>
    by_cases hb : b = 35
    · subst hb
      exact (h.span rfl s).2
    · simp [skipComment, hb]

/-- Gaps end inside a text that holds something else. -/
theorem skipGaps_append {s : Text} (h : skipGaps s ≠ []) (y : Text) :
    skipGaps (s ++ y) = skipGaps s ++ y := by
  have hRest : (s.dropWhile isGap).isEmpty = false := List.isEmpty_eq_false_iff.mpr h
  rw [skipGaps, List.dropWhile_append, hRest]
  rfl

theorem skipSpace_append (h : Follows y) {s : Text} (hRest : skipSpace s ≠ []) :
    skipSpace (s ++ y) = skipSpace s ++ y := by
  have hGaps : skipGaps s ≠ [] := fun hNil => hRest (by rw [skipSpace, hNil]; rfl)
  rw [skipSpace, skipGaps_append hGaps, skipComment_append h, skipGaps_append hRest]
  rfl

/-- The second reader reads what the first one does where a line ends behind it. -/
def Extends {α : Type} (f g : Text → Option (α × Text)) : Prop :=
  ∀ (s : Text) (a : α) (r y : Text), Follows y → f s = some (a, r) → g (s ++ y) = some (a, r ++ y)

/-- The text behind some bytes, with what these bytes stand for before it. -/
def prepend (head : Text) : Option (Text × Text) → Option (Text × Text) :=
  Option.map fun (t, r) => (head ++ t, r)

theorem prepend_eq_some {head t r : Text} {body : Option (Text × Text)}
    (h : prepend head body = some (t, r)) : ∃ t', body = some (t', r) ∧ t = head ++ t' := by
  obtain ⟨⟨t', r'⟩, hBody, hPair⟩ := Option.map_eq_some_iff.mp h
  cases hPair
  exact ⟨t', hBody, rfl⟩

theorem basicBody_nil (multi : Bool) (n : Nat) : basicBody multi n [] = none := by
  cases n <;> rfl

theorem basicBody_quote (multi : Bool) (n : Nat) (r : Text) :
    basicBody multi (n + 1) (34 :: r) = some ([], r) := rfl

/-- The text behind the number of a character in this many digits. -/
def codedBody (width : Nat) (multi : Bool) (n : Nat) (r : Text) : Option (Text × Text) :=
  if r.length < width then none
  else (hexNumber? (r.take width)).bind fun k => (codePoint? k).bind fun head =>
    prepend head (basicBody multi n (r.drop width))

theorem basicBody_unicode (multi : Bool) (n : Nat) (r : Text) :
    basicBody multi (n + 1) (92 :: 117 :: r) = codedBody 4 multi n r := rfl

theorem basicBody_longUnicode (multi : Bool) (n : Nat) (r : Text) :
    basicBody multi (n + 1) (92 :: 85 :: r) = codedBody 8 multi n r := rfl

theorem basicBody_escape {b : UInt8} (multi : Bool) (n : Nat) (r : Text) (h : b ≠ 117)
    (h' : b ≠ 85) :
    basicBody multi (n + 1) (92 :: b :: r) =
      if (multi && isBreak b) = true then prepend [] (basicBody multi n (skipGaps r))
      else (simpleEscape? b).bind fun c => prepend [c] (basicBody multi n r) := by
  rw [basicBody]
  · rfl
  · simpa using h
  · simpa using h'

theorem basicBody_byte {b : UInt8} (multi : Bool) (n : Nat) (r : Text) (h : b ≠ 34)
    (h' : b = 92 → r = []) :
    basicBody multi (n + 1) (b :: r) =
      if ((32 ≤ b && b ≠ 92) || (multi && isBreak b)) = true then
        prepend [b] (basicBody multi n r)
      else none := by
  rw [basicBody]
  · rfl
  · simpa using h
  · rintro r' hb rfl
    cases h' hb
  · rintro r' hb rfl
    cases h' hb
  · rintro c r' hb rfl
    cases h' hb

/-- The ways in which the text of a string begins. -/
theorem basicBody_cases (s : Text) :
    s = [] ∨ (∃ r, s = 34 :: r) ∨ (∃ r, s = 92 :: 117 :: r) ∨ (∃ r, s = 92 :: 85 :: r) ∨
      (∃ b r, s = 92 :: b :: r ∧ b ≠ 117 ∧ b ≠ 85) ∨
      ∃ b r, s = b :: r ∧ b ≠ 34 ∧ (b = 92 → r = []) := by
  rcases s with - | ⟨b, r⟩
  · exact .inl rfl
  by_cases hQuote : b = 34
  · exact .inr (.inl ⟨r, by rw [hQuote]⟩)
  by_cases hSlash : b = 92
  · subst hSlash
    rcases r with - | ⟨c, r⟩
    · exact .inr (.inr (.inr (.inr (.inr ⟨92, [], rfl, hQuote, fun _ => rfl⟩))))
    by_cases hU : c = 117
    · exact .inr (.inr (.inl ⟨r, by rw [hU]⟩))
    by_cases hLong : c = 85
    · exact .inr (.inr (.inr (.inl ⟨r, by rw [hLong]⟩)))
    · exact .inr (.inr (.inr (.inr (.inl ⟨c, r, rfl, hU, hLong⟩))))
  · exact .inr (.inr (.inr (.inr (.inr ⟨b, r, rfl, hQuote, fun h => absurd h hSlash⟩))))

theorem extends_basicBody {multi : Bool} {n m : Nat} (h : n ≤ m) :
    Extends (basicBody multi n) (basicBody multi m) := by
  induction n generalizing m with
  | zero =>
    intro s t r y _ hBody
    cases hBody
  | succ n ih =>
    obtain ⟨m, rfl⟩ : ∃ m', m = m' + 1 := ⟨m - 1, by omega⟩
    have ih := ih (Nat.le_of_succ_le_succ h)
    intro s t r y hy hBody
    have prepended {head s' : Text} (hHead : prepend head (basicBody multi n s') = some (t, r)) :
        prepend head (basicBody multi m (s' ++ y)) = some (t, r ++ y) := by
      obtain ⟨t', hRest, rfl⟩ := prepend_eq_some hHead
      rw [ih _ _ _ _ hy hRest]
      rfl
    have coded {width : Nat} {r' : Text} (hCoded : codedBody width multi n r' = some (t, r)) :
        codedBody width multi m (r' ++ y) = some (t, r ++ y) := by
      rw [codedBody] at hCoded ⊢
      split at hCoded
      · cases hCoded
      · rename_i hLength
        rw [if_neg (by rw [List.length_append]; omega), List.take_append_of_le_length (by omega),
          List.drop_append_of_le_length (by omega)]
        obtain ⟨k, hNumber, hCoded⟩ := Option.bind_eq_some_iff.mp hCoded
        obtain ⟨head, hPoint, hCoded⟩ := Option.bind_eq_some_iff.mp hCoded
        rw [hNumber, Option.bind_some, hPoint, Option.bind_some]
        exact prepended hCoded
    rcases basicBody_cases s with rfl | ⟨r', rfl⟩ | ⟨r', rfl⟩ | ⟨r', rfl⟩ | ⟨b, r', rfl, hU, hLong⟩ |
      ⟨b, r', rfl, hQuote, hSlash⟩
    · rw [basicBody_nil] at hBody
      cases hBody
    · rw [basicBody_quote] at hBody
      cases hBody
      exact basicBody_quote ..
    · rw [basicBody_unicode] at hBody
      rw [List.cons_append, List.cons_append, basicBody_unicode]
      exact coded hBody
    · rw [basicBody_longUnicode] at hBody
      rw [List.cons_append, List.cons_append, basicBody_longUnicode]
      exact coded hBody
    · rw [basicBody_escape multi n r' hU hLong] at hBody
      rw [List.cons_append, List.cons_append, basicBody_escape multi m _ hU hLong]
      split at hBody
      · rename_i hBreak
        have hRest : skipGaps r' ≠ [] := by
          intro hNil
          rw [hNil, basicBody_nil] at hBody
          cases hBody
        rw [if_pos hBreak, skipGaps_append hRest]
        exact prepended hBody
      · rename_i hBreak
        rw [if_neg hBreak]
        obtain ⟨c, hEscape, hBody⟩ := Option.bind_eq_some_iff.mp hBody
        rw [hEscape]
        exact prepended hBody
    · rw [basicBody_byte multi n r' hQuote hSlash] at hBody
      split at hBody
      · rename_i hPlain
        have hRest : r' ≠ [] := by
          rintro rfl
          rw [basicBody_nil] at hBody
          cases hBody
        rw [List.cons_append, basicBody_byte multi m _ hQuote fun hb => absurd (hSlash hb) hRest,
          if_pos hPlain]
        exact prepended hBody
      · cases hBody

theorem literalBody_eq (s : Text) : literalBody s =
    match s.dropWhile fun b => (32 ≤ b || b = 9) && b ≠ 39 with
    | 39 :: r => some (s.takeWhile fun b => (32 ≤ b || b = 9) && b ≠ 39, r)
    | _ => none := by
  rw [← drop_length_takeWhile]
  rfl

theorem extends_literalBody : Extends literalBody literalBody := by
  intro s t r y hy hBody
  obtain ⟨hTaken, hLeft⟩ := hy.span (p := fun b => (32 ≤ b || b = 9) && b ≠ 39) rfl s
  rw [literalBody_eq] at hBody
  rw [literalBody_eq, hTaken, hLeft]
  split at hBody
  · rename_i r' hRest
    cases hBody
    rw [hRest]
    rfl
  · cases hBody

theorem three_le_of_multiLiteralBody {s t r : Text} (h : multiLiteralBody s = some (t, r)) :
    3 ≤ s.length := by
  fun_induction multiLiteralBody s generalizing t with
  | case1 => simp
  | case2 b s hQuotes hByte ih =>
    obtain ⟨⟨t', r'⟩, hRest, hPair⟩ := Option.map_eq_some_iff.mp h
    cases hPair
    exact Nat.le_succ_of_le (ih hRest)
  | case3 => cases h
  | case4 => cases h

theorem extends_multiLiteralBody : Extends multiLiteralBody multiLiteralBody := by
  intro s t r y hy hBody
  fun_induction multiLiteralBody s generalizing t with
  | case1 =>
    cases hBody
    rfl
  | case2 b s hQuotes hByte ih =>
    obtain ⟨⟨t', r'⟩, hRest, hPair⟩ := Option.map_eq_some_iff.mp hBody
    cases hPair
    obtain ⟨c, d, s', rfl⟩ : ∃ c d s', s = c :: d :: s' := by
      match s, three_le_of_multiLiteralBody hRest with
      | c :: d :: s', _ => exact ⟨c, d, s', rfl⟩
    rw [List.cons_append, multiLiteralBody, if_pos hByte, ih _ hRest]
    · rfl
    · rintro r hb hs
      obtain ⟨rfl, rfl, rfl⟩ : c = 39 ∧ d = 39 ∧ s' ++ y = r := by simpa using hs
      exact hQuotes s' hb rfl
  | case3 => cases hBody
  | case4 => cases hBody

theorem length_dropBreak_le (s : Text) : (dropBreak s).length ≤ s.length := by
  unfold dropBreak
  split
  · exact Nat.le_add_right _ 2
  · exact Nat.le_add_right _ 1
  · exact Nat.le_refl _

/-- A line break that begins a text is within it. -/
theorem dropBreak_append {s : Text} (h : 2 ≤ s.length) (y : Text) :
    dropBreak (s ++ y) = dropBreak s ++ y := by
  match s, h with
  | b :: c :: r, _ =>
    by_cases hFeed : b = 10
    · subst hFeed
      rfl
    · by_cases hReturn : b = 13 ∧ c = 10
      · rw [hReturn.1, hReturn.2]
        rfl
      · have hKept (z : Text) : dropBreak (b :: c :: z) = b :: c :: z := by
          unfold dropBreak
          split <;> simp_all
        exact (hKept (r ++ y)).trans (congrArg (· ++ y) (hKept r).symm)

/-- The text of a string in three double quotes, after its opening quotes. -/
def multiBasicBody (body : Text) : Option (Text × Text) := do
  let (t, r) ← basicBody true (body.length + 1) (dropBreak body)
  return (t, ← Text.dropStart? "\"\"" r)

theorem two_le_of_multiBasicBody {b : Text} {v : Text × Text} (h : multiBasicBody b = some v) :
    2 ≤ b.length := by
  obtain ⟨⟨t, r⟩, hBody, h⟩ := Option.bind_eq_some_iff.mp h
  obtain ⟨r', hQuotes, _⟩ := Option.bind_eq_some_iff.mp h
  match b with
  | [] =>
    rw [show dropBreak [] = [] from rfl, basicBody_nil] at hBody
    cases hBody
  | [c] =>
    by_cases hFeed : c = 10
    · subst hFeed
      rw [show dropBreak [10] = [] from rfl, basicBody_nil] at hBody
      cases hBody
    · have hKept : dropBreak [c] = [c] := by
        unfold dropBreak
        split <;> simp_all
      rw [hKept] at hBody
      by_cases hQuote : c = 34
      · subst hQuote
        rw [basicBody_quote] at hBody
        cases hBody
        cases hQuotes
      · rw [basicBody_byte true _ _ hQuote fun _ => rfl, basicBody_nil] at hBody
        split at hBody <;> cases hBody
  | c :: d :: b => exact Nat.le_add_left ..

theorem extends_multiBasicBody : Extends multiBasicBody multiBasicBody := by
  intro b v r y hy h
  have hLength := two_le_of_multiBasicBody h
  obtain ⟨⟨t, r'⟩, hBody, h⟩ := Option.bind_eq_some_iff.mp h
  obtain ⟨r'', hQuotes, hPair⟩ := Option.bind_eq_some_iff.mp h
  cases hPair
  rw [multiBasicBody, dropBreak_append hLength,
    extends_basicBody (by simp) _ _ _ _ hy hBody]
  simp [dropStart?_append hy (show 10 ∉ Text.ofString "\"\"" by decide), hQuotes]

theorem readString_cases {s : Text} {v : Text × Text} (h : readString s = some v) :
    (∃ r, Text.dropStart? "'''" s = some r ∧ multiLiteralBody (dropBreak r) = some v) ∨
    (∃ r, Text.dropStart? "'''" s = none ∧ s = 39 :: r ∧ literalBody r = some v) ∨
    (∃ r b, s = 34 :: r ∧ Text.dropStart? "\"\"" r = some b ∧ multiBasicBody b = some v) ∨
    ∃ r, s = 34 :: r ∧ Text.dropStart? "\"\"" r = none ∧ basicBody false (r.length + 1) r = some v := by
  unfold readString at h
  split at h
  · exact .inl ⟨_, ‹_›, h⟩
  · split at h
    · exact .inr (.inl ⟨_, ‹_›, rfl, h⟩)
    · split at h
      · exact .inr (.inr (.inl ⟨_, _, rfl, ‹_›, h⟩))
      · exact .inr (.inr (.inr ⟨_, rfl, ‹_›, h⟩))
    · cases h

theorem readString_single {r : Text} (h : Text.dropStart? "'''" (39 :: r) = none) :
    readString (39 :: r) = literalBody r := by
  unfold readString
  rw [h]
  rfl

theorem readString_double (r : Text) : readString (34 :: r) =
    match Text.dropStart? "\"\"" r with
    | some b => multiBasicBody b
    | none => basicBody false (r.length + 1) r := rfl

theorem extends_readString : Extends readString readString := by
  intro s t r y hy hRead
  rcases readString_cases hRead with ⟨b, hStart, hBody⟩ | ⟨b, hStart, rfl, hBody⟩ |
    ⟨b, c, rfl, hStart, hBody⟩ | ⟨b, rfl, hStart, hBody⟩
  · have hLength : 2 ≤ b.length := by
      have := three_le_of_multiLiteralBody hBody
      have := length_dropBreak_le b
      omega
    unfold readString
    rw [dropStart?_append hy (by decide), hStart, Option.map_some]
    simp only [dropBreak_append hLength]
    exact extends_multiLiteralBody _ _ _ _ hy hBody
  · rw [List.cons_append, readString_single (by
      rw [← List.cons_append, dropStart?_append hy (by decide), hStart]
      rfl)]
    exact extends_literalBody _ _ _ _ hy hBody
  · rw [List.cons_append, readString_double, dropStart?_append hy (by decide), hStart,
      Option.map_some]
    exact extends_multiBasicBody _ _ _ _ hy hBody
  · rw [List.cons_append, readString_double, dropStart?_append hy (by decide), hStart,
      Option.map_none]
    exact extends_basicBody (by simp) _ _ _ _ hy hBody

theorem readKey_eq (s : Text) : readKey s =
    if (s.takeWhile isKeyByte).isEmpty then
      match s with
      | 34 :: r => basicBody false (r.length + 1) r
      | _ => none
    else some (s.takeWhile isKeyByte, s.dropWhile isKeyByte) := by
  rw [← drop_length_takeWhile]
  rfl

theorem extends_readKey : Extends readKey readKey := by
  intro s k r y hy hRead
  obtain ⟨hTaken, hLeft⟩ := hy.span (p := isKeyByte) (by decide) s
  rw [readKey_eq] at hRead
  rw [readKey_eq, hTaken, hLeft]
  split at hRead
  · rename_i hNone
    rw [if_pos hNone]
    split at hRead
    · exact extends_basicBody (by simp) _ _ _ _ hy hRead
    · cases hRead
  · rename_i hSome
    cases hRead
    rw [if_neg hSome]

theorem readNames_succ (n : Nat) (s : Text) : readNames (n + 1) s =
    (readKey s).bind fun (k, r) =>
      match behind? 46 (skipBlanks r) with
      | some r' => some (match readNames n (skipBlanks r') with
        | some (ks, r) => (k :: ks, r)
        | none => ([k], r))
      | none => some ([k], r) := by
  rw [readNames]
  refine congrArg _ (funext fun (k, r) => ?_)
  dsimp only
  cases hPoint : behind? 46 (skipBlanks r) with
  | some r' =>
    simp only [behind?_eq_some hPoint]
    cases readNames n (skipBlanks r') <;> rfl
  | none =>
    split
    · rename_i hBlanks
      rw [hBlanks, behind?_self] at hPoint
      cases hPoint
    · rfl

/-- Keys are read as far as there are any, where no point follows them. -/
theorem extends_readNames {n m : Nat} (h : n ≤ m) {s r : Text} {ks : List Text} (hy : Follows y)
    (hRead : readNames n s = some (ks, r)) (hEnd : behind? 46 (skipBlanks r) = none) :
    readNames m (s ++ y) = some (ks, r ++ y) := by
  induction n generalizing m s ks with
  | zero =>
    rw [readNames] at hRead
    cases hRead
  | succ n ih =>
    obtain ⟨m, rfl⟩ : ∃ m', m = m' + 1 := ⟨m - 1, by omega⟩
    rw [readNames_succ] at hRead ⊢
    obtain ⟨⟨k, r₁⟩, hKey, hRest⟩ := Option.bind_eq_some_iff.mp hRead
    rw [extends_readKey _ _ _ _ hy hKey, Option.bind_some]
    simp only [skipBlanks_append hy, behind?_append hy (show (46 : UInt8) ≠ 10 by decide)]
    cases hPoint : behind? 46 (skipBlanks r₁) with
    | none =>
      simp only [hPoint] at hRest
      cases hRest
      rfl
    | some r' =>
      simp only [hPoint] at hRest
      simp only [Option.map_some, skipBlanks_append hy]
      cases hNames : readNames n (skipBlanks r') with
      | none =>
        rw [hNames] at hRest
        cases hRest
        rw [hPoint] at hEnd
        cases hEnd
      | some v =>
        rw [hNames] at hRest
        cases hRest
        rw [ih (Nat.le_of_succ_le_succ h) hNames]

end AnchorScript.Toml
