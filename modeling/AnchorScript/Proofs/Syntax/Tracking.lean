import AnchorScript.Proofs.Syntax.Cursor
import AnchorScript.Proofs.Syntax.Reading
import AnchorScript.Proofs.Token.StringValues

/-!
# A cursor against a token sequence

From a cursor that has found no fault before its token, the tokens that are left are a sequence. A
computation `Tracks` a reader of this sequence if it ends as the reader does. Computations in a row
track readers in a row.
-/

namespace AnchorScript

namespace Lexer

theorem nextToken_of_blanks_nil {s : Text} (l : Location) (h : (blanks s).2 = []) :
    nextToken l s =
      (⟨.endOfInput, [], l.after (blanks s).1, l.after (blanks s).1, (blanks s).1.contains 10⟩,
        l.after (blanks s).1, []) := by
  rw [nextToken, h]

theorem nextToken_of_blanks_cons {s : Text} {c : UInt8} {r : Text} (l : Location)
    (h : (blanks s).2 = c :: r) :
    nextToken l s =
      (⟨(lexeme c r).kind, (lexeme c r).literal, l.after (blanks s).1,
          stopOf (lexeme c r) ((l.after (blanks s).1).after (c :: (lexeme c r).tail)),
          (blanks s).1.contains 10 ||
            ((lexeme c r).kind = .illegal && (lexeme c r).tail.contains 10)⟩,
        (l.after (blanks s).1).after (c :: (lexeme c r).tail),
        r.drop (lexeme c r).tail.length) := by
  rw [nextToken, h]

/-- The tokens of a text are the first one and, behind any but the end, those of what is left. -/
theorem tokensFrom_eq (l : Location) (s : Text) :
    tokensFrom l s =
      let (t, l', r) := nextToken l s
      t :: if t.kind = .endOfInput then [] else tokensFrom l' r := by
  cases h : (blanks s).2 with
  | nil =>
    rw [tokensFrom_of_blanks_nil l h, nextToken_of_blanks_nil l h]
    rfl
  | cons c r =>
    rw [tokensFrom_of_blanks_cons l h, nextToken_of_blanks_cons l h]
    exact congrArg _ (if_neg (lexeme_kind_ne_endOfInput c r)).symm

theorem nextToken_of_open_string {l l' : Location} {s r : Text} {t : Token}
    (h : nextToken l s = (t, l', r)) (hString : t.kind = .string)
    (hOpen : StringLiteral.value? t.literal = none) : r = [] := by
  cases hBlanks : (blanks s).2 with
  | nil =>
    rw [nextToken_of_blanks_nil l hBlanks] at h
    cases h
    rfl
  | cons c rest =>
    rw [nextToken_of_blanks_cons l hBlanks] at h
    cases h
    have hQuote := isQuote_of_lexeme hString
    rw [lexeme_of_isQuote hQuote rest] at hOpen ⊢
    have hClosed : isClosed c rest = false := by
      rw [← value?_isSome_iff hQuote, hOpen]
      rfl
    rw [stringLength_of_not_isClosed hClosed, List.take_length, List.drop_length]

end Lexer

namespace Syntax

open AnchorScript.Syntax.Parser (Parsed Reader)

namespace Parser

variable {α β : Type} {n k l : Nat}

/-- What a reader gives, without the bound. -/
def result (x : Reader α n) : Except Parser.Failure (α × List Token) :=
  x.map fun p => (p.value, p.rest)

theorem result_bind_congr {x : Reader α n} {f : Parsed α n → Reader β k}
    {g : Parsed α n → Reader β l} (h : ∀ p, result (f p) = result (g p)) :
    result (x >>= f) = result (x >>= g) := by
  cases x with
  | error e => rfl
  | ok p => exact h p

theorem result_rebound {x : Reader α n} {f : Parsed α n → Reader α k}
    (h : ∀ p, result (f p) = .ok (p.value, p.rest)) : result (x >>= f) = result x := by
  cases x with
  | error e => rfl
  | ok p => exact h p

end Parser

open AnchorScript.Syntax.Parser (result)

namespace Cursor

/-- The cursor has come to its token without a fault. An open comment in hand is the only one. -/
def Sound (s : Cursor) : Prop := ∃ place text, s = scanned place text

/-- One fault is found, and whether more input could mend it. -/
structure Faulted (s : Cursor) (f : Parser.Failure) : Prop where
  faults : s.faults = [f]
  waits : s.waits = f.atEnd

/-- The tokens behind the one in hand. -/
def behind (s : Cursor) : List Token :=
  if s.current.kind = .endOfInput then [] else Lexer.tokensFrom s.place s.text

def tokens (s : Cursor) : List Token := s.current :: s.behind

theorem tokens_eq_cons (s : Cursor) : s.tokens = s.current :: s.behind := rfl

theorem length_tokens (s : Cursor) : s.tokens.length = s.behind.length + 1 := rfl

theorem tokens_scanned (place : Location) (text : Text) :
    (scanned place text).tokens = Lexer.tokensFrom place text := by
  rw [Lexer.tokensFrom_eq, scanned, advance, tokens, behind]
  dsimp only
  split <;> rfl

/-- The cursor moves on over tokens of this kind. -/
def passes : TokenKind → Bool
  | .illegal | .endOfInput => false
  | _ => true

theorem passes_of_eq {t : Token} {k : TokenKind} (hKind : t.kind = k) (h : passes k = true) :
    passes t.kind = true := by
  rw [hKind, h]

theorem passes_of_some {γ : Type} {f : TokenKind → Option γ} {c : γ} {k : TokenKind}
    (hIllegal : f .illegal = none) (hEnd : f .endOfInput = none) (h : f k = some c) :
    passes k = true := by
  cases k with
  | illegal =>
    rw [hIllegal] at h
    cases h
  | endOfInput =>
    rw [hEnd] at h
    cases h
  | _ => rfl

theorem isOpenComment_of_passes {t : Token} (h : passes t.kind = true) :
    t.isOpenComment = false := by
  rw [Token.isOpenComment, Bool.and_eq_false_iff]
  left
  rw [decide_eq_false_iff_not]
  intro hKind
  rw [hKind] at h
  cases h

variable {α β : Type} {n k : Nat} {s s' : Cursor} {m : Reads α} {f : α → Reads β}

theorem start_sound (src : Text) : (start src).Sound := ⟨.start, src, rfl⟩

theorem Sound.nextToken (h : s.Sound) :
    ∃ place text, Lexer.nextToken place text = (s.current, s.place, s.text) := by
  obtain ⟨place, text, rfl⟩ := h
  refine ⟨place, text, ?_⟩
  rw [scanned, Cursor.advance]
  dsimp only
  split <;> rfl

theorem Sound.faulted (h : s.Sound) (hOpen : s.current.isOpenComment = true) :
    s.Faulted ⟨s.current, "unterminated block comment"⟩ := by
  obtain ⟨place, text, rfl⟩ := h
  have hToken : (Lexer.nextToken place text).1.isOpenComment = true := by
    rw [scanned, Cursor.advance] at hOpen
    dsimp only at hOpen
    split at hOpen
    · assumption
    · exact hOpen
  rw [scanned, Cursor.advance]
  dsimp only
  rw [if_pos hToken]
  exact ⟨rfl, by simp [Cursor.record, Parser.Failure.atEnd, hToken]⟩

theorem Sound.faultless (h : s.Sound) (hOpen : s.current.isOpenComment = false) :
    s.faults = [] ∧ s.waits = false := by
  obtain ⟨place, text, rfl⟩ := h
  rw [scanned, Cursor.advance] at *
  dsimp only at *
  split at hOpen
  · rename_i hToken
    exact absurd (hOpen.symm.trans hToken) Bool.false_ne_true
  · rename_i hToken
    rw [if_neg hToken]
    exact ⟨rfl, rfl⟩

theorem Sound.advance_eq (h : s.Sound) (hPass : passes s.current.kind = true) :
    s.advance = scanned s.place s.text := by
  obtain ⟨hFaults, hWaits⟩ := h.faultless (isOpenComment_of_passes hPass)
  rw [scanned, Cursor.advance, Cursor.advance, hFaults, hWaits]

theorem Sound.advance (h : s.Sound) (hPass : passes s.current.kind = true) : s.advance.Sound :=
  ⟨s.place, s.text, h.advance_eq hPass⟩

theorem Sound.tokens_advance (h : s.Sound) (hPass : passes s.current.kind = true) :
    s.advance.tokens = s.behind := by
  have hKind : s.current.kind ≠ .endOfInput := by
    intro hKind
    rw [hKind] at hPass
    cases hPass
  rw [h.advance_eq hPass, tokens_scanned, behind, if_neg hKind]

theorem Sound.suffix_advance (h : s.Sound) (hPass : passes s.current.kind = true) :
    s.advance.tokens <:+ s.tokens := by
  rw [h.tokens_advance hPass]
  exact List.suffix_cons _ _

theorem Sound.length_advance (h : s.Sound) (hPass : passes s.current.kind = true) :
    s.advance.tokens.length < s.tokens.length := by
  rw [h.tokens_advance hPass]
  exact Nat.lt_succ_self _

/-- What is recorded behind the fault of an open comment is lost. -/
theorem Sound.record (h : s.Sound) (message : Text) :
    (s.record ⟨s.current, message⟩ (s.current.kind = .endOfInput)).Faulted
      ⟨s.current, if s.current.isOpenComment then "unterminated block comment" else message⟩ := by
  cases hOpen : s.current.isOpenComment with
  | true =>
    have hFault := h.faulted hOpen
    rw [Cursor.record, hFault.faults]
    exact hFault
  | false =>
    rw [Cursor.record, (h.faultless hOpen).1]
    exact ⟨rfl, by simp [Parser.Failure.atEnd, hOpen]⟩

/-- Only the end stands behind a string that nothing closes. -/
theorem Sound.behind_of_open_string (h : s.Sound) (hString : s.current.kind = .string)
    (hOpen : StringLiteral.value? s.current.literal = none) :
    ∃ stop, s.behind = [stop] ∧ stop.kind = .endOfInput := by
  obtain ⟨place, text, hToken⟩ := h.nextToken
  have hText := Lexer.nextToken_of_open_string hToken hString hOpen
  have hKind : s.current.kind ≠ .endOfInput := by
    rw [hString]
    nofun
  rw [behind, if_neg hKind, hText, Lexer.tokensFrom_nil]
  exact ⟨_, rfl, rfl⟩

/-- The computation ends as a reader of the tokens from the one in hand on does: with the same value
before the same tokens, or with the same failure as its only fault. -/
inductive Tracks (m : Reads α) (s : Cursor) : Except Parser.Failure (α × List Token) → Prop
  | read {a : α} {s' : Cursor} (hRun : runFrom m s = some (some a, s')) (hSound : s'.Sound)
      (hTokens : s'.tokens <:+ s.tokens) : Tracks m s (.ok (a, s'.tokens))
  | refused {s' : Cursor} {e : Parser.Failure} (hRun : runFrom m s = some (none, s'))
      (hFault : s'.Faulted e) : Tracks m s (.error e)

namespace Tracks

theorem congr {x y : Except Parser.Failure (α × List Token)} (h : Tracks m s x) (hSame : x = y) :
    Tracks m s y :=
  hSame ▸ h

theorem of_run {m' : Reads α} {x : Except Parser.Failure (α × List Token)} (h : Tracks m' s' x)
    (hRun : runFrom m s = runFrom m' s') (hTokens : s'.tokens <:+ s.tokens) : Tracks m s x := by
  cases h with
  | read hRun' hSound hSuffix => exact .read (hRun.trans hRun') hSound (hSuffix.trans hTokens)
  | refused hRun' hFault => exact .refused (hRun.trans hRun') hFault

theorem of_some {a : α} {x : Except Parser.Failure (β × List Token)}
    (hRun : runFrom m s = some (some a, s')) (hTokens : s'.tokens <:+ s.tokens)
    (h : Tracks (f a) s' x) : Tracks (m >>= f) s x :=
  h.of_run (runFrom_bind_of_some hRun) hTokens

/-- What is tracked cannot fail. -/
theorem exists_of_ok {p : Parsed α n} (h : Tracks m s (result (.ok p))) :
    ∃ a s' hBound, s'.Sound ∧ s'.tokens <:+ s.tokens ∧ runFrom m s = some (some a, s') ∧
      p = ⟨a, s'.tokens, hBound⟩ := by
  obtain ⟨a, rest, hBound⟩ := p
  rcases h with ⟨hRun, hSound, hTokens⟩ | _
  exact ⟨a, _, hBound, hSound, hTokens, hRun, rfl⟩

theorem pure (a : α) (h : s.Sound) {hBound : s.tokens.length < n} :
    Tracks (Pure.pure a) s (result (.ok ⟨a, s.tokens, hBound⟩)) :=
  .read (runFrom_pure a s) h List.suffix_rfl

theorem bind_of_yields {x : Reader α n} {g : Parsed α n → Reader β k}
    (h : Tracks m s (result x))
    (hNext : ∀ a s' hBound, x = .ok ⟨a, s'.tokens, hBound⟩ → s'.Sound →
      Tracks (f a) s' (result (g ⟨a, s'.tokens, hBound⟩))) :
    Tracks (m >>= f) s (result (x >>= g)) := by
  cases x with
  | error e =>
    rcases h with _ | ⟨hRun, hFault⟩
    exact .refused (runFrom_bind_of_none hRun) hFault
  | ok p =>
    obtain ⟨a, s', hBound, hSound, hTokens, hRun, rfl⟩ := h.exists_of_ok
    exact .of_some hRun hTokens (hNext a s' hBound rfl hSound)

theorem bind {x : Reader α n} {g : Parsed α n → Reader β k} (h : Tracks m s (result x))
    (hNext : ∀ a s' hBound, s'.Sound → Tracks (f a) s' (result (g ⟨a, s'.tokens, hBound⟩))) :
    Tracks (m >>= f) s (result (x >>= g)) :=
  bind_of_yields h fun a s' hBound _ => hNext a s' hBound

theorem current?_bind {g : Token → Reads β} {x : Except Parser.Failure (β × List Token)}
    (h : Tracks (g s.current) s x) : Tracks (current? >>= g) s x :=
  h.of_run (runFrom_current?_bind g s) List.suffix_rfl

theorem next_bind {g : PUnit → Reads β} {x : Except Parser.Failure (β × List Token)}
    (hSound : s.Sound) (hPass : passes s.current.kind = true) (h : Tracks (g ⟨⟩) s.advance x) :
    Tracks (next >>= g) s x :=
  h.of_run (runFrom_next_bind g s) (hSound.suffix_advance hPass)

/-- The token in hand is passed over. -/
theorem next_tail (h : s.Sound) (hPass : passes s.current.kind = true)
    {hBound : s.tokens.tail.length < n} :
    Tracks next s (result (.ok ⟨⟨⟩, s.tokens.tail, hBound⟩)) := by
  have hTail : s.tokens.tail = s.advance.tokens := (h.tokens_advance hPass).symm
  simp only [hTail]
  exact next_bind h hPass (pure _ (h.advance hPass))

theorem skip?_bind {kind : TokenKind} {g : Bool → Reads β}
    {x : Except Parser.Failure (β × List Token)} (h : s.Sound) (hPass : passes kind = true)
    (hSkip : s.current.kind = kind → passes s.current.kind = true → Tracks (g true) s.advance x)
    (hStay : s.current.kind ≠ kind → Tracks (g false) s x) :
    Tracks (Cursor.skip? kind >>= g) s x := by
  by_cases hKind : s.current.kind = kind
  · have hPass' := passes_of_eq hKind hPass
    exact .of_some ((runFrom_skip? ..).trans (if_pos hKind)) (h.suffix_advance hPass')
      (hSkip hKind hPass')
  · exact .of_some ((runFrom_skip? ..).trans (if_neg hKind)) List.suffix_rfl (hStay hKind)

theorem refuse (h : s.Sound) (message : Text) :
    Tracks (Cursor.refuse s.current message : Reads α) s
      (result (Parser.fail s.current message : Reader α n)) :=
  .refused (runFrom_refuse _ message s) (h.record message)

/-- A token that was passed over is refused. -/
theorem refuse_earlier {t : Token} (h : s.Sound) (hToken : passes t.kind = true)
    (hCurrent : s.current.isOpenComment = false) (message : Text) :
    Tracks (Cursor.refuse t message : Reads α) s
      (result (Parser.fail t message : Reader α n)) := by
  refine .refused (runFrom_refuse t message s) ?_
  have hOpen := isOpenComment_of_passes hToken
  rw [record, (h.faultless hCurrent).1]
  exact ⟨by simp [hOpen], by simp [Parser.Failure.atEnd, hOpen]⟩

theorem ite {p q : Prop} [Decidable p] [Decidable q] {m' : Reads α} {x y : Reader α n}
    (h : q ↔ p) (hThen : p → Tracks m s (result x)) (hElse : ¬p → Tracks m' s (result y)) :
    Tracks (if p then m else m') s (result (if q then x else y)) := by
  by_cases hp : p
  · rw [if_pos hp, if_pos (h.2 hp)]
    exact hThen hp
  · rw [if_neg hp, if_neg (mt h.1 hp)]
    exact hElse hp

/-- Both tests look at the token in hand. -/
theorem ite_kind {kind : TokenKind} {m' : Reads α} {x y : Reader α n}
    (hThen : s.current.kind = kind → Tracks m s (result x))
    (hElse : s.current.kind ≠ kind → Tracks m' s (result y)) :
    Tracks (if s.current.kind = kind then m else m') s
      (result (if Parser.atKind kind s.tokens then x else y)) :=
  ite decide_eq_true_iff hThen hElse

theorem takeIf {accept : Token → Bool} (hAccept : ∀ t, accept t = true → passes t.kind = true)
    (message : Text) (h : s.Sound) :
    Tracks (Cursor.takeIf accept message) s (result (Parser.takeIf accept message s.tokens)) := by
  refine current?_bind ?_
  rw [tokens_eq_cons, Parser.takeIf]
  refine ite Iff.rfl (fun hTaken => ?_) fun _ => refuse h message
  have hPass := hAccept _ hTaken
  refine next_bind h hPass ?_
  simp only [← h.tokens_advance hPass]
  exact pure _ (h.advance hPass)

theorem take {kind : TokenKind} (hPass : passes kind = true) (message : Text) (h : s.Sound) :
    Tracks (Cursor.take kind message) s (result (Parser.take kind message s.tokens)) :=
  takeIf (fun _ hKind => passes_of_eq (of_decide_eq_true hKind) hPass) message h

/-- What stands in hand is taken without another look. -/
theorem next_taken {kind : TokenKind} {message : Text} {g : PUnit → Reads β}
    {x : Parsed Token s.tokens.length → Reader β k} (h : s.Sound) (hPass : passes kind = true)
    (hKind : s.current.kind = kind)
    (hNext : ∀ hBound, s.advance.Sound →
      Tracks (g ⟨⟩) s.advance (result (x ⟨s.current, s.advance.tokens, hBound⟩))) :
    Tracks (next >>= g) s (result (Parser.take kind message s.tokens >>= x)) := by
  have hPass' := passes_of_eq hKind hPass
  have hTake : Parser.Yields (Parser.take kind message s.tokens) s.current s.advance.tokens := by
    rw [h.tokens_advance hPass']
    exact Parser.yields_take message s.behind hKind
  obtain ⟨hBound, hTake⟩ := hTake
  rw [hTake]
  exact next_bind h hPass' (hNext hBound (h.advance hPass'))

theorem take_refused {kind : TokenKind} {g : Token → Reads β} (h : s.Sound) (message : Text)
    (hKind : s.current.kind ≠ kind) :
    Tracks (Cursor.take kind message >>= g) s
      (result (Parser.fail s.current message : Reader β n)) :=
  .refused (runFrom_bind_of_none (runFrom_take_of_ne message hKind)) (h.record message)

theorem skip? (kind : TokenKind) (hPass : passes kind = true) (h : s.Sound) :
    Tracks (Cursor.skip? kind) s (result (.ok (Parser.skip? kind s.tokens))) := by
  by_cases hKind : s.current.kind = kind
  · have hPass' := passes_of_eq hKind hPass
    have hTail : s.tokens.tail = s.advance.tokens := (h.tokens_advance hPass').symm
    rw [Parser.skip?_of_at (by exact decide_eq_true hKind)]
    simp only [hTail]
    exact .read ((runFrom_skip? ..).trans (if_pos hKind)) (h.advance hPass')
      (h.suffix_advance hPass')
  · rw [Parser.skip?_of_not_at (by exact decide_eq_false hKind)]
    exact .read ((runFrom_skip? ..).trans (if_neg hKind)) h List.suffix_rfl

theorem endOfStatement (what : Text) (h : s.Sound) :
    Tracks (Cursor.endOfStatement what) s (result (Parser.endOfStatement what s.tokens)) := by
  rw [Parser.endOfStatement, Cursor.endOfStatement]
  refine current?_bind (ite_kind (fun hKind => next_tail h (passes_of_eq hKind rfl)) fun _ => ?_)
  exact ite Iff.rfl (fun _ => pure _ h) fun _ => refuse h _

end Tracks

end Cursor

end Syntax

end AnchorScript
