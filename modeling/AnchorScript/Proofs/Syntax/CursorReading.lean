import AnchorScript.Proofs.Syntax.Precedence
import AnchorScript.Proofs.Syntax.Tracking

/-!
# What a cursor reads

Every computation over the cursor tracks the reader of its name. The loops of the readers are
recursions that put one item before what the rest gives; over the cursor the items are collected, so
a loop that has some items tracks the reader with these before its own. An expression goes on over
the cursor until nothing continues it, postfixes and operators alike, while the readers take the
postfixes first.
-/

namespace AnchorScript.Syntax

open AnchorScript.Syntax.Parser (Parsed Reader Infix result startsPostfix unaryOp? anyLevel)

namespace Parser

variable {α β : Type} {n k : Nat}

/-- The items `as` and behind them those that are read. -/
def prepended (as : List α) (x : Reader (List α) n) : Reader (List α) n := do
  let ⟨more, r, h⟩ ← x
  return ⟨as ++ more, r, h⟩

theorem prepended_ok (as : List α) {r : List Token} (h : r.length < n) :
    prepended as (.ok ⟨[], r, h⟩) = .ok ⟨as, r, h⟩ := by
  change Except.ok (⟨as ++ [], r, h⟩ : Parsed (List α) n) = _
  rw [List.append_nil]

theorem prepended_bind (as : List β) (x : Reader α n) (f : Parsed α n → Reader (List β) k) :
    prepended as (x >>= f) = x >>= fun p => prepended as (f p) :=
  bind_assoc ..

theorem result_prepended_nil (x : Reader (List α) n) : result (prepended [] x) = result x :=
  result_rebound fun _ => rfl

theorem result_prepended (as : List α) (x : Reader (List α) n) :
    result (prepended as x) = (result x).map fun p => (as ++ p.1, p.2) := by
  cases x <;> rfl

theorem result_prepended_rebound {as : List α} {x : Reader (List α) n}
    {f : Parsed (List α) n → Reader (List α) k}
    (h : ∀ p, result (f p) = .ok (p.value, p.rest)) :
    result (prepended as (x >>= f)) = result (prepended as x) := by
  rw [result_prepended, result_prepended, result_rebound h]

/-- An item that is put before the others when they are read was collected before them. -/
theorem result_prepended_cons {as : List α} {a : α} {x : Reader (List α) n}
    {f : Parsed (List α) n → Reader (List α) k}
    (h : ∀ p, result (f p) = .ok (a :: p.value, p.rest)) :
    result (prepended as (x >>= f)) = result (prepended (as ++ [a]) x) := by
  rw [result_prepended]
  cases x with
  | error e => rfl
  | ok p =>
    change (result (f p)).map _ = .ok (as ++ [a] ++ p.value, p.rest)
    rw [h p, List.append_assoc]
    rfl

theorem length_lt_succ_of_rest {r r₁ : List Token} (h : r₁.length < r.length) :
    r₁.length < r.length + 1 :=
  Nat.lt_succ_of_lt h

theorem length_lt_of_rests {r r₁ r₂ : List Token} (h₁ : r₁.length < r.length)
    (h₂ : r₂.length < r₁.length) : r₂.length < r.length :=
  Nat.lt_trans h₂ h₁

theorem length_lt_succ_of_rest_of_rest {r r₁ r₂ : List Token} (h₁ : r₁.length < r.length)
    (h₂ : r₂.length < r₁.length) : r₂.length < r.length + 1 :=
  length_lt_succ_of_rest (length_lt_of_rests h₁ h₂)

theorem length_lt_succ_of_rests {r r₁ r₂ : List Token} (h₁ : r₁.length < r.length + 1)
    (h₂ : r₂.length < r₁.length + 1) : r₂.length < r.length + 1 :=
  Nat.lt_of_lt_of_le h₂ h₁

theorem length_lt_cons_of_rests (t : Token) {r r₁ r₂ : List Token}
    (h₁ : r₁.length < r.length + 1) (h₂ : r₂.length < r₁.length + 1) :
    r₂.length < (t :: r).length + 1 :=
  Nat.lt_succ_of_lt (length_lt_succ_of_rests h₁ h₂)

/-- The expression that token `t` begins, up to its postfixes. -/
def prefixed (t : Token) (r : List Token) : Reader Expr (r.length + 1) :=
  match unaryOp? t.kind with
  | some op => do
    let ⟨e, r₁, h⟩ ← operand r
    return ⟨.unary t.pos op e, r₁, length_lt_succ_of_rest h⟩
  | none => primary t r

/-- The first postfix of `left`, which token `t` begins. -/
def postfixed (left : Expr) (t : Token) (r : List Token) : Reader Expr (r.length + 1) :=
  match t.kind with
  | .punct .dot => do
    let ⟨name, r₁, h⟩ ← takeIf Token.isName "expected member name after '.'" r
    return ⟨.member left name.pos name.literal, r₁, length_lt_succ_of_rest h⟩
  | .punct .lparen => do
    let ⟨args, r₁, h⟩ ← exprsUntil .rparen "argument list" r
    return ⟨.call left args, r₁, length_lt_succ_of_rest h⟩
  | _ => do
    let ⟨position, r₁, h⟩ ← exprAt anyLevel r
    let ⟨_, r₂, h₁⟩ ← takePunct .rbracket "expected ']' after index expression" r₁
    return ⟨.index left position, r₂, length_lt_succ_of_rest_of_rest h h₁⟩

/-- Extends `left` by its postfixes and the operators behind them. -/
def extended (min : Nat) (left : Expr) (ts : List Token) : Reader Expr (ts.length + 1) := do
  let ⟨e, r, h⟩ ← postfixes left ts
  let ⟨e', r', h'⟩ ← climb min e r
  return ⟨e', r', length_lt_succ_of_rests h h'⟩

theorem result_extended_of_noPostfix {min : Nat} {left : Expr} {ts : List Token}
    (h : NoPostfix ts) : result (extended min left ts) = result (climb min left ts) := by
  obtain ⟨_, hPostfixes⟩ := postfixes_of_noPostfix (e := left) h
  rw [extended, hPostfixes]
  exact result_rebound (x := climb min left ts) fun _ => rfl

theorem result_extended_of_postfix {min : Nat} {left : Expr} {t : Token} {r : List Token}
    (h : startsPostfix t = true) :
    result (extended min left (t :: r)) = result (do
      let ⟨e, r₁, h₁⟩ ← postfixed left t r
      let ⟨e', r₂, h₂⟩ ← extended min e r₁
      return (⟨e', r₂, length_lt_cons_of_rests t h₁ h₂⟩ :
        Parsed Expr ((t :: r).length + 1))) := by
  rw [extended, postfixes, postfixed]
  simp only [startsPostfix, Bool.or_eq_true, Bool.and_eq_true, decide_eq_true_eq] at h
  rcases h with hKind | ⟨hKind | hKind, hLine⟩
  · simp only [hKind, if_true, bind_assoc, pure_bind, extended]
  · simp [hKind, hLine, extended]
  · simp [hKind, hLine, extended]

/-- Behind a prefix operator no other operator stands outside brackets. -/
theorem exprAt_eight (ts : List Token) : exprAt 8 ts = operand ts := by
  rw [exprAt]
  cases h : operand ts with
  | error e => rfl
  | ok p =>
    obtain ⟨e, r, hBound⟩ := p
    have hLooser : LooserNext 8 r := fun _ _ i _ _ => Nat.lt_succ_of_le i.level_le
    obtain ⟨_, hClimb⟩ := climb_of_looserNext (e := e) hLooser
    change (climb 8 e r >>= _) = _
    rw [hClimb]
    rfl

theorem result_exprAt_cons (min : Nat) (t : Token) (r : List Token) :
    result (exprAt min (t :: r)) = result (do
      let ⟨e, r₁, h₁⟩ ← prefixed t r
      let ⟨e', r₂, h₂⟩ ← extended min e r₁
      return (⟨e', r₂, length_lt_cons_of_rests t h₁ h₂⟩ :
        Parsed Expr ((t :: r).length + 1))) := by
  rw [exprAt, operand]
  cases hOp : unaryOp? t.kind with
  | some op =>
    simp only [prefixed, hOp, bind_assoc, pure_bind]
    cases h : operand r with
    | error e => rfl
    | ok p =>
      -- What a prefix operator applies to has its postfixes already.
      obtain ⟨e, r', hBound⟩ := p
      obtain ⟨_, _, _, _, _, hPostfix⟩ := operand_spelled ⟨hBound, h⟩
      obtain ⟨_, hPostfixes⟩ := postfixes_of_noPostfix (e := .unary t.pos op e) hPostfix
      change result (climb min (.unary t.pos op e) r' >>= _) =
        result ((postfixes (.unary t.pos op e) r' >>= _) >>= _)
      rw [hPostfixes]
      simp only [bind_assoc, pure_bind]
      exact result_bind_congr (x := climb min (.unary t.pos op e) r') fun _ => rfl
  | none =>
    simp only [prefixed, hOp, bind_assoc, pure_bind, extended]
    refine result_bind_congr (x := primary t r) fun p => ?_
    refine result_bind_congr (x := postfixes p.value p.rest) fun q => ?_
    exact result_bind_congr (x := climb min q.value q.rest) fun _ => rfl

/-- The parameters of a method. -/
def params (ts : List Token) : Reader (List FieldDecl) ts.length := do
  let ⟨_, r, h⟩ ← takePunct .lparen "expected '(' to start parameter list" ts
  let ⟨ps, r₁, h₁⟩ ← listUntil .rparen "expected ')' after parameter list" (field "parameter") r
  return ⟨ps, r₁, length_lt_of_rests h h₁⟩

/-- A list of expressions is a list like any other. -/
theorem exprsUntil_eq (closing : Punct) (what : Text) (ts : List Token) :
    exprsUntil closing what ts =
      listUntil closing ("expected '" ++ closing.text ++ "' to close " ++ what) (exprAt anyLevel)
        ts := by
  rw [exprsUntil, listUntil]
  split
  · rename_i hAt
    obtain ⟨t, r, rfl, hKind⟩ := exists_cons_of_atPunct hAt
    have hTake (message : Text) :
        takePunct closing message (t :: r) = .ok ⟨t, r, length_lt_cons t r⟩ :=
      if_pos (decide_eq_true hKind)
    rw [hTake, hTake]
  · cases exprAt anyLevel ts with
    | error e => rfl
    | ok p =>
      change (if _ then _ else _) = (if _ then _ else _)
      split
      · rw [exprsUntil_eq]
      · rfl
termination_by ts.length
decreasing_by
  have hRest := p.bound
  have hSkip := (skip? (.punct .comma) p.rest).bound
  exact Nat.lt_of_le_of_lt (Nat.le_of_lt_succ hSkip) hRest

end Parser

open AnchorScript.Syntax.Parser (prepended prepended_ok prepended_bind)

namespace Cursor

variable {α β : Type} {s : Cursor}

theorem Tracks.collected {n : Nat} (as : List α) (h : s.Sound) {hBound : s.tokens.length < n} :
    Tracks (Pure.pure as) s (result (prepended as (.ok ⟨[], s.tokens, hBound⟩))) := by
  rw [prepended_ok]
  exact .pure as h

theorem listRounds_tracks (closing : Punct) (message : Text) {item : Reads α}
    {reader : (ts : List Token) → Reader α ts.length} (as : List α) (s : Cursor) (h : s.Sound)
    (hItem : ∀ s' : Cursor, s'.tokens.length ≤ s.tokens.length → s'.Sound →
      Tracks item s' (result (reader s'.tokens))) :
    Tracks
      (do
        let as ← rounds (itemRound closing item) as
        let _ ← take (.punct closing) message
        return as) s
      (result (prepended as (Parser.listUntil closing message reader s.tokens))) := by
  rw [rounds_eq, Parser.listUntil]
  simp only [bind_assoc]
  refine .current?_bind ?_
  by_cases hClose : s.current.kind = .punct closing
  · have hAt : Parser.atPunct closing s.tokens = true := decide_eq_true hClose
    rw [if_pos hClose, if_pos hAt]
    simp only [pure_bind, prepended_bind]
    exact .bind (.take rfl _ h) fun _ s₁ _ h => .collected as h
  · have hNotAt : ¬Parser.atPunct closing s.tokens = true := mt of_decide_eq_true hClose
    rw [if_neg hClose, if_neg hNotAt]
    simp only [bind_assoc, prepended_bind]
    refine .bind (hItem s (Nat.le_refl _) h) fun a s₁ h₁ h => ?_
    obtain ⟨more, s₂, h₂, h, hTokens, hRun, hSkip⟩ :=
      (Tracks.skip? (.punct .comma) rfl h).exists_of_ok
    dsimp only
    rw [hSkip]
    refine .of_some hRun hTokens ?_
    cases more with
    | true =>
      simp only [if_true, pure_bind]
      have hNext := listRounds_tracks closing message (as ++ [a]) s₂ h
        fun s' hs' => hItem s' (by omega)
      exact hNext.congr (Parser.result_prepended_cons fun _ => rfl).symm
    | false =>
      simp only [Bool.false_eq_true, if_false, pure_bind, prepended_bind]
      exact .bind (.take rfl _ h) fun _ s₃ _ h => .pure _ h
termination_by s.tokens.length
decreasing_by omega

theorem listUntil_tracks (closing : Punct) (message : Text) {item : Reads α}
    {reader : (ts : List Token) → Reader α ts.length}
    (hItem : ∀ s : Cursor, s.Sound → Tracks item s (result (reader s.tokens))) (h : s.Sound) :
    Tracks (listUntil closing message item) s
      (result (Parser.listUntil closing message reader s.tokens)) :=
  (listRounds_tracks _ _ [] s h fun s' _ => hItem s').congr
    (Parser.result_prepended_nil _)

theorem passes_of_startsPostfix {t : Token} (h : startsPostfix t = true) :
    passes t.kind = true := by
  simp only [startsPostfix, Bool.or_eq_true, Bool.and_eq_true, decide_eq_true_eq] at h
  rcases h with hKind | ⟨hKind | hKind, _⟩ <;> exact passes_of_eq hKind rfl

theorem passes_of_isName {t : Token} (h : t.isName = true) : passes t.kind = true := by
  rw [Token.isName] at h
  split at h
  · exact passes_of_eq ‹_› rfl
  · exact passes_of_eq ‹_› rfl
  · cases h

section Rounds

variable {min : Nat} {left : Expr}

theorem runFrom_exprRounds_extension (hMin : min ≤ 9) (hStart : startsPostfix s.current = true) :
    runFrom (rounds (exprRound min) left) s =
      runFrom (postfixExpr left >>= rounds (exprRound min)) s := by
  rw [rounds_eq, exprRound, roundOf]
  simp only [bind_assoc]
  rw [runFrom_current?_bind, if_pos hStart, if_neg (Nat.not_lt.mpr hMin)]
  simp only [bind_assoc, pure_bind, Sum.elim_inl]

theorem runFrom_exprRounds_operator {i : Infix} (hStart : startsPostfix s.current = false)
    (hInfix : Infix.ofKind? s.current.kind = some i) (hTight : min ≤ i.level) :
    runFrom (rounds (exprRound min) left) s =
      runFrom (do
        next
        let right ← exprAt i.rightLevel
        rounds (exprRound min) (i.apply left right)) s := by
  rw [rounds_eq, exprRound, roundOf]
  simp only [bind_assoc]
  rw [runFrom_current?_bind, hStart, hInfix]
  simp only [Bool.false_eq_true, if_false, if_neg (Nat.not_lt.mpr hTight), bind_assoc, pure_bind,
    Sum.elim_inl]

theorem runFrom_exprRounds_stop (hStart : startsPostfix s.current = true → 9 < min)
    (hLoose : ∀ i, Infix.ofKind? s.current.kind = some i → i.level < min) :
    runFrom (rounds (exprRound min) left) s = some (some left, s) := by
  rw [rounds_eq, exprRound, roundOf]
  simp only [bind_assoc]
  rw [runFrom_current?_bind]
  by_cases hPostfix : startsPostfix s.current = true
  · simp only [if_pos hPostfix, if_pos (hStart hPostfix), pure_bind]
    rfl
  · rw [if_neg hPostfix]
    cases hInfix : Infix.ofKind? s.current.kind with
    | none => rfl
    | some i =>
      simp only [if_pos (hLoose i hInfix), pure_bind]
      rfl

end Rounds

mutual

theorem exprAt_tracks {min : Nat} (hMin : min ≤ 9) (s : Cursor) (h : s.Sound) :
    Tracks (exprAt min) s (result (Parser.exprAt min s.tokens)) := by
  have hLength := s.length_tokens
  rw [exprAt_eq, exprOf, tokens_eq_cons, Parser.result_exprAt_cons]
  refine .bind (prefixExpr_tracks s h) fun left s₁ h₁ h => ?_
  exact (exprRounds_tracks hMin left s₁ h).congr (Parser.result_rebound fun _ => rfl).symm
termination_by 4 * s.tokens.length + 2
decreasing_by all_goals omega

theorem exprRounds_tracks {min : Nat} (hMin : min ≤ 9) (left : Expr) (s : Cursor) (h : s.Sound) :
    Tracks (rounds (exprRound min) left) s (result (Parser.extended min left s.tokens)) := by
  have hLength := s.length_tokens
  cases hStart : startsPostfix s.current with
  | true =>
    rw [tokens_eq_cons, Parser.result_extended_of_postfix hStart]
    refine .of_run ?_ (runFrom_exprRounds_extension hMin hStart) List.suffix_rfl
    refine .bind (postfixExpr_tracks left s h hStart) fun next s₁ h₁ h => ?_
    exact (exprRounds_tracks hMin next s₁ h).congr (Parser.result_rebound fun _ => rfl).symm
  | false =>
    have hNone : Parser.NoPostfix s.tokens := by
      rintro _ _ hSame
      cases hSame
      exact hStart
    rw [Parser.result_extended_of_noPostfix hNone, tokens_eq_cons, Parser.climb]
    by_cases hTight : ∃ i, Infix.ofKind? s.current.kind = some i ∧ min ≤ i.level
    · obtain ⟨i, hInfix, hTight⟩ := hTight
      have hPass := passes_of_some rfl rfl hInfix
      have hShorter := h.length_advance hPass
      have hRight : i.rightLevel ≤ 8 := by
        have hLevel := i.level_le
        have hStep := i.rightLevel_le
        omega
      simp only [hInfix, if_pos hTight]
      rw [← h.tokens_advance hPass]
      refine .of_run ?_ (runFrom_exprRounds_operator hStart hInfix hTight) List.suffix_rfl
      refine .next_bind h hPass ?_
      refine .bind_of_yields (exprAt_tracks (by omega) _ (h.advance hPass))
        fun right s₁ h₁ hYields h => ?_
      -- The right operand has its postfixes, so only operators can follow the two operands.
      obtain ⟨_, _, _, _, _, _, hNone⟩ := Parser.exprAt_spelled hRight ⟨h₁, hYields⟩
      refine (exprRounds_tracks hMin _ s₁ h).congr ?_
      rw [Parser.result_extended_of_noPostfix hNone]
      exact (Parser.result_rebound fun _ => rfl).symm
    · have hLoose (i : Infix) (hInfix : Infix.ofKind? s.current.kind = some i) : i.level < min :=
        Nat.lt_of_not_le fun hLevel => hTight ⟨i, hInfix, hLevel⟩
      have hStop : Tracks (rounds (exprRound min) left) s (.ok (left, s.tokens)) :=
        .read (runFrom_exprRounds_stop (by simp [hStart]) hLoose) h List.suffix_rfl
      split
      · exact hStop
      · rename_i i hInfix
        rw [if_neg (Nat.not_le.mpr (hLoose i hInfix))]
        exact hStop
termination_by 4 * s.tokens.length + 1
decreasing_by all_goals omega

theorem prefixExpr_tracks (s : Cursor) (h : s.Sound) :
    Tracks prefixExpr s (result (Parser.prefixed s.current s.behind)) := by
  rw [prefixExpr, prefixOf, Parser.prefixed]
  refine .current?_bind ?_
  cases hOp : unaryOp? s.current.kind with
  | some op =>
    have hPass := passes_of_some rfl rfl hOp
    have hShorter := h.length_advance hPass
    dsimp only
    rw [← h.tokens_advance hPass, ← Parser.exprAt_eight]
    refine .next_bind h hPass ?_
    exact .bind (exprAt_tracks (by decide) _ (h.advance hPass)) fun e s₁ h₁ h => .pure _ h
  | none =>
    dsimp only
    rw [Parser.primary]
    by_cases hPass : passes s.current.kind = true
    · have hShorter := h.length_advance hPass
      have hNext := h.advance hPass
      rw [← h.tokens_advance hPass]
      cases hKind : s.current.kind with
      | ident => exact .next_bind h hPass (.pure _ hNext)
      | number => exact .next_bind h hPass (.pure _ hNext)
      | string =>
        cases hValue : StringLiteral.value? s.current.literal with
        | none => exact .refuse h _
        | some value => exact .next_bind h hPass (.pure _ hNext)
      | keyword word =>
        cases word
        case kwTrue => exact .next_bind h hPass (.pure _ hNext)
        case kwFalse => exact .next_bind h hPass (.pure _ hNext)
        case kwNew =>
          refine .next_bind h hPass ?_
          refine .bind (.take rfl _ hNext) fun name s₁ h₁ h => ?_
          refine .bind (.take rfl _ h) fun _ s₂ h₂ h => ?_
          exact .bind (exprsUntil_tracks .rparen _ s₂ h) fun args s₃ h₃ h => .pure _ h
        all_goals exact .refuse h _
      | punct p =>
        cases p
        case lbracket =>
          refine .next_bind h hPass ?_
          exact .bind (exprsUntil_tracks .rbracket _ _ hNext) fun elems s₁ h₁ h => .pure _ h
        case lparen =>
          refine .next_bind h hPass ?_
          refine .bind (exprAt_tracks (by decide) _ hNext) fun inner s₁ h₁ h => ?_
          exact .bind (.take rfl _ h) fun _ s₂ h₂ h => .pure _ h
        all_goals exact .refuse h _
      | illegal => exact .refuse h _
      | endOfInput => exact .refuse h _
    · cases hKind : s.current.kind with
      | illegal => exact .refuse h _
      | endOfInput => exact .refuse h _
      | _ => exact absurd (passes_of_eq hKind rfl) hPass
termination_by 4 * s.tokens.length + 1
decreasing_by all_goals omega

theorem postfixExpr_tracks (left : Expr) (s : Cursor) (h : s.Sound)
    (hStart : startsPostfix s.current = true) :
    Tracks (postfixExpr left) s (result (Parser.postfixed left s.current s.behind)) := by
  have hPass := passes_of_startsPostfix hStart
  have hShorter := h.length_advance hPass
  have hNext := h.advance hPass
  simp only [startsPostfix, Bool.or_eq_true, Bool.and_eq_true, decide_eq_true_eq] at hStart
  rw [postfixExpr, postfixOf, Parser.postfixed, ← h.tokens_advance hPass]
  refine .current?_bind ?_
  rcases hStart with hKind | ⟨hKind | hKind, _⟩
  · rw [hKind]
    refine .next_bind h hPass ?_
    exact .bind (.takeIf (fun _ => passes_of_isName) _ hNext) fun name s₁ h₁ h => .pure _ h
  · rw [hKind]
    refine .next_bind h hPass ?_
    exact .bind (exprsUntil_tracks .rparen _ _ hNext) fun args s₁ h₁ h => .pure _ h
  · rw [hKind]
    refine .next_bind h hPass ?_
    refine .bind (exprAt_tracks (by decide) _ hNext) fun position s₁ h₁ h => ?_
    exact .bind (.take rfl _ h) fun _ s₂ h₂ h => .pure _ h
termination_by 4 * s.tokens.length
decreasing_by all_goals omega

theorem exprsUntil_tracks (closing : Punct) (what : Text) (s : Cursor) (h : s.Sound) :
    Tracks (exprsUntil closing what) s (result (Parser.exprsUntil closing what s.tokens)) := by
  rw [exprsUntil, exprsOf, listUntil, Parser.exprsUntil_eq]
  refine (listRounds_tracks _ _ [] s h fun s' hs' h' => ?_).congr
    (Parser.result_prepended_nil _)
  exact exprAt_tracks (by decide) s' h'
termination_by 4 * s.tokens.length + 3
decreasing_by all_goals omega

end

theorem expression_tracks (h : s.Sound) :
    Tracks expression s (result (Parser.expression s.tokens)) :=
  exprAt_tracks (by decide) s h

theorem passes_of_isTypeArg {t : Token} (h : Parser.isTypeArg t = true) :
    passes t.kind = true := by
  simp only [Parser.isTypeArg, Bool.or_eq_true, decide_eq_true_eq] at h
  rcases h with hKind | hKind <;> exact passes_of_eq hKind rfl

theorem typeRef_tracks (h : s.Sound) : Tracks typeRef s (result (Parser.typeRef s.tokens)) := by
  rw [Parser.typeRef, typeRef]
  refine .bind (.take rfl _ h) fun name s₁ h₁ h => ?_
  obtain ⟨hasArg, s₂, _, h, hTokens, hRun, hSkip⟩ := (Tracks.skip? (.punct .lt) rfl h).exists_of_ok
  dsimp only
  rw [hSkip]
  refine .of_some hRun hTokens (.ite Iff.rfl (fun _ => ?_) fun _ => ?_)
  · rw [Parser.typeArg]
    simp only [bind_assoc, pure_bind]
    refine .bind (.takeIf (fun _ => passes_of_isTypeArg) _ h) fun arg s₃ h₃ h => ?_
    refine .bind (.take rfl _ h) fun _ s₄ h₄ h => ?_
    exact .current?_bind (.ite_kind (fun _ => .refuse h _) fun _ => .pure _ h)
  · simp only [pure_bind]
    exact .current?_bind (.ite_kind (fun _ => .refuse h _) fun _ => .pure _ h)

theorem field_tracks (what : Text) (h : s.Sound) :
    Tracks (field what) s (result (Parser.field what s.tokens)) := by
  rw [Parser.field, field]
  refine .bind (.take rfl _ h) fun name s₁ h₁ h => ?_
  refine .current?_bind (.ite_kind (fun _ => .refuse h _) fun _ => ?_)
  refine .bind (.take rfl _ h) fun _ s₂ h₂ h => ?_
  exact .bind (typeRef_tracks h) fun type s₃ h₃ h => .pure _ h

theorem typeAnnotation_tracks (h : s.Sound) :
    Tracks typeAnnotation s (result (Parser.typeAnnotation s.tokens)) := by
  rw [Parser.typeAnnotation, typeAnnotation]
  obtain ⟨present, s₁, _, h, hTokens, hRun, hSkip⟩ :=
    (Tracks.skip? (.punct .colon) rfl h).exists_of_ok
  rw [hSkip]
  refine .of_some hRun hTokens (.ite Iff.rfl (fun _ => ?_) fun _ => .pure _ h)
  exact .bind (typeRef_tracks h) fun type s₂ h₂ h => .pure _ h

theorem binding_tracks (kind : BindingKind) (h : s.Sound) (hPass : passes s.current.kind = true) :
    Tracks (binding kind) s (result (Parser.binding s.current kind s.advance.tokens)) := by
  rw [Parser.binding, binding]
  refine .current?_bind (.next_bind h hPass ?_)
  refine .bind (.take rfl _ (h.advance hPass)) fun name s₁ h₁ h => ?_
  refine .bind (typeAnnotation_tracks h) fun type s₂ h₂ h => ?_
  refine .bind (.take rfl _ h) fun _ s₃ h₃ h => ?_
  refine .bind (expression_tracks h) fun value s₄ h₄ h => ?_
  exact .bind (.endOfStatement _ h) fun _ s₅ h₅ h => .pure _ h

theorem returned_tracks (h : s.Sound) :
    Tracks returned s (result (Parser.returned s.tokens)) := by
  rw [Parser.returned, returned]
  refine .current?_bind (.ite Iff.rfl (fun _ => .pure _ h) fun _ => ?_)
  exact .bind (expression_tracks h) fun value s₁ h₁ h => .pure _ h

theorem statement_tracks (h : s.Sound) :
    Tracks statement s (result (Parser.statement s.current s.behind)) := by
  rw [Parser.statement, statement]
  refine .current?_bind ?_
  cases hKind : s.current.kind
  case' keyword word => cases word
  case keyword.kwReturn =>
    have hPass : passes s.current.kind = true := passes_of_eq hKind rfl
    dsimp only
    rw [← h.tokens_advance hPass]
    refine .next_bind h hPass ?_
    refine .bind (returned_tracks (h.advance hPass)) fun value s₁ h₁ h => ?_
    exact .bind (.endOfStatement _ h) fun _ s₂ h₂ h => .pure _ h
  case keyword.kwConst =>
    have hPass : passes s.current.kind = true := passes_of_eq hKind rfl
    dsimp only
    rw [← h.tokens_advance hPass]
    exact (binding_tracks .const h hPass).congr (Parser.result_rebound fun _ => rfl).symm
  case keyword.kwLet =>
    have hPass : passes s.current.kind = true := passes_of_eq hKind rfl
    dsimp only
    rw [← h.tokens_advance hPass]
    exact (binding_tracks .letting h hPass).congr (Parser.result_rebound fun _ => rfl).symm
  all_goals
    refine .bind (expression_tracks h) fun value s₁ h₁ h => ?_
    exact .bind (.endOfStatement _ h) fun _ s₂ h₂ h => .pure _ h

theorem statementRounds_tracks (what : Text) (ss : List Statement) (s : Cursor) (h : s.Sound) :
    Tracks
      (do
        let body ← rounds (statementRound what) ss
        next
        return body) s
      (result (prepended ss (Parser.statements what s.tokens))) := by
  have hLength := s.length_tokens
  rw [rounds_eq, statementRound, tokens_eq_cons, Parser.statements]
  simp only [bind_assoc]
  refine .current?_bind ?_
  by_cases hClose : s.current.kind = .punct .rbrace
  · have hPass : passes s.current.kind = true := passes_of_eq hClose rfl
    rw [if_pos hClose, if_pos hClose, ← h.tokens_advance hPass]
    simp only [pure_bind, Sum.elim_inr]
    exact .next_bind h hPass (.collected ss (h.advance hPass))
  rw [if_neg hClose, if_neg hClose]
  by_cases hEnd : s.current.kind = .endOfInput
  · rw [if_pos hEnd, if_pos hEnd]
    exact .refuse h _
  rw [if_neg hEnd, if_neg hEnd]
  simp only [bind_assoc]
  refine .skip?_bind h rfl (fun hKind hPass => ?_) fun hKind => ?_
  · have hShorter := h.length_advance hPass
    rw [if_pos hKind, ← h.tokens_advance hPass]
    simp only [if_true, pure_bind]
    exact (statementRounds_tracks what ss s.advance (h.advance hPass)).congr
      (Parser.result_prepended_rebound fun _ => rfl).symm
  · rw [if_neg hKind, prepended_bind]
    simp only [Bool.false_eq_true, if_false, bind_assoc, pure_bind]
    refine .bind (statement_tracks h) fun a s₁ h₁ h => ?_
    exact (statementRounds_tracks what (ss ++ [a]) s₁ h).congr
      (Parser.result_prepended_cons fun _ => rfl).symm
termination_by s.tokens.length
decreasing_by all_goals omega

theorem statements_tracks (what : Text) (h : s.Sound) :
    Tracks (statements what) s (result (Parser.statements what s.tokens)) :=
  (statementRounds_tracks what [] s h).congr (Parser.result_prepended_nil _)

theorem block_tracks (what : Text) (h : s.Sound) :
    Tracks (block what) s (result (Parser.block what s.tokens)) := by
  rw [Parser.block, block]
  refine .bind (.take rfl _ h) fun _ s₁ h₁ h => ?_
  exact (statements_tracks what h).congr (Parser.result_rebound fun _ => rfl).symm

theorem importedNames_tracks (h : s.Sound) :
    Tracks importedNames s (result (Parser.importedNames s.tokens)) := by
  rw [importedNames, tokens_eq_cons, Parser.importedNames]
  refine .current?_bind ?_
  cases hKind : s.current.kind with
  | ident =>
    have hPass : passes s.current.kind = true := passes_of_eq hKind rfl
    dsimp only
    rw [← h.tokens_advance hPass]
    exact .next_bind h hPass (.pure _ (h.advance hPass))
  | punct p =>
    have hPass : passes s.current.kind = true := passes_of_eq hKind rfl
    cases p
    case lbrace =>
      dsimp only
      rw [← h.tokens_advance hPass]
      refine .next_bind h hPass ?_
      exact .bind (listUntil_tracks .rbrace _ (fun _ => .take rfl _) (h.advance hPass))
        fun names s₁ h₁ h => .pure _ h
    all_goals exact .refuse h _
  | _ => exact .refuse h _

theorem passes_of_isFrom {t : Token} (h : Parser.isFrom t = true) : passes t.kind = true := by
  simp only [Parser.isFrom, Bool.and_eq_true, decide_eq_true_eq] at h
  exact passes_of_eq h.1 rfl

theorem importDecl_tracks (h : s.Sound) :
    Tracks importDecl s (result (Parser.importDecl s.tokens)) := by
  rw [Parser.importDecl, importDecl]
  refine .bind (.take rfl _ h) fun word s₁ h₁ h => ?_
  refine .bind (importedNames_tracks h) fun names s₂ h₂ h => ?_
  refine .bind (.takeIf (fun _ => passes_of_isFrom) _ h) fun _ s₃ h₃ h => ?_
  refine .bind_of_yields (.take rfl _ h) fun literal s₄ h₄ hYields hNext => ?_
  obtain ⟨hTokens, hString⟩ := Parser.take_yields_iff.mp ⟨h₄, hYields⟩
  dsimp only
  cases hValue : StringLiteral.value? literal.literal with
  | none =>
    -- A comment behind the string would be the fault, but nothing stands there.
    obtain ⟨hCurrent, hBehind⟩ := List.cons.inj (s₃.tokens_eq_cons.symm.trans hTokens)
    subst hCurrent
    obtain ⟨stop, hStop, hEnd⟩ := h.behind_of_open_string hString hValue
    have hLast : s₄.current = stop := (List.cons.inj (hBehind.symm.trans hStop)).1
    refine .refuse_earlier hNext (passes_of_eq hString rfl) ?_ _
    rw [hLast, Token.isOpenComment, hEnd]
    rfl
  | some module => exact .bind (.endOfStatement _ hNext) fun _ s₅ h₅ h => .pure _ h

theorem importRounds_tracks (ds : List ImportDecl) (s : Cursor) (h : s.Sound) :
    Tracks (rounds importRound ds) s (result (prepended ds (Parser.importDecls s.tokens))) := by
  rw [rounds_eq, importRound, Parser.importDecls]
  simp only [bind_assoc]
  refine .current?_bind ?_
  by_cases hKind : s.current.kind = .keyword .kwImport
  · have hAt : Parser.atKeyword .kwImport s.tokens = true := decide_eq_true hKind
    rw [if_pos hKind, if_pos hAt, prepended_bind]
    simp only [bind_assoc, pure_bind]
    refine .bind (importDecl_tracks h) fun d s₁ h₁ h => ?_
    exact (importRounds_tracks (ds ++ [d]) s₁ h).congr
      (Parser.result_prepended_cons fun _ => rfl).symm
  · have hNotAt : ¬Parser.atKeyword .kwImport s.tokens = true := mt of_decide_eq_true hKind
    rw [if_neg hKind, if_neg hNotAt]
    exact .collected ds h
termination_by s.tokens.length
decreasing_by all_goals omega

theorem params_tracks (h : s.Sound) :
    Tracks params s (result (Parser.params s.tokens)) := by
  rw [Parser.params, params]
  refine .bind (.take rfl _ h) fun _ s₁ h₁ h => ?_
  exact (listUntil_tracks .rparen _ (fun _ => field_tracks "parameter") h).congr
    (Parser.result_rebound fun _ => rfl).symm

theorem method_tracks (name : Token) (h : s.Sound) :
    Tracks (method name) s (result (Parser.method name s.tokens)) := by
  rw [Parser.method, method, params]
  simp only [bind_assoc]
  refine .bind (.take rfl _ h) fun _ s₁ h₁ h => ?_
  refine .bind (listUntil_tracks .rparen _ (fun _ => field_tracks "parameter") h)
    fun params s₂ h₂ h => ?_
  refine .bind (typeAnnotation_tracks h) fun returns s₃ h₃ h => ?_
  exact .bind (block_tracks _ h) fun body s₄ h₄ h => .pure _ h

theorem member_tracks (h : s.Sound) : Tracks member s (result (Parser.member s.tokens)) := by
  rw [Parser.member, member]
  obtain ⟨_, s₁, _, h, hTokens, hRun, hSkip⟩ :=
    (Tracks.skip? (.keyword .kwPublic) rfl h).exists_of_ok
  rw [hSkip]
  refine .of_some hRun hTokens ?_
  dsimp only
  obtain ⟨isStatic, s₂, _, h, hTokens, hRun, hSkip⟩ :=
    (Tracks.skip? (.keyword .kwStatic) rfl h).exists_of_ok
  rw [hSkip]
  refine .of_some hRun hTokens ?_
  refine .bind_of_yields (.take rfl _ h) fun name s₃ h₃ hYields h => ?_
  have hName := (Parser.take_yields_iff.mp ⟨h₃, hYields⟩).2
  refine .current?_bind ?_
  dsimp only
  by_cases hAssign : s₃.current.kind = .punct .assign
  · have hAt : Parser.atPunct .assign s₃.tokens = true := decide_eq_true hAssign
    rw [hAssign, if_pos hAt]
    refine .next_taken h rfl hAssign fun _ h => ?_
    refine .bind (expression_tracks h) fun value s₄ h₄ h => ?_
    exact .bind (.endOfStatement _ h) fun _ s₅ h₅ h => .pure _ h
  · have hNotAt : ¬Parser.atPunct .assign s₃.tokens = true := mt of_decide_eq_true hAssign
    rw [if_neg hNotAt]
    by_cases hParen : s₃.current.kind = .punct .lparen
    · have hAt : Parser.atPunct .lparen s₃.tokens = true := decide_eq_true hParen
      rw [hParen, if_pos hAt]
      refine .ite Iff.rfl (fun _ => ?_) fun _ => ?_
      · refine .refuse_earlier h (passes_of_eq hName rfl) ?_ _
        exact isOpenComment_of_passes (passes_of_eq hParen rfl)
      · exact .bind (method_tracks name h) fun m s₄ h₄ h => .pure _ h
    · have hNotAt : ¬Parser.atPunct .lparen s₃.tokens = true := mt of_decide_eq_true hParen
      rw [if_neg hNotAt]
      split
      · exact absurd ‹_› hAssign
      · exact absurd ‹_› hParen
      · exact .refuse h _

theorem memberRounds_tracks (ms : List Parser.Member) (s : Cursor) (h : s.Sound) :
    Tracks
      (do
        let ms ← rounds memberRound ms
        let _ ← take (.punct .rbrace) "expected '\x7d' to close class body"
        return ms) s
      (result (prepended ms (Parser.members s.tokens))) := by
  have hLength := s.length_tokens
  rw [rounds_eq, memberRound, tokens_eq_cons, Parser.members]
  simp only [bind_assoc]
  refine .current?_bind ?_
  by_cases hClose : s.current.kind = .punct .rbrace
  · have hPass : passes s.current.kind = true := passes_of_eq hClose rfl
    rw [if_pos (by simp [hClose]), if_pos hClose, ← h.tokens_advance hPass]
    simp only [pure_bind, Sum.elim_inr]
    exact .of_some (runFrom_take_of_eq _ hClose) (h.suffix_advance hPass)
      (.collected ms (h.advance hPass))
  rw [if_neg hClose]
  by_cases hEnd : s.current.kind = .endOfInput
  · rw [if_pos (by simp [hEnd]), if_pos hEnd]
    simp only [pure_bind]
    exact .take_refused h _ hClose
  rw [if_neg (by simp [hClose, hEnd]), if_neg hEnd]
  simp only [bind_assoc]
  refine .skip?_bind h rfl (fun hKind hPass => ?_) fun hKind => ?_
  · have hShorter := h.length_advance hPass
    rw [if_pos hKind, ← h.tokens_advance hPass]
    simp only [if_true, pure_bind]
    exact (memberRounds_tracks ms s.advance (h.advance hPass)).congr
      (Parser.result_prepended_rebound fun _ => rfl).symm
  · rw [if_neg hKind, prepended_bind]
    simp only [Bool.false_eq_true, if_false, bind_assoc, pure_bind]
    refine .bind (member_tracks h) fun a s₁ h₁ h => ?_
    exact (memberRounds_tracks (ms ++ [a]) s₁ h).congr
      (Parser.result_prepended_cons fun _ => rfl).symm
termination_by s.tokens.length
decreasing_by all_goals (simp only [List.length_cons] at *; omega)

theorem members_tracks (h : s.Sound) :
    Tracks members s (result (Parser.members s.tokens)) :=
  (memberRounds_tracks [] s h).congr (Parser.result_prepended_nil _)

theorem classDecl_tracks (isExported isDefault : Bool) (h : s.Sound) :
    Tracks (classDecl isExported isDefault) s
      (result (Parser.classDecl isExported isDefault s.tokens)) := by
  rw [Parser.classDecl, classDecl]
  refine .bind (.take rfl _ h) fun word s₁ h₁ h => ?_
  refine .bind (.take rfl _ h) fun name s₂ h₂ h => ?_
  refine .bind (.take rfl _ h) fun _ s₃ h₃ h => ?_
  exact .bind (members_tracks h) fun ms s₄ h₄ h => .pure _ h

theorem endOfField_tracks (name : Text) (h : s.Sound) :
    Tracks (endOfField name) s (result (Parser.endOfField name s.tokens)) := by
  rw [Parser.endOfField, endOfField]
  refine .current?_bind (.ite Iff.rfl (fun hEnd => .next_tail h ?_) fun _ => ?_)
  · rcases Bool.or_eq_true_iff.mp hEnd with hKind | hKind
    · exact passes_of_eq (of_decide_eq_true hKind) rfl
    · exact passes_of_eq (of_decide_eq_true hKind) rfl
  · exact .ite Iff.rfl (fun _ => .pure _ h) fun _ => .refuse h _

theorem fieldRounds_tracks (fs : List FieldDecl) (s : Cursor) (h : s.Sound) :
    Tracks
      (do
        let fields ← rounds fieldRound fs
        let _ ← take (.punct .rbrace) "expected '\x7d' to close interface body"
        return fields) s
      (result (prepended fs (Parser.interfaceFields s.tokens))) := by
  rw [rounds_eq, fieldRound, Parser.interfaceFields]
  simp only [bind_assoc]
  refine .current?_bind ?_
  by_cases hEnd : (decide (s.current.kind = .punct .rbrace) ||
      decide (s.current.kind = .endOfInput)) = true
  · have hAt : (Parser.atPunct .rbrace s.tokens || Parser.atKind .endOfInput s.tokens) = true :=
      hEnd
    rw [if_pos hEnd, if_pos hAt, prepended_bind]
    simp only [pure_bind]
    exact .bind (.take rfl _ h) fun _ s₁ h₁ h => .collected fs h
  · have hNotAt : ¬(Parser.atPunct .rbrace s.tokens || Parser.atKind .endOfInput s.tokens) = true :=
      hEnd
    rw [if_neg hEnd, if_neg hNotAt, prepended_bind]
    simp only [bind_assoc, pure_bind]
    refine .bind (field_tracks _ h) fun f s₁ h₁ h => ?_
    dsimp only
    rw [prepended_bind]
    refine .bind (endOfField_tracks _ h) fun _ s₂ h₂ h => ?_
    exact (fieldRounds_tracks (fs ++ [f]) s₂ h).congr
      (Parser.result_prepended_cons fun _ => rfl).symm
termination_by s.tokens.length
decreasing_by omega

theorem interfaceFields_tracks (h : s.Sound) :
    Tracks interfaceFields s (result (Parser.interfaceFields s.tokens)) :=
  (fieldRounds_tracks [] s h).congr (Parser.result_prepended_nil _)

theorem baseInterface_tracks (h : s.Sound) :
    Tracks baseInterface s (result (Parser.baseInterface s.tokens)) := by
  rw [Parser.baseInterface, baseInterface]
  obtain ⟨present, s₁, _, h, hTokens, hRun, hSkip⟩ :=
    (Tracks.skip? (.keyword .kwExtends) rfl h).exists_of_ok
  rw [hSkip]
  refine .of_some hRun hTokens (.ite Iff.rfl (fun _ => ?_) fun _ => .pure _ h)
  exact .bind (.take rfl _ h) fun base s₂ h₂ h => .pure _ h

theorem interfaceDecl_tracks (isExported : Bool) (h : s.Sound) :
    Tracks (interfaceDecl isExported) s
      (result (Parser.interfaceDecl isExported s.tokens)) := by
  rw [Parser.interfaceDecl, interfaceDecl]
  refine .bind (.take rfl _ h) fun word s₁ h₁ h => ?_
  refine .bind (.take rfl _ h) fun name s₂ h₂ h => ?_
  refine .bind (baseInterface_tracks h) fun base s₃ h₃ h => ?_
  refine .bind (.take rfl _ h) fun _ s₄ h₄ h => ?_
  exact .bind (interfaceFields_tracks h) fun fields s₅ h₅ h => .pure _ h

theorem exportWords_tracks (h : s.Sound) :
    Tracks exportWords s (result (.ok (Parser.exportWords s.tokens))) := by
  rw [Parser.exportWords, exportWords]
  obtain ⟨isExported, s₁, _, h, hTokens, hRun, hSkip⟩ :=
    (Tracks.skip? (.keyword .kwExport) rfl h).exists_of_ok
  rw [hSkip]
  refine .of_some hRun hTokens ?_
  cases isExported with
  | false => exact .pure _ h
  | true =>
    obtain ⟨isDefault, s₂, _, h, hTokens, hRun, hSkip⟩ :=
      (Tracks.skip? (.keyword .kwDefault) rfl h).exists_of_ok
    simp only [if_true]
    rw [hSkip]
    exact .of_some hRun hTokens (.pure _ h)

theorem declaration_tracks (h : s.Sound) :
    Tracks declaration s (result (Parser.declaration s.tokens)) := by
  rw [Parser.declaration, declaration]
  obtain ⟨⟨isExported, isDefault⟩, s₁, _, h, hTokens, hRun, hWords⟩ :=
    (exportWords_tracks h).exists_of_ok
  rw [hWords]
  refine .of_some hRun hTokens (.current?_bind ?_)
  have hCurrent : Parser.current s₁.tokens = s₁.current := rfl
  dsimp only
  rw [hCurrent]
  cases hKind : s₁.current.kind with
  | keyword word =>
    cases word
    case kwClass => exact .bind (classDecl_tracks isExported isDefault h) fun c s₂ h₂ h => .pure _ h
    case kwInterface =>
      refine .ite Iff.rfl (fun _ => .refuse h _) fun _ => ?_
      exact .bind (interfaceDecl_tracks isExported h) fun i s₂ h₂ h => .pure _ h
    all_goals exact .refuse h _
  | _ => exact .refuse h _

/-- The computation ends as the reader of the rest of a file does. -/
inductive Finishes (m : Reads α) (s : Cursor) : Except Parser.Failure α → Prop
  | read {a : α} {s' : Cursor} (hRun : runFrom m s = some (some a, s')) (hSound : s'.Sound)
      (hEnd : s'.current.kind = .endOfInput) : Finishes m s (.ok a)
  | refused {s' : Cursor} {e : Parser.Failure} (hRun : runFrom m s = some (none, s'))
      (hFault : s'.Faulted e) : Finishes m s (.error e)

namespace Finishes

variable {m : Reads α} {f : α → Reads β} {s' : Cursor}

theorem of_run {m' : Reads α} {x : Except Parser.Failure α} (h : Finishes m' s' x)
    (hRun : runFrom m s = runFrom m' s') : Finishes m s x := by
  cases h with
  | read hRun' hSound hEnd => exact .read (hRun.trans hRun') hSound hEnd
  | refused hRun' hFault => exact .refused (hRun.trans hRun') hFault

theorem bind {n : Nat} {x : Reader α n} {g : Parsed α n → Except Parser.Failure β}
    (h : Tracks m s (result x))
    (hNext : ∀ a s' hBound, s'.Sound → Finishes (f a) s' (g ⟨a, s'.tokens, hBound⟩)) :
    Finishes (m >>= f) s (x >>= g) := by
  cases x with
  | error e =>
    rcases h with _ | ⟨hRun, hFault⟩
    exact .refused (runFrom_bind_of_none hRun) hFault
  | ok p =>
    obtain ⟨a, s', hBound, hSound, _, hRun, rfl⟩ := h.exists_of_ok
    exact (hNext a s' hBound hSound).of_run (runFrom_bind_of_some hRun)

theorem map {x : Except Parser.Failure α} (h : Finishes m s x) (f : α → β) :
    Finishes (m >>= fun a => pure (f a)) s (x >>= fun a => pure (f a)) := by
  cases h with
  | read hRun hSound hEnd => exact .read (runFrom_bind_of_some hRun) hSound hEnd
  | refused hRun hFault => exact .refused (runFrom_bind_of_none hRun) hFault

end Finishes

theorem declarationRounds_finishes (ds : List Parser.Declaration) (s : Cursor) (h : s.Sound) :
    Finishes (rounds declarationRound ds) s
      (Parser.declarations s.tokens >>= fun more => pure (ds ++ more)) := by
  have hLength := s.length_tokens
  rw [rounds_eq, declarationRound, tokens_eq_cons, Parser.declarations]
  simp only [bind_assoc]
  refine .of_run ?_ (runFrom_current?_bind ..)
  by_cases hEnd : s.current.kind = .endOfInput
  · rw [if_pos hEnd, if_pos hEnd]
    simp only [pure_bind]
    change Finishes (pure ds) s (.ok (ds ++ []))
    rw [List.append_nil]
    exact .read (runFrom_pure ds s) h hEnd
  rw [if_neg hEnd, if_neg hEnd]
  simp only [bind_assoc]
  by_cases hKind : s.current.kind = .punct .semicolon
  · have hPass : passes s.current.kind = true := passes_of_eq hKind rfl
    have hShorter := h.length_advance hPass
    refine .of_run ?_ (runFrom_bind_of_some ((runFrom_skip? ..).trans (if_pos hKind)))
    rw [if_pos hKind, ← h.tokens_advance hPass]
    simp only [if_true, pure_bind]
    exact declarationRounds_finishes ds s.advance (h.advance hPass)
  · refine .of_run ?_ (runFrom_bind_of_some ((runFrom_skip? ..).trans (if_neg hKind)))
    rw [if_neg hKind]
    simp only [Bool.false_eq_true, if_false, bind_assoc, pure_bind]
    refine .bind (declaration_tracks h) fun d s₁ h₁ h => ?_
    have hNext := declarationRounds_finishes (ds ++ [d]) s₁ h
    simp only [List.append_assoc, List.singleton_append] at hNext
    exact hNext
termination_by s.tokens.length
decreasing_by all_goals (simp only [List.length_cons] at *; omega)

theorem file_finishes (h : s.Sound) : Finishes file s (Parser.file s.tokens) := by
  rw [file, Parser.file]
  refine .bind ((importRounds_tracks [] s h).congr (Parser.result_prepended_nil _))
    fun imports s₁ h₁ h => ?_
  have hDeclarations := declarationRounds_finishes [] s₁ h
  simp only [List.nil_append, bind_pure] at hDeclarations
  exact hDeclarations.map _

end Cursor

end AnchorScript.Syntax
