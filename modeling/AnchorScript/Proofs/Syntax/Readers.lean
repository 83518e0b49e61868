import AnchorScript.Syntax.Parser
import AnchorScript.Proofs.Outcome

/-!
# What a reader gives

A reader `Yields` a value and the tokens behind it. For each reader of expressions this is opened
once into what its parts yield; nothing else here depends on how a reader is written.
-/

namespace AnchorScript.Syntax.Parser

open Outcome

variable {α β : Type} {n m : Nat}

/-- The reader succeeds with this value and leaves these tokens. -/
def Yields (x : Reader α n) (a : α) (rest : List Token) : Prop := ∃ h, x = .ok ⟨a, rest, h⟩

theorem Yields.length_lt {x : Reader α n} {a : α} {rest : List Token} (h : Yields x a rest) :
    rest.length < n :=
  h.1

theorem yields_of_ok {x : Reader α n} {p : Parsed α n} (h : x = .ok p) :
    Yields x p.value p.rest :=
  ⟨p.bound, h⟩

@[simp] theorem yields_ok_iff {a b : α} {r rest : List Token} {h : r.length < n} :
    Yields (.ok ⟨a, r, h⟩) b rest ↔ b = a ∧ rest = r := by
  constructor
  · rintro ⟨_, hSame⟩
    cases hSame
    exact ⟨rfl, rfl⟩
  · rintro ⟨rfl, rfl⟩
    exact ⟨h, rfl⟩

@[simp] theorem yields_pure_iff {a b : α} {r rest : List Token} {h : r.length < n} :
    Yields (pure ⟨a, r, h⟩) b rest ↔ b = a ∧ rest = r :=
  yields_ok_iff

@[simp] theorem not_yields_fail {t : Token} {message : Text} {a : α} {rest : List Token} :
    ¬Yields (fail t message : Reader α n) a rest := by
  rintro ⟨_, hSame⟩
  cases hSame

theorem yields_bind_iff {x : Reader α n} {f : Parsed α n → Reader β m} {b : β}
    {rest : List Token} :
    Yields (x >>= f) b rest ↔ ∃ a r h, x = .ok ⟨a, r, h⟩ ∧ Yields (f ⟨a, r, h⟩) b rest := by
  simp only [Yields, bind_eq_ok_iff]
  constructor
  · rintro ⟨hRest, ⟨a, r, h⟩, hx, hf⟩
    exact ⟨a, r, h, hx, hRest, hf⟩
  · rintro ⟨a, r, h, hx, hRest, hf⟩
    exact ⟨hRest, ⟨a, r, h⟩, hx, hf⟩

@[simp] theorem takeIf_yields_iff {accept : Token → Bool} {message : Text} {ts : List Token}
    {t : Token} {rest : List Token} :
    Yields (takeIf accept message ts) t rest ↔ ts = t :: rest ∧ accept t = true := by
  cases ts with
  | nil => simp [takeIf]
  | cons u r =>
    simp only [takeIf]
    split
    · rename_i hAccept
      rw [yields_ok_iff, List.cons.injEq]
      constructor
      · rintro ⟨rfl, rfl⟩
        exact ⟨⟨rfl, rfl⟩, hAccept⟩
      · rintro ⟨⟨rfl, rfl⟩, _⟩
        exact ⟨rfl, rfl⟩
    · rename_i hRefuse
      constructor
      · intro h
        exact absurd h not_yields_fail
      · rintro ⟨hSame, hAccept⟩
        cases hSame
        exact absurd hAccept hRefuse

@[simp] theorem take_yields_iff {k : TokenKind} {message : Text} {ts : List Token} {t : Token}
    {rest : List Token} : Yields (take k message ts) t rest ↔ ts = t :: rest ∧ t.kind = k := by
  rw [take, takeIf_yields_iff, decide_eq_true_eq]

theorem yields_takeIf {accept : Token → Bool} {t : Token} (message : Text) (rest : List Token)
    (h : accept t = true) : Yields (takeIf accept message (t :: rest)) t rest :=
  takeIf_yields_iff.mpr ⟨rfl, h⟩

theorem yields_take {k : TokenKind} {t : Token} (message : Text) (rest : List Token)
    (h : t.kind = k) : Yields (take k message (t :: rest)) t rest :=
  take_yields_iff.mpr ⟨rfl, h⟩

theorem exprAt_yields_iff {min : Nat} {ts : List Token} {e : Expr} {rest : List Token} :
    Yields (exprAt min ts) e rest ↔
      ∃ left r, Yields (operand ts) left r ∧ Yields (climb min left r) e rest := by
  rw [exprAt]
  simp only [yields_bind_iff]
  constructor
  · rintro ⟨left, r, h, hLeft, e', r', h', hClimb, hSame⟩
    obtain ⟨rfl, rfl⟩ := yields_pure_iff.mp hSame
    exact ⟨left, r, ⟨h, hLeft⟩, h', hClimb⟩
  · rintro ⟨left, r, ⟨h, hLeft⟩, h', hClimb⟩
    exact ⟨left, r, h, hLeft, e, rest, h', hClimb, yields_pure_iff.mpr ⟨rfl, rfl⟩⟩

theorem climb_nil_yields_iff {min : Nat} {left e : Expr} {rest : List Token} :
    Yields (climb min left []) e rest ↔ e = left ∧ rest = [] := by
  rw [climb]
  exact yields_ok_iff

theorem climb_cons_yields_iff {min : Nat} {left : Expr} {t : Token} {r : List Token} {e : Expr}
    {rest : List Token} :
    Yields (climb min left (t :: r)) e rest ↔
      (∃ i right r₁, Infix.ofKind? t.kind = some i ∧ min ≤ i.level ∧
        Yields (exprAt i.rightLevel r) right r₁ ∧
        Yields (climb min (i.apply left right) r₁) e rest) ∨
      ((∀ i, Infix.ofKind? t.kind = some i → i.level < min) ∧ e = left ∧ rest = t :: r) := by
  rw [climb]
  split
  · rename_i hNone
    simp [hNone]
  · rename_i i hInfix
    split
    · rename_i hTight
      simp only [yields_bind_iff]
      constructor
      · rintro ⟨right, r₁, h₁, hRight, e', r₂, h₂, hClimb, hSame⟩
        obtain ⟨rfl, rfl⟩ := yields_pure_iff.mp hSame
        exact .inl ⟨i, right, r₁, hInfix, hTight, ⟨h₁, hRight⟩, h₂, hClimb⟩
      · rintro (⟨i', right, r₁, hInfix', _, ⟨h₁, hRight⟩, h₂, hClimb⟩ | ⟨hLoose, _⟩)
        · rw [hInfix] at hInfix'
          cases hInfix'
          exact ⟨right, r₁, h₁, hRight, e, rest, h₂, hClimb, yields_pure_iff.mpr ⟨rfl, rfl⟩⟩
        · exact absurd hTight (Nat.not_le.mpr (hLoose i hInfix))
    · rename_i hLoose
      rw [yields_ok_iff]
      constructor
      · rintro ⟨rfl, rfl⟩
        refine .inr ⟨fun i' hInfix' => ?_, rfl, rfl⟩
        rw [hInfix] at hInfix'
        cases hInfix'
        exact Nat.lt_of_not_le hLoose
      · rintro (⟨i', right, r₁, hInfix', hTight, _⟩ | ⟨_, hSame⟩)
        · rw [hInfix] at hInfix'
          cases hInfix'
          exact absurd hTight hLoose
        · exact hSame

theorem not_operand_nil_yields {e : Expr} {rest : List Token} : ¬Yields (operand []) e rest := by
  rw [operand]
  exact not_yields_fail

theorem operand_cons_yields_iff {t : Token} {r : List Token} {e : Expr} {rest : List Token} :
    Yields (operand (t :: r)) e rest ↔
      (∃ op inner, unaryOp? t.kind = some op ∧ Yields (operand r) inner rest ∧
        e = .unary t.pos op inner) ∨
      (unaryOp? t.kind = none ∧
        ∃ first r₁, Yields (primary t r) first r₁ ∧ Yields (postfixes first r₁) e rest) := by
  rw [operand]
  split
  · rename_i op hOp
    simp only [yields_bind_iff]
    constructor
    · rintro ⟨inner, r', h', hInner, hSame⟩
      obtain ⟨rfl, rfl⟩ := yields_pure_iff.mp hSame
      exact .inl ⟨op, inner, hOp, ⟨h', hInner⟩, rfl⟩
    · rintro (⟨op', inner, hOp', ⟨h', hInner⟩, rfl⟩ | ⟨hNone, _⟩)
      · rw [hOp] at hOp'
        cases hOp'
        exact ⟨inner, rest, h', hInner, yields_pure_iff.mpr ⟨rfl, rfl⟩⟩
      · rw [hOp] at hNone
        cases hNone
  · rename_i hNone
    simp only [yields_bind_iff]
    constructor
    · rintro ⟨first, r₁, h₁, hFirst, e', r₂, h₂, hRest, hSame⟩
      obtain ⟨rfl, rfl⟩ := yields_pure_iff.mp hSame
      exact .inr ⟨hNone, first, r₁, ⟨h₁, hFirst⟩, h₂, hRest⟩
    · rintro (⟨op, inner, hOp, _⟩ | ⟨_, first, r₁, ⟨h₁, hFirst⟩, h₂, hRest⟩)
      · rw [hNone] at hOp
        cases hOp
      · exact ⟨first, r₁, h₁, hFirst, e, rest, h₂, hRest, yields_pure_iff.mpr ⟨rfl, rfl⟩⟩

/-- The expressions without operators outside brackets that token `t` begins. -/
inductive Primary (t : Token) (r : List Token) : Expr → List Token → Prop
  | name (hKind : t.kind = .ident) : Primary t r (.name t.pos t.literal) r
  | number (hKind : t.kind = .number) : Primary t r (.number t.pos t.literal) r
  | string {value : Text} (hKind : t.kind = .string)
      (hValue : StringLiteral.value? t.literal = some value) : Primary t r (.string t.pos value) r
  | bool {value : Bool} (hKind : t.kind = .keyword (if value then .kwTrue else .kwFalse)) :
      Primary t r (.bool t.pos value) r
  | array {elems : List Expr} {rest : List Token} (hKind : t.kind = .punct .lbracket)
      (hElems : Yields (exprsUntil .rbracket "array literal" r) elems rest) :
      Primary t r (.array t.pos elems) rest
  | construct {name opening : Token} {r₂ : List Token} {args : List Expr} {rest : List Token}
      (hKind : t.kind = .keyword .kwNew) (hTokens : r = name :: opening :: r₂)
      (hName : name.kind = .ident) (hOpening : opening.kind = .punct .lparen)
      (hArgs : Yields (exprsUntil .rparen "constructor arguments" r₂) args rest) :
      Primary t r (.construct t.pos name.literal args) rest
  | paren {inner : Expr} {close : Token} {rest : List Token} (hKind : t.kind = .punct .lparen)
      (hInner : Yields (exprAt anyLevel r) inner (close :: rest))
      (hClose : close.kind = .punct .rparen) : Primary t r (.paren t.pos inner) rest

theorem primary_of_yields {t : Token} {r : List Token} {e : Expr} {rest : List Token}
    (h : Yields (primary t r) e rest) : Primary t r e rest := by
  rw [primary] at h
  split at h
  · rename_i hKind
    obtain ⟨rfl, rfl⟩ := yields_ok_iff.mp h
    exact .name hKind
  · rename_i hKind
    obtain ⟨rfl, rfl⟩ := yields_ok_iff.mp h
    exact .number hKind
  · rename_i hKind
    split at h
    · rename_i value hValue
      obtain ⟨rfl, rfl⟩ := yields_ok_iff.mp h
      exact .string hKind hValue
    · exact absurd h not_yields_fail
  · rename_i hKind
    obtain ⟨rfl, rfl⟩ := yields_ok_iff.mp h
    exact .bool hKind
  · rename_i hKind
    obtain ⟨rfl, rfl⟩ := yields_ok_iff.mp h
    exact .bool hKind
  · rename_i hKind
    simp only [yields_bind_iff] at h
    obtain ⟨elems, r', h', hElems, hSame⟩ := h
    obtain ⟨rfl, rfl⟩ := yields_pure_iff.mp hSame
    exact .array hKind ⟨h', hElems⟩
  · rename_i hKind
    simp only [yields_bind_iff] at h
    obtain ⟨name, r₁, h₁, hFirst, opening, r₂, h₂, hSecond, args, r₃, h₃, hArgs, hSame⟩ := h
    obtain ⟨rfl, rfl⟩ := yields_pure_iff.mp hSame
    obtain ⟨hTokens, hName⟩ := take_yields_iff.mp ⟨h₁, hFirst⟩
    obtain ⟨rfl, hOpening⟩ := take_yields_iff.mp ⟨h₂, hSecond⟩
    exact .construct hKind hTokens hName hOpening ⟨h₃, hArgs⟩
  · rename_i hKind
    simp only [yields_bind_iff] at h
    obtain ⟨inner, r₁, h₁, hInner, close, r₂, h₂, hLast, hSame⟩ := h
    obtain ⟨rfl, rfl⟩ := yields_pure_iff.mp hSame
    obtain ⟨rfl, hClose⟩ := take_yields_iff.mp ⟨h₂, hLast⟩
    exact .paren hKind ⟨h₁, hInner⟩ hClose
  · exact absurd h not_yields_fail
  · exact absurd h not_yields_fail

theorem yields_of_primary {t : Token} {r : List Token} {e : Expr} {rest : List Token}
    (h : Primary t r e rest) : Yields (primary t r) e rest := by
  rw [primary]
  cases h with
  | name hKind | number hKind => simp [hKind]
  | string hKind hValue => simp [hKind, hValue]
  | @bool value hKind => cases value <;> simp_all
  | array hKind hElems =>
    obtain ⟨h', hElems⟩ := hElems
    simp only [hKind, yields_bind_iff]
    exact ⟨_, _, h', hElems, yields_pure_iff.mpr ⟨rfl, rfl⟩⟩
  | construct hKind hTokens hName hOpening hArgs =>
    subst hTokens
    obtain ⟨h₁, hName⟩ := yields_take _ _ hName
    obtain ⟨h₃, hArgs⟩ := hArgs
    simp only [hKind, yields_bind_iff]
    refine ⟨_, _, h₁, hName, ?_⟩
    obtain ⟨h₂, hOpening⟩ := yields_take _ _ hOpening
    exact ⟨_, _, h₂, hOpening, _, _, h₃, hArgs, yields_pure_iff.mpr ⟨rfl, rfl⟩⟩
  | paren hKind hInner hClose =>
    obtain ⟨h₁, hInner⟩ := hInner
    obtain ⟨h₂, hClose⟩ := yields_take _ _ hClose
    simp only [hKind, yields_bind_iff]
    exact ⟨_, _, h₁, hInner, _, _, h₂, hClose, yields_pure_iff.mpr ⟨rfl, rfl⟩⟩

/-- A dot, or a bracket on the same line, continues an expression without operators. -/
def startsPostfix (t : Token) : Bool :=
  t.kind = .punct .dot ||
    ((t.kind = .punct .lparen || t.kind = .punct .lbracket) && !t.newlineBefore)

/-- The first of the calls, member accesses and indexes that follow `left`, up to the tokens behind
it. -/
inductive Postfix (left : Expr) : List Token → Expr → List Token → Prop
  | member {dot name : Token} {r : List Token} (hDot : dot.kind = .punct .dot)
      (hName : name.isName = true) :
      Postfix left (dot :: name :: r) (.member left name.pos name.literal) r
  | call {t : Token} {r r₁ : List Token} {args : List Expr} (hKind : t.kind = .punct .lparen)
      (hLine : t.newlineBefore = false)
      (hArgs : Yields (exprsUntil .rparen "argument list" r) args r₁) :
      Postfix left (t :: r) (.call left args) r₁
  | index {t close : Token} {r r₁ : List Token} {position : Expr}
      (hKind : t.kind = .punct .lbracket) (hLine : t.newlineBefore = false)
      (hPosition : Yields (exprAt anyLevel r) position (close :: r₁))
      (hClose : close.kind = .punct .rbracket) :
      Postfix left (t :: r) (.index left position) r₁

theorem Postfix.length_lt {left next : Expr} {ts rest : List Token}
    (h : Postfix left ts next rest) : rest.length < ts.length := by
  cases h with
  | member => simp only [List.length_cons]; omega
  | call hKind hLine hArgs => exact Nat.lt_succ_of_lt hArgs.length_lt
  | index hKind hLine hPosition hClose =>
    have hShorter := hPosition.length_lt
    simp only [List.length_cons] at *
    omega

theorem postfixes_nil_yields_iff {left e : Expr} {rest : List Token} :
    Yields (postfixes left []) e rest ↔ e = left ∧ rest = [] := by
  rw [postfixes]
  exact yields_ok_iff

theorem postfixes_cons_yields_iff {left : Expr} {t : Token} {r : List Token} {e : Expr}
    {rest : List Token} :
    Yields (postfixes left (t :: r)) e rest ↔
      (∃ next r₁, Postfix left (t :: r) next r₁ ∧ Yields (postfixes next r₁) e rest) ∨
      (startsPostfix t = false ∧ e = left ∧ rest = t :: r) := by
  rw [postfixes]
  split
  · rename_i hDot
    simp only [yields_bind_iff]
    constructor
    · rintro ⟨name, r₁, h₁, hTake, e', r₂, h₂, hRest, hSame⟩
      obtain ⟨rfl, rfl⟩ := yields_pure_iff.mp hSame
      obtain ⟨rfl, hName⟩ := takeIf_yields_iff.mp ⟨h₁, hTake⟩
      exact .inl ⟨_, r₁, .member hDot hName, h₂, hRest⟩
    · rintro (⟨next, r₁, hPostfix, h₂, hRest⟩ | ⟨hNone, _⟩)
      · cases hPostfix with
        | @member _ name _ _ hName =>
          obtain ⟨h₁, hTake⟩ := yields_takeIf "expected member name after '.'" r₁ hName
          exact ⟨name, r₁, h₁, hTake, e, rest, h₂, hRest, yields_pure_iff.mpr ⟨rfl, rfl⟩⟩
        | call hKind => rw [hDot] at hKind; cases hKind
        | index hKind => rw [hDot] at hKind; cases hKind
      · simp [startsPostfix, hDot] at hNone
  · rename_i hNotDot
    split
    · rename_i hCall
      obtain ⟨hKind, hLine⟩ : t.kind = .punct .lparen ∧ t.newlineBefore = false := by
        simpa using hCall
      simp only [yields_bind_iff]
      constructor
      · rintro ⟨args, r₁, h₁, hArgs, e', r₂, h₂, hRest, hSame⟩
        obtain ⟨rfl, rfl⟩ := yields_pure_iff.mp hSame
        exact .inl ⟨_, r₁, .call hKind hLine ⟨h₁, hArgs⟩, h₂, hRest⟩
      · rintro (⟨next, r₁, hPostfix, h₂, hRest⟩ | ⟨hNone, _⟩)
        · cases hPostfix with
          | member hDot => exact absurd hDot hNotDot
          | @call _ _ _ args _ _ hArgs =>
            obtain ⟨h₁, hArgs⟩ := hArgs
            exact ⟨args, r₁, h₁, hArgs, e, rest, h₂, hRest, yields_pure_iff.mpr ⟨rfl, rfl⟩⟩
          | index hKind' => rw [hKind] at hKind'; cases hKind'
        · simp [startsPostfix, hKind, hLine] at hNone
    · rename_i hNotCall
      split
      · rename_i hIndex
        obtain ⟨hKind, hLine⟩ : t.kind = .punct .lbracket ∧ t.newlineBefore = false := by
          simpa using hIndex
        simp only [yields_bind_iff]
        constructor
        · rintro ⟨position, r₁, h₁, hPosition, close, r₂, h₂, hTake, e', r₃, h₃, hRest, hSame⟩
          obtain ⟨rfl, rfl⟩ := yields_pure_iff.mp hSame
          obtain ⟨rfl, hClose⟩ := take_yields_iff.mp ⟨h₂, hTake⟩
          exact .inl ⟨_, r₂, .index hKind hLine ⟨h₁, hPosition⟩ hClose, h₃, hRest⟩
        · rintro (⟨next, r₁, hPostfix, h₃, hRest⟩ | ⟨hNone, _⟩)
          · cases hPostfix with
            | member hDot => exact absurd hDot hNotDot
            | call hKind' => rw [hKind] at hKind'; cases hKind'
            | @index _ close _ _ position _ _ hPosition hClose =>
              obtain ⟨h₁, hPosition⟩ := hPosition
              obtain ⟨h₂, hTake⟩ := yields_take "expected ']' after index expression" r₁ hClose
              exact ⟨position, _, h₁, hPosition, close, r₁, h₂, hTake, e, rest, h₃, hRest,
                yields_pure_iff.mpr ⟨rfl, rfl⟩⟩
          · simp [startsPostfix, hKind, hLine] at hNone
      · rename_i hNotIndex
        have hNone : startsPostfix t = false := by
          simp only [startsPostfix]
          grind
        rw [yields_ok_iff]
        constructor
        · rintro ⟨rfl, rfl⟩
          exact .inr ⟨hNone, rfl, rfl⟩
        · rintro (⟨next, r₁, hPostfix, _⟩ | ⟨_, hSame⟩)
          · cases hPostfix with
            | member hDot => exact absurd hDot hNotDot
            | call hKind hLine => simp [hKind, hLine] at hNotCall
            | index hKind hLine => simp [hKind, hLine] at hNotIndex
          · exact hSame

/-- The parts of a bracketed list: nothing, a last expression, or one with a comma behind it. -/
inductive ListRead (closing : Punct) (what : Text) (ts : List Token) :
    List Expr → List Token → Prop
  | nil {close : Token} {rest : List Token} (hTokens : ts = close :: rest)
      (hClose : close.kind = .punct closing) : ListRead closing what ts [] rest
  | last {e : Expr} {close : Token} {rest : List Token} (hOpen : atPunct closing ts = false)
      (hExpr : Yields (exprAt anyLevel ts) e (close :: rest))
      (hComma : close.kind ≠ .punct .comma) (hClose : close.kind = .punct closing) :
      ListRead closing what ts [e] rest
  | cons {e : Expr} {comma : Token} {r rest : List Token} {es : List Expr}
      (hOpen : atPunct closing ts = false) (hExpr : Yields (exprAt anyLevel ts) e (comma :: r))
      (hComma : comma.kind = .punct .comma) (hRest : Yields (exprsUntil closing what r) es rest) :
      ListRead closing what ts (e :: es) rest

theorem exists_cons_of_atPunct {p : Punct} {ts : List Token} (h : atPunct p ts = true) :
    ∃ t r, ts = t :: r ∧ t.kind = .punct p := by
  cases ts with
  | nil => cases h
  | cons t r => exact ⟨t, r, rfl, of_decide_eq_true h⟩

theorem skip?_punct {p : Punct} {ts r : List Token} {found : Bool} {h : r.length < ts.length + 1}
    (hSkip : skip? (.punct p) ts = ⟨found, r, h⟩) :
    (found = true ∧ ∃ t, ts = t :: r ∧ t.kind = .punct p) ∨
      (found = false ∧ r = ts ∧ atPunct p ts = false) := by
  unfold skip? at hSkip
  split at hSkip
  · rename_i hAt
    obtain ⟨t, r', rfl, hKind⟩ := exists_cons_of_atPunct hAt
    cases hSkip
    exact .inl ⟨rfl, t, rfl, hKind⟩
  · rename_i hAt
    cases hSkip
    exact .inr ⟨rfl, rfl, by simpa [atPunct] using hAt⟩

theorem listRead_of_yields {closing : Punct} {what : Text} {ts : List Token} {es : List Expr}
    {rest : List Token} (h : Yields (exprsUntil closing what ts) es rest) :
    ListRead closing what ts es rest := by
  rw [exprsUntil] at h
  split at h
  · rw [yields_bind_iff] at h
    obtain ⟨close, r, hr, hTake, hSame⟩ := h
    obtain ⟨rfl, rfl⟩ := yields_pure_iff.mp hSame
    obtain ⟨rfl, hClose⟩ := take_yields_iff.mp ⟨hr, hTake⟩
    exact .nil rfl hClose
  · rename_i hAt
    have hOpen : atPunct closing ts = false := by simpa using hAt
    rw [yields_bind_iff] at h
    obtain ⟨e, r, hr, hExpr, h⟩ := h
    dsimp only at h
    generalize hSkip : skip? (.punct .comma) r = s at h
    obtain ⟨more, r₁, h₁⟩ := s
    rcases skip?_punct hSkip with ⟨rfl, comma, rfl, hComma⟩ | ⟨rfl, rfl, hComma⟩
    · rw [if_pos rfl, yields_bind_iff] at h
      obtain ⟨es', r₂, h₂, hRest, hSame⟩ := h
      obtain ⟨rfl, rfl⟩ := yields_pure_iff.mp hSame
      exact .cons hOpen ⟨hr, hExpr⟩ hComma ⟨h₂, hRest⟩
    · rw [if_neg Bool.false_ne_true, yields_bind_iff] at h
      obtain ⟨close, r₂, h₂, hTake, hSame⟩ := h
      obtain ⟨rfl, rfl⟩ := yields_pure_iff.mp hSame
      obtain ⟨rfl, hClose⟩ := take_yields_iff.mp ⟨h₂, hTake⟩
      exact .last hOpen ⟨hr, hExpr⟩ (of_decide_eq_false hComma) hClose

theorem yields_of_listRead {closing : Punct} {what : Text} {ts : List Token} {es : List Expr}
    {rest : List Token} (h : ListRead closing what ts es rest) :
    Yields (exprsUntil closing what ts) es rest := by
  rw [exprsUntil]
  cases h with
  | nil hTokens hClose =>
    subst hTokens
    obtain ⟨h, hTake⟩ := yields_take [] rest hClose
    have hAt : atPunct closing (_ :: rest) = true := decide_eq_true hClose
    rw [if_pos hAt, yields_bind_iff]
    exact ⟨_, rest, h, hTake, yields_pure_iff.mpr ⟨rfl, rfl⟩⟩
  | @last e close _ hOpen hExpr hComma hClose =>
    obtain ⟨hr, hExpr⟩ := hExpr
    rw [if_neg (by simp [hOpen]), yields_bind_iff]
    refine ⟨e, close :: rest, hr, hExpr, ?_⟩
    dsimp only
    generalize hSkip : skip? (.punct .comma) (close :: rest) = s
    obtain ⟨more, r₁, h₁⟩ := s
    rcases skip?_punct hSkip with ⟨_, _, hTokens, hKind⟩ | ⟨rfl, rfl, _⟩
    · cases hTokens
      exact absurd hKind hComma
    · obtain ⟨h, hTake⟩ := yields_take _ _ hClose
      rw [if_neg Bool.false_ne_true, yields_bind_iff]
      exact ⟨close, rest, h, hTake, yields_pure_iff.mpr ⟨rfl, rfl⟩⟩
  | @cons e comma r _ es hOpen hExpr hComma hRest =>
    obtain ⟨hr, hExpr⟩ := hExpr
    rw [if_neg (by simp [hOpen]), yields_bind_iff]
    refine ⟨e, comma :: r, hr, hExpr, ?_⟩
    dsimp only
    generalize hSkip : skip? (.punct .comma) (comma :: r) = s
    obtain ⟨more, r₁, h₁⟩ := s
    rcases skip?_punct hSkip with ⟨rfl, _, hTokens, _⟩ | ⟨_, _, hNot⟩
    · cases hTokens
      obtain ⟨h₂, hRest⟩ := hRest
      rw [if_pos rfl, yields_bind_iff]
      exact ⟨es, rest, h₂, hRest, yields_pure_iff.mpr ⟨rfl, rfl⟩⟩
    · exact absurd hComma (of_decide_eq_false hNot)

end AnchorScript.Syntax.Parser
