import AnchorScript.Proofs.Syntax.Readers

/-!
# Readers without bounds and messages

`reading` forgets the bound on what a reader leaves and the message of its failure. What stays is
the grammar as it is read: a value and the tokens behind it, or the token that does not fit. Each
reader is restated in these terms once.
-/

namespace AnchorScript.Syntax

namespace Parser

variable {α β : Type} {n m : Nat}

/-- A value and the tokens behind it, or the token that does not fit. -/
def reading (x : Reader α n) : Except Token (α × List Token) :=
  match x with
  | .ok p => .ok (p.value, p.rest)
  | .error e => .error e.token

theorem reading_bind {x : Reader α n} {f : Parsed α n → Reader β m}
    {x' : Except Token (α × List Token)} {g : α × List Token → Except Token (β × List Token)}
    (hx : reading x = x') (h : ∀ p, reading (f p) = g (p.value, p.rest)) :
    reading (x >>= f) = x' >>= g := by
  subst hx
  cases x with
  | error e => rfl
  | ok p => exact h p

/-- A reader that only restates the bound. -/
theorem reading_rebound {x : Reader α n} {f : Parsed α n → Reader α m}
    (h : ∀ p, reading (f p) = .ok (p.value, p.rest)) : reading (x >>= f) = reading x :=
  (reading_bind rfl h).trans (bind_pure _)

theorem reading_ite {p : Prop} [Decidable p] {x y : Reader α n}
    {x' y' : Except Token (α × List Token)} (hx : reading x = x') (hy : reading y = y') :
    reading (if p then x else y) = if p then x' else y' := by
  subst hx hy
  split <;> rfl

theorem length_lt_of_reading {x : Reader α n} {a : α} {r : List Token}
    (h : reading x = .ok (a, r)) : r.length < n := by
  cases x with
  | error e => cases h
  | ok p =>
    cases h
    exact p.bound

def word (accept : Token → Bool) : List Token → Except Token (Token × List Token)
  | [] => .error noToken
  | t :: r => if accept t then .ok (t, r) else .error t

theorem word_eq_ok_iff {accept : Token → Bool} {ts : List Token} {t : Token} {r : List Token} :
    word accept ts = .ok (t, r) ↔ ts = t :: r ∧ accept t = true := by
  cases ts with
  | nil => simp [word]
  | cons u us =>
    rw [word]
    split <;> grind

theorem length_lt_of_word {accept : Token → Bool} {ts : List Token} {t : Token} {r : List Token}
    (h : word accept ts = .ok (t, r)) : r.length < ts.length := by
  obtain ⟨rfl, _⟩ := word_eq_ok_iff.mp h
  exact length_lt_cons t r

abbrev kind (k : TokenKind) (ts : List Token) : Except Token (Token × List Token) :=
  word (·.kind = k) ts

theorem kind_of_eq {k : TokenKind} {t : Token} (r : List Token) (h : t.kind = k) :
    kind k (t :: r) = .ok (t, r) :=
  if_pos (decide_eq_true h)

theorem kind_of_ne {k : TokenKind} {t : Token} (r : List Token) (h : t.kind ≠ k) :
    kind k (t :: r) = .error t :=
  if_neg (by simp [h])

theorem atPunct_cons (p : Punct) (t : Token) (r : List Token) :
    atPunct p (t :: r) = decide (t.kind = .punct p) := rfl

theorem atKeyword_cons (k : Keyword) (t : Token) (r : List Token) :
    atKeyword k (t :: r) = decide (t.kind = .keyword k) := rfl

theorem atKind_cons (k : TokenKind) (t : Token) (r : List Token) :
    atKind k (t :: r) = decide (t.kind = k) := rfl

def skipped (k : TokenKind) (ts : List Token) : Bool × List Token :=
  ((skip? k ts).value, (skip? k ts).rest)

theorem skip?_of_at {k : TokenKind} {ts : List Token} (h : atKind k ts = true) :
    skip? k ts = ⟨true, ts.tail, length_tail_lt_succ ts⟩ :=
  if_pos h

theorem skip?_of_not_at {k : TokenKind} {ts : List Token} (h : atKind k ts = false) :
    skip? k ts = ⟨false, ts, length_lt_succ ts⟩ :=
  if_neg (by simp [h])

theorem reading_takeIf (accept : Token → Bool) (message : Text) (ts : List Token) :
    reading (takeIf accept message ts) = word accept ts := by
  cases ts with
  | nil => rfl
  | cons t r =>
    rw [takeIf, word]
    split <;> rfl

theorem reading_take (k : TokenKind) (message : Text) (ts : List Token) :
    reading (take k message ts) = kind k ts :=
  reading_takeIf _ message ts

theorem reading_exprAt (min : Nat) (ts : List Token) :
    reading (exprAt min ts) = (do
      let (left, r) ← reading (operand ts)
      reading (climb min left r)) := by
  rw [exprAt]
  refine reading_bind rfl fun p => ?_
  exact reading_rebound fun _ => rfl

theorem reading_climb_nil (min : Nat) (left : Expr) :
    reading (climb min left []) = .ok (left, []) := by
  rw [climb]
  rfl

theorem reading_climb_cons (min : Nat) (left : Expr) (t : Token) (r : List Token) :
    reading (climb min left (t :: r)) =
      match (Infix.ofKind? t.kind).filter (min ≤ ·.level) with
      | none => .ok (left, t :: r)
      | some i => (do
        let (right, r) ← reading (exprAt i.rightLevel r)
        reading (climb min (i.apply left right) r)) := by
  rw [climb]
  cases Infix.ofKind? t.kind with
  | none => rfl
  | some i =>
    by_cases hTight : min ≤ i.level
    · simp only [hTight, Option.filter_some, decide_true, if_true]
      refine reading_bind rfl fun p => ?_
      exact reading_rebound fun _ => rfl
    · simp only [hTight, Option.filter_some, decide_false, if_false]
      rfl

theorem reading_operand_nil : reading (operand []) = .error noToken := by
  rw [operand]
  rfl

theorem reading_operand_cons (t : Token) (r : List Token) :
    reading (operand (t :: r)) =
      match unaryOp? t.kind with
      | some op => (do
        let (e, r) ← reading (operand r)
        return (.unary t.pos op e, r))
      | none => (do
        let (e, r) ← reading (primary t r)
        reading (postfixes e r)) := by
  rw [operand]
  cases unaryOp? t.kind with
  | some op => exact reading_bind rfl fun _ => rfl
  | none =>
    refine reading_bind rfl fun p => ?_
    exact reading_rebound fun _ => rfl

theorem reading_primary (t : Token) (r : List Token) :
    reading (primary t r) =
      match t.kind with
      | .ident => .ok (.name t.pos t.literal, r)
      | .number => .ok (.number t.pos t.literal, r)
      | .string =>
        match StringLiteral.value? t.literal with
        | some value => .ok (.string t.pos value, r)
        | none => .error t
      | .keyword .kwTrue => .ok (.bool t.pos true, r)
      | .keyword .kwFalse => .ok (.bool t.pos false, r)
      | .punct .lbracket => (do
        let (elems, r) ← reading (exprsUntil .rbracket "array literal" r)
        return (.array t.pos elems, r))
      | .keyword .kwNew => (do
        let (name, r) ← kind .ident r
        let (_, r) ← kind (.punct .lparen) r
        let (args, r) ← reading (exprsUntil .rparen "constructor arguments" r)
        return (.construct t.pos name.literal args, r))
      | .punct .lparen => (do
        let (inner, r) ← reading (exprAt anyLevel r)
        let (_, r) ← kind (.punct .rparen) r
        return (.paren t.pos inner, r))
      | _ => .error t := by
  rw [primary]
  generalize t.kind = k
  split
  · rfl
  · rfl
  · cases StringLiteral.value? t.literal <;> rfl
  · rfl
  · rfl
  · exact reading_bind rfl fun _ => rfl
  · refine reading_bind (reading_take ..) fun _ => ?_
    refine reading_bind (reading_take ..) fun _ => ?_
    exact reading_bind rfl fun _ => rfl
  · refine reading_bind rfl fun _ => ?_
    exact reading_bind (reading_take ..) fun _ => rfl
  · rfl
  · split
    case h_9 => rfl
    all_goals contradiction

theorem reading_postfixes_nil (left : Expr) :
    reading (postfixes left []) = .ok (left, []) := by
  rw [postfixes]
  rfl

theorem reading_postfixes_cons (left : Expr) (t : Token) (r : List Token) :
    reading (postfixes left (t :: r)) =
      if t.kind = .punct .dot then (do
        let (name, r) ← word Token.isName r
        reading (postfixes (.member left name.pos name.literal) r))
      else if t.kind = .punct .lparen && !t.newlineBefore then (do
        let (args, r) ← reading (exprsUntil .rparen "argument list" r)
        reading (postfixes (.call left args) r))
      else if t.kind = .punct .lbracket && !t.newlineBefore then (do
        let (position, r) ← reading (exprAt anyLevel r)
        let (_, r) ← kind (.punct .rbracket) r
        reading (postfixes (.index left position) r))
      else .ok (left, t :: r) := by
  rw [postfixes]
  refine reading_ite ?_ (reading_ite ?_ (reading_ite ?_ rfl))
  · refine reading_bind (reading_takeIf ..) fun _ => ?_
    exact reading_rebound fun _ => rfl
  · refine reading_bind rfl fun _ => ?_
    exact reading_rebound fun _ => rfl
  · refine reading_bind rfl fun _ => ?_
    refine reading_bind (reading_take ..) fun _ => ?_
    exact reading_rebound fun _ => rfl

theorem reading_listUntil (closing : Punct) (message : Text)
    (item : (ts : List Token) → Reader α ts.length) (ts : List Token) :
    reading (listUntil closing message item ts) =
      if atPunct closing ts then (do
        let (_, r) ← kind (.punct closing) ts
        return ([], r))
      else (do
        let (a, r) ← reading (item ts)
        if atPunct .comma r then (do
          let (as, r) ← reading (listUntil closing message item r.tail)
          return (a :: as, r))
        else (do
          let (_, r) ← kind (.punct closing) r
          return ([a], r))) := by
  rw [listUntil]
  refine reading_ite ?_ (reading_bind rfl fun p => ?_)
  · exact reading_bind (reading_take ..) fun _ => rfl
  · dsimp only
    cases hComma : atPunct .comma p.rest with
    | true =>
      rw [skip?_of_at hComma]
      exact reading_bind rfl fun _ => rfl
    | false =>
      rw [skip?_of_not_at hComma]
      exact reading_bind (reading_take ..) fun _ => rfl

/-- A bracketed list of expressions is read as any other bracketed list. -/
theorem reading_exprsUntil (closing : Punct) (what message : Text) (ts : List Token) :
    reading (exprsUntil closing what ts) =
      reading (listUntil closing message (exprAt anyLevel) ts) := by
  rw [reading_listUntil, exprsUntil]
  refine reading_ite ?_ (reading_bind rfl fun p => ?_)
  · exact reading_bind (reading_take ..) fun _ => rfl
  · obtain ⟨e, r, hr⟩ := p
    dsimp only
    cases hComma : atPunct .comma r with
    | true =>
      rw [skip?_of_at hComma, if_pos rfl]
      have hTail := length_tail_lt_succ r
      exact reading_bind (reading_exprsUntil closing what message r.tail) fun _ => rfl
    | false =>
      rw [skip?_of_not_at hComma]
      exact reading_bind (reading_take ..) fun _ => rfl
termination_by ts.length
decreasing_by omega

theorem reading_typeArg (name : Text) (ts : List Token) :
    reading (typeArg name ts) = (do
      let (arg, r) ← word isTypeArg ts
      let (_, r) ← kind (.punct .gt) r
      return (some arg.literal, r)) := by
  refine reading_bind (reading_takeIf ..) fun _ => ?_
  exact reading_bind (reading_take ..) fun _ => rfl

/-- The argument of type `name`, if it has one. -/
def typeArg? (name : Text) (ts : List Token) : Except Token (Option Text × List Token) :=
  if atPunct .lt ts then reading (typeArg name ts.tail) else .ok (none, ts)

theorem reading_typeRef (ts : List Token) :
    reading (typeRef ts) = (do
      let (name, r) ← kind .ident ts
      let (arg, r) ← typeArg? name.literal r
      if atPunct .lbracket r then .error (current r)
      else .ok (⟨name.literal, arg, name.pos⟩, r)) := by
  refine reading_bind (reading_take ..) fun p => ?_
  dsimp only [ typeArg?]
  cases hArg : atPunct .lt p.rest with
  | true =>
    rw [skip?_of_at hArg]
    exact reading_bind rfl fun _ => reading_ite rfl rfl
  | false =>
    rw [skip?_of_not_at hArg, if_neg Bool.false_ne_true, if_neg Bool.false_ne_true]
    exact reading_bind rfl fun _ => reading_ite rfl rfl

theorem reading_field (what : Text) (ts : List Token) :
    reading (field what ts) = (do
      let (name, r) ← kind .ident ts
      if atPunct .question r then .error (current r)
      else
        let (_, r) ← kind (.punct .colon) r
        let (type, r) ← reading (typeRef r)
        return (⟨name.literal, type, name.pos⟩, r)) := by
  refine reading_bind (reading_take ..) fun _ => reading_ite rfl ?_
  refine reading_bind (reading_take ..) fun _ => ?_
  exact reading_bind rfl fun _ => rfl

theorem reading_typeAnnotation (ts : List Token) :
    reading ( typeAnnotation ts) =
      if atPunct .colon ts then (do
        let (type, r) ← reading (typeRef ts.tail)
        return (some type, r))
      else .ok (none, ts) := by
  rw [ typeAnnotation]
  cases hColon : atPunct .colon ts with
  | true =>
    rw [skip?_of_at hColon]
    exact reading_bind rfl fun _ => rfl
  | false =>
    rw [skip?_of_not_at hColon]
    rfl

theorem reading_endOfStatement (what : Text) (ts : List Token) :
    reading (endOfStatement what ts) =
      if atPunct .semicolon ts then .ok (⟨⟩, ts.tail)
      else if atPunct .rbrace ts || atKind .endOfInput ts || (current ts).newlineBefore then
        .ok (⟨⟩, ts)
      else .error (current ts) :=
  reading_ite rfl (reading_ite rfl rfl)

theorem reading_binding (t : Token) (k : BindingKind) (ts : List Token) :
    reading (binding t k ts) = (do
      let (name, r) ← kind .ident ts
      let (type, r) ← reading ( typeAnnotation r)
      let (_, r) ← kind (.punct .assign) r
      let (value, r) ← reading (expression r)
      let (_, r) ← reading (endOfStatement "variable declaration" r)
      return (.binding t.pos k name.literal type value, r)) := by
  refine reading_bind (reading_take ..) fun _ => ?_
  refine reading_bind rfl fun _ => ?_
  refine reading_bind (reading_take ..) fun _ => ?_
  refine reading_bind rfl fun _ => ?_
  exact reading_bind rfl fun _ => rfl

theorem reading_returned (ts : List Token) :
    reading (returned ts) =
      if atPunct .semicolon ts || atPunct .rbrace ts || (current ts).newlineBefore then
        .ok (none, ts)
      else (do
        let (value, r) ← reading (expression ts)
        return (some value, r)) :=
  reading_ite rfl (reading_bind rfl fun _ => rfl)

theorem reading_statement (t : Token) (r : List Token) :
    reading (statement t r) =
      match t.kind with
      | .keyword .kwConst => reading (binding t .const r)
      | .keyword .kwLet => reading (binding t .letting r)
      | .keyword .kwReturn => (do
        let (value, r) ← reading (returned r)
        let (_, r) ← reading (endOfStatement "return statement" r)
        return (.ret t.pos value, r))
      | _ => (do
        let (value, r) ← reading (expression (t :: r))
        let (_, r) ← reading (endOfStatement "expression statement" r)
        return (.expr t.pos value, r)) := by
  rw [statement]
  generalize t.kind = k
  cases k with
  | keyword w =>
    cases w
    case kwConst => exact reading_rebound fun _ => rfl
    case kwLet => exact reading_rebound fun _ => rfl
    case kwReturn =>
      refine reading_bind rfl fun _ => ?_
      exact reading_bind rfl fun _ => rfl
    all_goals
      refine reading_bind rfl fun _ => ?_
      exact reading_bind rfl fun _ => rfl
  | _ =>
    refine reading_bind rfl fun _ => ?_
    exact reading_bind rfl fun _ => rfl

theorem reading_statements_nil (what : Text) : reading (statements what []) = .error noToken := by
  rw [statements]
  rfl

theorem reading_statements_cons (what : Text) (t : Token) (r : List Token) :
    reading (statements what (t :: r)) =
      if t.kind = .punct .rbrace then .ok ([], r)
      else if t.kind = .endOfInput then .error t
      else if t.kind = .punct .semicolon then reading (statements what r)
      else (do
        let (s, r) ← reading (statement t r)
        let (ss, r) ← reading (statements what r)
        return (s :: ss, r)) := by
  rw [statements]
  refine reading_ite rfl (reading_ite rfl (reading_ite ?_ ?_))
  · exact reading_rebound fun _ => rfl
  · refine reading_bind rfl fun _ => ?_
    exact reading_bind rfl fun _ => rfl

theorem reading_block (what : Text) (ts : List Token) :
    reading (block what ts) = (do
      let (_, r) ← kind (.punct .lbrace) ts
      reading (statements what r)) := by
  refine reading_bind (reading_take ..) fun _ => ?_
  exact reading_rebound fun _ => rfl

theorem reading_importedNames_cons (t : Token) (r : List Token) :
    reading (importedNames (t :: r)) =
      match t.kind with
      | .punct .lbrace => (do
        let (names, r) ← reading (listUntil .rbrace "expected '\x7d' to close import list"
          (takeIdent "expected imported name") r)
        return (names.map Token.literal, r))
      | .ident => .ok ([t.literal], r)
      | _ => .error t := by
  rw [importedNames]
  generalize t.kind = k
  cases k with
  | punct p =>
    cases p
    case lbrace => exact reading_bind rfl fun _ => rfl
    all_goals rfl
  | _ => rfl

/-- The string that names a module. -/
def modulePath (ts : List Token) : Except Token (Text × List Token) := do
  let (t, r) ← kind .string ts
  match StringLiteral.value? t.literal with
  | none => .error t
  | some module => .ok (module, r)

theorem modulePath_cons (t : Token) (r : List Token) :
    modulePath (t :: r) =
      if t.kind = .string then
        match StringLiteral.value? t.literal with
        | none => .error t
        | some module => .ok (module, r)
      else .error t := by
  rw [modulePath, kind, word]
  by_cases h : t.kind = .string
  · simp only [h, decide_true, if_true]
    rfl
  · simp only [h, decide_false, if_false]
    rfl

theorem reading_importDecl (ts : List Token) :
    reading (importDecl ts) = (do
      let (t, r) ← kind (.keyword .kwImport) ts
      let (names, r) ← reading (importedNames r)
      let (_, r) ← word isFrom r
      let (module, r) ← modulePath r
      let (_, r) ← reading (endOfStatement "import declaration" r)
      return (⟨names, module, t.pos⟩, r)) := by
  refine reading_bind (reading_take ..) fun _ => ?_
  refine reading_bind rfl fun _ => ?_
  refine reading_bind (reading_takeIf ..) fun _ => ?_
  refine (reading_bind (reading_take ..) fun p => ?_).trans (bind_assoc ..).symm
  dsimp only
  cases StringLiteral.value? p.value.literal with
  | none => rfl
  | some module => exact reading_bind rfl fun _ => rfl

theorem reading_importDecls (ts : List Token) :
    reading (importDecls ts) =
      if atKeyword .kwImport ts then (do
        let (d, r) ← reading (importDecl ts)
        let (ds, r) ← reading (importDecls r)
        return (d :: ds, r))
      else .ok ([], ts) := by
  rw [importDecls]
  refine reading_ite (reading_bind rfl fun _ => ?_) rfl
  exact reading_bind rfl fun _ => rfl

theorem reading_method (name : Token) (ts : List Token) :
    reading (method name ts) = (do
      let (_, r) ← kind (.punct .lparen) ts
      let (params, r) ←
        reading (listUntil .rparen "expected ')' after parameter list" (field "parameter") r)
      let (returns, r) ← reading ( typeAnnotation r)
      let (body, r) ← reading (block "method body" r)
      return (⟨name.literal, params, returns, body, name.pos⟩, r)) := by
  refine reading_bind (reading_take ..) fun _ => ?_
  refine reading_bind rfl fun _ => ?_
  refine reading_bind rfl fun _ => ?_
  exact reading_bind rfl fun _ => rfl

/-- What follows the name of a class member. -/
def memberBody (isStatic : Bool) (name : Token) (ts : List Token) :
    Except Token (Member × List Token) :=
  if atPunct .assign ts then do
    let (_, r) ← kind (.punct .assign) ts
    let (value, r) ← reading (expression r)
    let (_, r) ← reading (endOfStatement "property declaration" r)
    return (.property ⟨name.literal, isStatic, value, name.pos⟩, r)
  else if atPunct .lparen ts then
    if isStatic then .error name
    else do
      let (m, r) ← reading (method name ts)
      return (.method m, r)
  else .error (current ts)

theorem reading_member (ts : List Token) :
    reading (member ts) = (do
      let (_, r) := skipped (.keyword .kwPublic) ts
      let (isStatic, r) := skipped (.keyword .kwStatic) r
      let (name, r) ← kind .ident r
      memberBody isStatic name r) := by
  refine reading_bind (reading_take ..) fun p => ?_
  refine reading_ite ?_ (reading_ite (reading_ite rfl ?_) rfl)
  · refine reading_bind (reading_take ..) fun _ => ?_
    refine reading_bind rfl fun _ => ?_
    exact reading_bind rfl fun _ => rfl
  · exact reading_bind rfl fun _ => rfl

theorem reading_members_nil : reading (members []) = .error noToken := by
  rw [members]
  rfl

theorem reading_members_cons (t : Token) (r : List Token) :
    reading (members (t :: r)) =
      if t.kind = .punct .rbrace then .ok ([], r)
      else if t.kind = .endOfInput then .error t
      else if t.kind = .punct .semicolon then reading (members r)
      else (do
        let (m, r) ← reading (member (t :: r))
        let (ms, r) ← reading (members r)
        return (m :: ms, r)) := by
  rw [members]
  refine reading_ite rfl (reading_ite rfl (reading_ite ?_ ?_))
  · exact reading_rebound fun _ => rfl
  · refine reading_bind rfl fun _ => ?_
    exact reading_bind rfl fun _ => rfl

theorem reading_classDecl (isExported isDefault : Bool) (ts : List Token) :
    reading (classDecl isExported isDefault ts) = (do
      let (t, r) ← kind (.keyword .kwClass) ts
      let (name, r) ← kind .ident r
      let (_, r) ← kind (.punct .lbrace) r
      let (ms, r) ← reading (members r)
      return (⟨name.literal, isExported, isDefault, ms.filterMap Member.property?,
        ms.filterMap Member.method?, t.pos⟩, r)) := by
  refine reading_bind (reading_take ..) fun _ => ?_
  refine reading_bind (reading_take ..) fun _ => ?_
  refine reading_bind (reading_take ..) fun _ => ?_
  exact reading_bind rfl fun _ => rfl

theorem reading_endOfField (name : Text) (ts : List Token) :
    reading (endOfField name ts) =
      if atPunct .semicolon ts || atPunct .comma ts then .ok (⟨⟩, ts.tail)
      else if atPunct .rbrace ts || (current ts).newlineBefore then .ok (⟨⟩, ts)
      else .error (current ts) :=
  reading_ite rfl (reading_ite rfl rfl)

theorem reading_interfaceFields (ts : List Token) :
    reading (interfaceFields ts) =
      if atPunct .rbrace ts || atKind .endOfInput ts then (do
        let (_, r) ← kind (.punct .rbrace) ts
        return ([], r))
      else (do
        let (f, r) ← reading (field "field" ts)
        let (_, r) ← reading (endOfField f.name r)
        let (fs, r) ← reading (interfaceFields r)
        return (f :: fs, r)) := by
  rw [interfaceFields]
  refine reading_ite ?_ (reading_bind rfl fun _ => ?_)
  · exact reading_bind (reading_take ..) fun _ => rfl
  · refine reading_bind rfl fun _ => ?_
    exact reading_bind rfl fun _ => rfl

theorem reading_baseInterface (ts : List Token) :
    reading (baseInterface ts) =
      if atKeyword .kwExtends ts then (do
        let (base, r) ← kind .ident ts.tail
        return (some base.literal, r))
      else .ok (none, ts) := by
  rw [baseInterface]
  cases hExtends : atKeyword .kwExtends ts with
  | true =>
    rw [skip?_of_at hExtends]
    exact reading_bind (reading_take ..) fun _ => rfl
  | false =>
    rw [skip?_of_not_at hExtends]
    rfl

theorem reading_interfaceDecl (isExported : Bool) (ts : List Token) :
    reading (interfaceDecl isExported ts) = (do
      let (t, r) ← kind (.keyword .kwInterface) ts
      let (name, r) ← kind .ident r
      let (base, r) ← reading (baseInterface r)
      let (_, r) ← kind (.punct .lbrace) r
      let (fields, r) ← reading (interfaceFields r)
      return (⟨name.literal, isExported, base, fields, t.pos⟩, r)) := by
  refine reading_bind (reading_take ..) fun _ => ?_
  refine reading_bind (reading_take ..) fun _ => ?_
  refine reading_bind rfl fun _ => ?_
  refine reading_bind (reading_take ..) fun _ => ?_
  exact reading_bind rfl fun _ => rfl

/-- The declaration that stands behind its export words. -/
def declared (isExported isDefault : Bool) (ts : List Token) :
    Except Token (Declaration × List Token) :=
  match (current ts).kind with
  | .keyword .kwClass => do
    let (c, r) ← reading (classDecl isExported isDefault ts)
    return (.cls c, r)
  | .keyword .kwInterface =>
    if isDefault then .error (current ts)
    else do
      let (i, r) ← reading (interfaceDecl isExported ts)
      return (.interface i, r)
  | _ => .error (current ts)

def exportedAs (ts : List Token) : (Bool × Bool) × List Token :=
  ((exportWords ts).value, (exportWords ts).rest)

theorem exportedAs_eq (ts : List Token) :
    exportedAs ts =
      if atKeyword .kwExport ts then
        ((true, (skipped (.keyword .kwDefault) ts.tail).1),
          (skipped (.keyword .kwDefault) ts.tail).2)
      else ((false, false), ts) := by
  unfold exportedAs exportWords
  cases hExport : atKeyword .kwExport ts with
  | true => rw [skip?_of_at hExport]; rfl
  | false => rw [skip?_of_not_at hExport]; rfl

theorem reading_declaration (ts : List Token) :
    reading (declaration ts) =
      let ((isExported, isDefault), r) := exportedAs ts
      declared isExported isDefault r := by
  unfold declaration declared exportedAs
  dsimp only
  generalize (current (exportWords ts).rest).kind = k
  split
  · exact reading_bind rfl fun _ => rfl
  · exact reading_ite rfl (reading_bind rfl fun _ => rfl)
  · rfl
  · split
    case h_3 => rfl
    all_goals contradiction

/-- Without the message of the failure. -/
def located (x : Except Failure α) : Except Token α := x.mapError Failure.token

theorem located_bind {x : Reader α n} {f : Parsed α n → Except Failure β}
    {g : α × List Token → Except Token β} (h : ∀ p, located (f p) = g (p.value, p.rest)) :
    located (x >>= f) = reading x >>= g := by
  cases x with
  | error e => rfl
  | ok p => exact h p

theorem located_map {γ : Type} {x : Except Failure β} {f : β → γ} :
    located (x >>= fun b => pure (f b)) = located x >>= fun b => pure (f b) := by
  cases x <;> rfl

theorem located_declarations_nil : located (declarations []) = .ok [] := by
  rw [declarations]
  rfl

theorem located_declarations_cons (t : Token) (r : List Token) :
    located (declarations (t :: r)) =
      if t.kind = .endOfInput then .ok []
      else if t.kind = .punct .semicolon then located (declarations r)
      else (do
        let (d, r) ← reading (declaration (t :: r))
        let ds ← located (declarations r)
        return d :: ds) := by
  rw [declarations]
  split
  · rfl
  · split
    · rfl
    · exact located_bind fun _ => located_map

theorem located_file (ts : List Token) :
    located (file ts) = (do
      let (imports, r) ← reading (importDecls ts)
      let ds ← located (declarations r)
      return ⟨imports, ds.filterMap Declaration.class?, ds.filterMap Declaration.interface?⟩) :=
  located_bind fun _ => located_map

end Parser

theorem parse_eq_ok_iff {name src : Text} {f : File} :
    parse name src = .ok f ↔ Parser.located (Parser.file (tokens src)) = .ok f :=
  Outcome.mapError_eq_ok_iff.trans Outcome.mapError_eq_ok_iff.symm

end AnchorScript.Syntax
