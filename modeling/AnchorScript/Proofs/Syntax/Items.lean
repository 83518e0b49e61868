import AnchorScript.Proofs.Syntax.OneLine

/-!
# Imports, properties, statements and fields on one line

Each of these items is read up to the token that ends it, or to a line break or a brace that stands
for this token. On one line, an item is the same before every token that can end it.
-/

namespace AnchorScript.Syntax.Parser

open Outcome

variable {α β : Type} {F G P Q : TokenKind → Bool}

def endedBy (finish : List Token → Except Token (PUnit × List Token))
    (core : List Token → Except Token (α × List Token)) (ts : List Token) :
    Except Token (α × List Token) := do
  let (a, r) ← core ts
  let (_, r) ← finish r
  return (a, r)

/-- The reader takes a token that ends an item, or nothing. -/
structure Finishes (ends : TokenKind → Bool)
    (finish : List Token → Except Token (PUnit × List Token)) : Prop where
  take {t : Token} (r : List Token) (h : ends t.kind = true) : finish (t :: r) = .ok (⟨⟩, r)
  taken {ts rest : List Token} {u : PUnit} (h : finish ts = .ok (u, rest)) :
    ts = rest ∨ ∃ t, ts = t :: rest ∧ ends t.kind = true

/-- What was read is a core and at most one token that ends it. On one line, the core is the same
item before every such token. -/
def Closes (ends : TokenKind → Bool) (read : List Token → Except Token (α × List Token)) : Prop :=
  ∀ ⦃ts a rest⦄, read ts = .ok (a, rest) → ∃ core ender, ts = core ++ ender ++ rest ∧
    (∀ t ∈ core, ends t.kind = false) ∧ (ender = [] ∨ ∃ t, ender = [t] ∧ ends t.kind = true) ∧
    ∀ t tail, ends t.kind = true → read (onLine core ++ t :: tail) = .ok (a, tail)

theorem Copies.endedBy {ends : TokenKind → Bool}
    {finish : List Token → Except Token (PUnit × List Token)}
    {core : List Token → Except Token (α × List Token)} (h : Copies F P core)
    (hFinish : Finishes ends finish) (hFollow : ∀ k, ends k = true → F k = true)
    (hPass : ∀ k, P k = true → ends k = false) : Closes ends (Parser.endedBy finish core) := by
  intro ts a rest hRead
  obtain ⟨⟨a', r⟩, hCore, hEnd⟩ := bind_eq_ok_iff.mp hRead
  obtain ⟨⟨u, r'⟩, hTaken, hSame⟩ := bind_eq_ok_iff.mp hEnd
  cases hSame
  obtain ⟨used, rfl, hOnly, hLine⟩ := h hCore
  have hItem : ∀ t tail, ends t.kind = true →
      Parser.endedBy finish core (onLine used ++ t :: tail) = .ok (a, tail) := by
    intro t tail ht
    rw [Parser.endedBy, hLine (t :: tail) (hFollow _ ht)]
    exact congrArg (· >>= fun p => pure (a, p.2)) (hFinish.take tail ht)
  rcases hFinish.taken hTaken with rfl | ⟨t, rfl, ht⟩
  · exact ⟨used, [], by simp, fun t ht => hPass _ (hOnly t ht), .inl rfl, hItem⟩
  · exact ⟨used, [t], by simp, fun t ht => hPass _ (hOnly t ht), .inr ⟨t, rfl, ht⟩, hItem⟩

def isSemicolon (k : TokenKind) : Bool := k = .punct .semicolon

def isFieldEnd (k : TokenKind) : Bool := k = .punct .semicolon || k = .punct .comma

theorem isSemicolon_of_notSemicolon (k : TokenKind) (h : notSemicolon k = true) :
    isSemicolon k = false :=
  decide_eq_false (of_decide_eq_true h)

theorem quiet_of_isSemicolon (k : TokenKind) (h : isSemicolon k = true) : quiet k = true := by
  rw [of_decide_eq_true h]
  rfl

theorem finishes_endOfStatement (what : Text) :
    Finishes isSemicolon fun ts => reading (endOfStatement what ts) where
  take {t} r h := by
    have hAt : atPunct .semicolon (t :: r) = true := h
    rw [reading_endOfStatement, hAt]
    rfl
  taken {ts rest u} h := by
    rw [reading_endOfStatement] at h
    split at h
    · rename_i hAt
      obtain ⟨t, r, rfl, hKind⟩ := exists_cons_of_atPunct hAt
      cases h
      exact .inr ⟨t, rfl, decide_eq_true hKind⟩
    · split at h
      · cases h
        exact .inl rfl
      · cases h

theorem finishes_endOfField (name : Text) :
    Finishes isFieldEnd fun ts => reading (endOfField name ts) where
  take {t} r h := by
    have hAt : (atPunct .semicolon (t :: r) || atPunct .comma (t :: r)) = true := h
    rw [reading_endOfField, hAt]
    rfl
  taken {ts rest u} h := by
    rw [reading_endOfField] at h
    split at h
    · rename_i hAt
      cases ts with
      | nil => cases hAt
      | cons t r =>
        cases h
        exact .inr ⟨t, rfl, hAt⟩
    · split at h
      · cases h
        exact .inl rfl
      · cases h

/-- What a semicolon ends, up to the semicolon. -/
abbrev closedStatement (core : List Token → Except Token (α × List Token)) :
    List Token → Except Token (α × List Token) :=
  endedBy (fun ts => reading (endOfStatement [] ts)) core

theorem Copies.closedStatement {core : List Token → Except Token (α × List Token)}
    (h : Copies isSemicolon notSemicolon core) : Closes isSemicolon (closedStatement core) :=
  h.endedBy (finishes_endOfStatement []) (fun _ h => h) isSemicolon_of_notSemicolon

theorem reading_endOfStatement_eq (what : Text) (ts : List Token) :
    reading (endOfStatement what ts) = reading (endOfStatement [] ts) :=
  (reading_endOfStatement what ts).trans (reading_endOfStatement [] ts).symm

def importCore (ts : List Token) : Except Token (ImportDecl × List Token) := do
  let (t, r) ← kind (.keyword .kwImport) ts
  let (names, r) ← reading (importedNames r)
  let (_, r) ← word isFrom r
  let (module, r) ← modulePath r
  return (⟨names, module, t.pos⟩, r)

theorem reading_importDecl_eq (ts : List Token) :
    reading (importDecl ts) = closedStatement importCore ts := by
  simp only [reading_importDecl, closedStatement, endedBy, importCore, bind_assoc, pure_bind,
    reading_endOfStatement_eq "import declaration"]

theorem copies_importCore : Copies isSemicolon notSemicolon importCore := by
  refine .kind_bind rfl (fun t => ?_) fun _ _ _ h => h
  dsimp only
  refine .bind (F := anyKind) copies_importedNames (fun names => ?_) fun _ _ _ _ _ _ => rfl
  dsimp only
  refine .word_bind (fun _ => rfl) (fun u hu => ?_) (fun _ => ?_) fun _ _ _ h => h
  · obtain ⟨hKind, _⟩ := Bool.and_eq_true_iff.mp hu
    rw [of_decide_eq_true hKind]
    rfl
  · dsimp only
    exact copies_modulePath.map fun module => ImportDecl.mk names module t.pos

theorem closes_importDecl : Closes isSemicolon fun ts => reading (importDecl ts) := by
  simp only [reading_importDecl_eq]
  exact copies_importCore.closedStatement

def bindingCore (t : Token) (k : BindingKind) (ts : List Token) :
    Except Token (Statement × List Token) := do
  let (name, r) ← kind .ident ts
  let (type, r) ← reading ( typeAnnotation r)
  let (_, r) ← kind (.punct .assign) r
  let (value, r) ← reading (expression r)
  return (.binding t.pos k name.literal type value, r)

theorem copies_bindingCore (t : Token) (k : BindingKind) :
    Copies isSemicolon notSemicolon (bindingCore t k) := by
  have hValue : Copies isSemicolon notSemicolon fun ts => reading (expression ts) :=
    copies_expression.mono quiet_of_isSemicolon fun _ h => h
  refine .kind_bind rfl (fun name => ?_) fun _ _ _ h => h
  dsimp only
  refine .bind ( copies_typeAnnotation.mono (fun _ h => h) notSemicolon_of_inField) (fun type => ?_)
    fun _ ts _ _ _ hRead => meets_of_kind hRead rfl
  dsimp only
  refine .kind_bind rfl (fun _ => ?_) fun _ _ _ h => h
  exact hValue.map fun value => Statement.binding t.pos k name.literal type value

theorem copies_returned :
    Copies isSemicolon notSemicolon fun ts => reading (returned ts) := by
  have hNone : ∀ tail, Meets isSemicolon tail → reading (returned tail) = .ok (none, tail) := by
    intro tail hTail
    have hAt : atPunct .semicolon tail = true := hTail
    rw [reading_returned, hAt]
    rfl
  intro ts value rest hRead
  dsimp only at hRead ⊢
  rw [reading_returned] at hRead
  split at hRead
  · cases hRead
    exact ⟨[], rfl, by simp, fun tail hTail => hNone tail hTail⟩
  · rename_i hHere
    obtain ⟨⟨e, r⟩, hExpr, hSame⟩ := bind_eq_ok_iff.mp hRead
    cases hSame
    have hShorter := length_lt_of_reading hExpr
    obtain ⟨used, rfl, hOnly, hLine⟩ := copies_expression hExpr
    refine ⟨used, rfl, hOnly, fun tail hTail => ?_⟩
    cases used with
    | nil => exact absurd hShorter (Nat.lt_irrefl _)
    | cons t used =>
      have hThere : (atPunct .semicolon (onLine (t :: used) ++ tail) ||
          atPunct .rbrace (onLine (t :: used) ++ tail) ||
          (current (onLine (t :: used) ++ tail)).newlineBefore) = false := by
        rw [Bool.or_eq_true, not_or] at hHere
        exact Bool.or_eq_false_iff.mpr ⟨Bool.eq_false_iff.mpr hHere.1, rfl⟩
      have hAfter := hLine tail (quiet_of_isSemicolon _ hTail)
      rw [reading_returned, hThere]
      exact congrArg (· >>= fun p => pure (some p.1, p.2)) hAfter

/-- The statement that begins with the first token. -/
def statementFrom : List Token → Except Token (Statement × List Token)
  | [] => .error noToken
  | t :: r => reading (statement t r)

def statementCore : List Token → Except Token (Statement × List Token)
  | [] => .error noToken
  | t :: r =>
    if t.kind = .keyword .kwConst then bindingCore t .const r
    else if t.kind = .keyword .kwLet then bindingCore t .letting r
    else if t.kind = .keyword .kwReturn then do
      let (value, r) ← reading (returned r)
      return (.ret t.pos value, r)
    else do
      let (value, r) ← reading (expression (t :: r))
      return (.expr t.pos value, r)

theorem statementFrom_eq (ts : List Token) :
    statementFrom ts = closedStatement statementCore ts := by
  cases ts with
  | nil => rfl
  | cons t r =>
    unfold statementFrom closedStatement endedBy statementCore
    dsimp only
    rw [reading_statement]
    generalize t.kind = k
    cases k with
    | keyword w =>
      cases w
      all_goals simp only [reading_binding, bindingCore, bind_assoc, pure_bind, reduceCtorEq,
        TokenKind.keyword.injEq, if_true, if_false, reading_endOfStatement_eq "return statement",
        reading_endOfStatement_eq "expression statement",
        reading_endOfStatement_eq "variable declaration"]
    | _ =>
      simp only [bind_assoc, pure_bind, reduceCtorEq, if_false,
        reading_endOfStatement_eq "expression statement"]

theorem copies_statementCore : Copies isSemicolon notSemicolon statementCore := by
  intro ts s rest hRead
  cases ts with
  | nil => cases hRead
  | cons t r =>
    have hJoined : t.joined.kind = t.kind := rfl
    -- Behind a keyword, what is read does not depend on the line of the keyword.
    have hBehind : ∀ {core : List Token → Except Token (Statement × List Token)},
        Copies isSemicolon notSemicolon core → core r = .ok (s, rest) → notSemicolon t.kind = true →
        (∀ x, statementCore (t.joined :: x) = core x) →
        ∃ used, t :: r = used ++ rest ∧ (∀ u ∈ used, notSemicolon u.kind = true) ∧
          ∀ tail, Meets isSemicolon tail → statementCore (onLine used ++ tail) = .ok (s, tail) := by
      intro core hCore hRest hKind hSame
      obtain ⟨used, rfl, hOnly, hLine⟩ := hCore hRest
      exact ⟨t :: used, rfl, List.forall_mem_cons.mpr ⟨hKind, hOnly⟩, fun tail hTail =>
        (hSame _).trans (hLine tail hTail)⟩
    rw [statementCore] at hRead
    split at hRead
    · rename_i hKind
      refine hBehind (copies_bindingCore t .const) hRead (by rw [hKind]; rfl) fun x => ?_
      rw [statementCore, hJoined, if_pos hKind]
      rfl
    · rename_i hConst
      split at hRead
      · rename_i hKind
        refine hBehind (copies_bindingCore t .letting) hRead (by rw [hKind]; rfl) fun x => ?_
        rw [statementCore, hJoined, if_neg hConst, if_pos hKind]
        rfl
      · rename_i hLet
        split at hRead
        · rename_i hKind
          refine hBehind (copies_returned.map fun value => Statement.ret t.pos value) hRead
            (by rw [hKind]; rfl) fun x => ?_
          rw [statementCore, hJoined, if_neg hConst, if_neg hLet, if_pos hKind]
          rfl
        · rename_i hReturn
          obtain ⟨⟨e, r'⟩, hExpr, hSame⟩ := bind_eq_ok_iff.mp hRead
          cases hSame
          have hShorter := length_lt_of_reading hExpr
          obtain ⟨used, hUsed, hOnly, hLine⟩ := copies_expression hExpr
          obtain ⟨used, rfl⟩ := exists_cons_of_length_lt hUsed hShorter
          refine ⟨t :: used, hUsed, hOnly, fun tail hTail => ?_⟩
          rw [onLine_cons, List.cons_append, statementCore, hJoined, if_neg hConst, if_neg hLet,
            if_neg hReturn]
          exact congrArg (· >>= fun p => pure (Statement.expr t.pos p.1, p.2))
            (hLine tail (quiet_of_isSemicolon _ hTail))

theorem closes_statementFrom : Closes isSemicolon statementFrom := by
  rw [funext statementFrom_eq]
  exact copies_statementCore.closedStatement

/-- The property that begins with the first token; a method is not one. -/
def propertyFrom (ts : List Token) : Except Token (PropertyDecl × List Token) := do
  let (m, r) ← reading (member ts)
  match m with
  | .property p => .ok (p, r)
  | .method _ => .error (current ts)

def propertyValue (isStatic : Bool) (name : Token) (ts : List Token) :
    Except Token (PropertyDecl × List Token) := do
  let (_, r) ← kind (.punct .assign) ts
  let (value, r) ← reading (expression r)
  return (⟨name.literal, isStatic, value, name.pos⟩, r)

def propertyBody (isStatic : Bool) (ts : List Token) :
    Except Token (PropertyDecl × List Token) := do
  let (name, r) ← kind .ident ts
  propertyValue isStatic name r

def propertyCore (ts : List Token) : Except Token (PropertyDecl × List Token) :=
  let (_, r) := skipped (.keyword .kwPublic) ts
  let (isStatic, r) := skipped (.keyword .kwStatic) r
  propertyBody isStatic r

theorem propertyFrom_eq_ok_iff {ts : List Token} {p : PropertyDecl} {rest : List Token} :
    propertyFrom ts = .ok (p, rest) ↔ reading (member ts) = .ok (.property p, rest) := by
  unfold propertyFrom
  cases reading (member ts) with
  | error e => exact ⟨nofun, nofun⟩
  | ok q =>
    obtain ⟨m, r⟩ := q
    cases m with
    | property p' =>
      show Except.ok (p', r) = .ok (p, rest) ↔ _
      simp
    | method m =>
      show Except.error (current ts) = .ok (p, rest) ↔ _
      simp

theorem memberBody_eq_ok_property_iff {isStatic : Bool} {name : Token} {ts : List Token}
    {p : PropertyDecl} {rest : List Token} :
    memberBody isStatic name ts = .ok (.property p, rest) ↔
      closedStatement (propertyValue isStatic name) ts = .ok (p, rest) := by
  unfold memberBody
  cases hAssign : atPunct .assign ts with
  | true =>
    have hSame : (do
        let (_, r) ← kind (.punct .assign) ts
        let (value, r) ← reading (expression r)
        let (_, r) ← reading (endOfStatement "property declaration" r)
        return (Member.property ⟨name.literal, isStatic, value, name.pos⟩, r)) =
        closedStatement (propertyValue isStatic name) ts >>= fun q =>
          pure (.property q.1, q.2) := by
      simp only [closedStatement, endedBy, propertyValue, bind_assoc, pure_bind,
        reading_endOfStatement_eq "property declaration"]
    rw [if_pos rfl, hSame, bind_eq_ok_iff]
    constructor
    · rintro ⟨⟨p', r⟩, hRead, hPure⟩
      cases hPure
      exact hRead
    · exact fun hRead => ⟨(p, rest), hRead, rfl⟩
  | false =>
    refine iff_of_false (fun hRead => ?_) fun hRead => ?_
    · rw [if_neg Bool.false_ne_true] at hRead
      split at hRead
      · split at hRead
        · cases hRead
        · obtain ⟨q, _, hSame⟩ := bind_eq_ok_iff.mp hRead
          cases hSame
      · cases hRead
    · obtain ⟨q, hCore, _⟩ := bind_eq_ok_iff.mp hRead
      have hAt : Meets (· = .punct .assign) ts := meets_of_kind hCore rfl
      exact Bool.false_ne_true (hAssign.symm.trans hAt)

theorem member_eq_ok_property_iff {ts : List Token} {p : PropertyDecl} {rest : List Token} :
    reading (member ts) = .ok (.property p, rest) ↔
      closedStatement propertyCore ts = .ok (p, rest) := by
  have hSame : closedStatement propertyCore ts = (do
      let (_, r) := skipped (.keyword .kwPublic) ts
      let (isStatic, r) := skipped (.keyword .kwStatic) r
      let (name, r) ← kind .ident r
      closedStatement (propertyValue isStatic name) r) := by
    simp only [closedStatement, endedBy, propertyCore, propertyBody, bind_assoc]
  rw [reading_member, hSame]
  dsimp only
  rw [bind_eq_ok_iff, bind_eq_ok_iff]
  exact exists_congr fun q => and_congr_right fun _ => memberBody_eq_ok_property_iff

theorem copies_propertyBody (isStatic : Bool) :
    Copies isSemicolon notSemicolon (propertyBody isStatic) := by
  have hValue : Copies isSemicolon notSemicolon fun ts => reading (expression ts) :=
    copies_expression.mono quiet_of_isSemicolon fun _ h => h
  refine .kind_bind rfl (fun name => ?_) fun _ _ _ h => h
  refine .kind_bind rfl (fun _ => ?_) fun _ _ _ h => h
  exact hValue.map fun value => PropertyDecl.mk name.literal isStatic value name.pos

theorem skipped_of_at {k : TokenKind} {t : Token} (r : List Token) (h : t.kind = k) :
    skipped k (t :: r) = (true, r) := by
  have hAt : atKind k (t :: r) = true := decide_eq_true h
  rw [skipped, skip?_of_at hAt]
  rfl

theorem skipped_of_not_at {k : TokenKind} {ts : List Token} (h : atKind k ts = false) :
    skipped k ts = (false, ts) := by
  rw [skipped, skip?_of_not_at h]

/-- A word that may stand before what is read. -/
theorem Copies.skip {k : Keyword} {next : Bool → List Token → Except Token (β × List Token)}
    (hNext : ∀ found, Copies F P (next found)) (hPass : P (.keyword k) = true)
    (hLead : ∀ ts p, next false ts = .ok p → atKeyword k ts = false) :
    Copies F P fun ts => next (skipped (.keyword k) ts).1 (skipped (.keyword k) ts).2 := by
  intro ts b rest hRead
  dsimp only at hRead ⊢
  cases hAt : atKeyword k ts with
  | true =>
    cases ts with
    | nil => cases hAt
    | cons t r =>
      have hKind : t.kind = .keyword k := of_decide_eq_true hAt
      rw [skipped_of_at r hKind] at hRead
      obtain ⟨used, rfl, hOnly, hLine⟩ := hNext true hRead
      refine ⟨t :: used, rfl, List.forall_mem_cons.mpr ⟨hKind ▸ hPass, hOnly⟩, fun tail hTail => ?_⟩
      rw [onLine_cons, List.cons_append, skipped_of_at (t := t.joined) _ hKind]
      exact hLine tail hTail
  | false =>
    rw [skipped_of_not_at hAt] at hRead
    obtain ⟨used, hUsed, hOnly, hLine⟩ := hNext false hRead
    refine ⟨used, hUsed, hOnly, fun tail hTail => ?_⟩
    have hAfter := hLine tail hTail
    rw [skipped_of_not_at (hLead _ _ hAfter)]
    exact hAfter

theorem copies_propertyCore : Copies isSemicolon notSemicolon propertyCore := by
  have hStatic : ∀ ts p, propertyBody false ts = .ok p → atKeyword .kwStatic ts = false := by
    intro ts p hRead
    have hIdent : Meets (· ≠ .keyword .kwStatic) ts := meets_of_kind hRead rfl
    exact decide_eq_false (of_decide_eq_true hIdent)
  have hPublic : ∀ ts p, propertyBody (skipped (.keyword .kwStatic) ts).1
      (skipped (.keyword .kwStatic) ts).2 = .ok p → atKeyword .kwPublic ts = false := by
    intro ts p hRead
    refine Bool.eq_false_iff.mpr fun hAt => ?_
    have hKind : (current ts).kind = .keyword .kwPublic := of_decide_eq_true hAt
    have hNext : atKeyword .kwStatic ts = false := decide_eq_false (by rw [hKind]; decide)
    rw [skipped_of_not_at hNext] at hRead
    have hIdent : Meets (· = .ident) ts := meets_of_kind hRead rfl
    rw [Meets, hKind] at hIdent
    cases hIdent
  exact .skip (fun _ => .skip copies_propertyBody rfl hStatic) rfl hPublic

theorem closes_propertyFrom : Closes isSemicolon propertyFrom := by
  intro ts p rest hRead
  have hIff : ∀ {ts p rest}, propertyFrom ts = .ok (p, rest) ↔
      closedStatement propertyCore ts = .ok (p, rest) :=
    propertyFrom_eq_ok_iff.trans member_eq_ok_property_iff
  obtain ⟨core, ender, hUsed, hOnly, hEnder, hLine⟩ :=
    copies_propertyCore.closedStatement (hIff.mp hRead)
  exact ⟨core, ender, hUsed, hOnly, hEnder, fun t tail ht => hIff.mpr (hLine t tail ht)⟩

/-- The interface field that begins with the first token. -/
def fieldFrom (ts : List Token) : Except Token (FieldDecl × List Token) := do
  let (f, r) ← reading (field "field" ts)
  let (_, r) ← reading (endOfField f.name r)
  return (f, r)

theorem closes_fieldFrom : Closes isFieldEnd fieldFrom := by
  have hSame : fieldFrom = endedBy (fun ts => reading (endOfField [] ts)) fun ts =>
      reading (field "field" ts) := by
    funext ts
    unfold fieldFrom endedBy
    simp only [reading_endOfField]
  rw [hSame]
  refine (copies_field "field").endedBy (finishes_endOfField []) (fun k hk => ?_) fun k hk => ?_
  · simp only [isFieldEnd, Bool.or_eq_true, decide_eq_true_eq] at hk
    rcases hk with rfl | rfl <;> rfl
  · simp only [inField, Bool.and_eq_true, decide_eq_true_eq] at hk
    simp [isFieldEnd, hk.1.1.1, hk.1.1.2]

/-- What stands before the opening brace, and what stands between the braces. -/
def opened {γ : Type} (head : List Token → Except Token (α × List Token))
    (body : List Token → Except Token (β × List Token)) (build : α → β → γ) (ts : List Token) :
    Except Token (γ × List Token) := do
  let (a, r) ← head ts
  let (_, r) ← kind (.punct .lbrace) r
  let (b, r) ← body r
  return (build a b, r)

/-- The parameters and the result of a method. -/
def signature (ts : List Token) :
    Except Token ((List FieldDecl × Option TypeRef) × List Token) := do
  let (_, r) ← kind (.punct .lparen) ts
  let (params, r) ←
    reading (listUntil .rparen "expected ')' after parameter list" (field "parameter") r)
  let (returns, r) ← reading ( typeAnnotation r)
  return ((params, returns), r)

theorem reading_method_eq (name : Token) (ts : List Token) :
    reading (method name ts) =
      opened signature (fun ts => reading (statements "method body" ts))
        (fun head body => MethodDecl.mk name.literal head.1 head.2 body name.pos) ts := by
  simp only [reading_method, reading_block, opened, signature, bind_assoc, pure_bind]

theorem copies_signature : Copies (· = .punct .lbrace) inHead signature := by
  have hResult : Copies (· = .punct .lbrace) inHead fun ts => reading ( typeAnnotation ts) := by
    refine copies_typeAnnotation.mono (fun k hk => ?_) inHead_of_inField
    rw [of_decide_eq_true hk]
    rfl
  refine .kind_bind rfl (fun _ => ?_) fun _ _ _ h => h
  dsimp only
  refine .bind (F := anyKind) (copies_params _) (fun params => ?_) fun _ _ _ _ _ _ => rfl
  exact hResult.map fun returns => (params, returns)

def className (ts : List Token) : Except Token (Text × List Token) := do
  let (name, r) ← kind .ident ts
  return (name.literal, r)

theorem reading_classDecl_cons {t : Token} (isExported isDefault : Bool) (r : List Token)
    (h : t.kind = .keyword .kwClass) :
    reading (classDecl isExported isDefault (t :: r)) =
      opened className (fun ts => reading (members ts)) (fun name ms =>
        ClassDecl.mk name isExported isDefault (ms.filterMap Member.property?)
          (ms.filterMap Member.method?) t.pos) r := by
  rw [reading_classDecl, kind_of_eq r h]
  simp only [opened, className, bind_assoc, pure_bind]
  rfl

theorem copies_className : Copies F inHead className :=
  .kind_bind rfl (fun name => .done name.literal) fun _ _ _ h => h

def interfaceName (ts : List Token) : Except Token ((Text × Option Text) × List Token) := do
  let (name, r) ← kind .ident ts
  let (base, r) ← reading (baseInterface r)
  return ((name.literal, base), r)

theorem reading_interfaceDecl_cons {t : Token} (isExported : Bool) (r : List Token)
    (h : t.kind = .keyword .kwInterface) :
    reading (interfaceDecl isExported (t :: r)) =
      opened interfaceName (fun ts => reading (interfaceFields ts)) (fun head fields =>
        InterfaceDecl.mk head.1 isExported head.2 fields t.pos) r := by
  rw [reading_interfaceDecl, kind_of_eq r h]
  simp only [opened, interfaceName, bind_assoc, pure_bind]
  rfl

theorem copies_interfaceName : Copies (· = .punct .lbrace) inHead interfaceName := by
  have hBase : Copies (· = .punct .lbrace) inHead fun ts => reading (baseInterface ts) := by
    simp only [reading_baseInterface]
    have hName : Copies (· = .punct .lbrace) inHead fun r =>
        kind .ident r >>= fun p => pure (some p.1.literal, p.2) :=
      .kind_bind rfl (fun base => .done (some base.literal)) fun _ _ _ h => h
    exact .optional hName nofun rfl rfl
  refine .kind_bind rfl (fun name => ?_) fun _ _ _ h => h
  exact hBase.map fun base => (name.literal, base)

end AnchorScript.Syntax.Parser
