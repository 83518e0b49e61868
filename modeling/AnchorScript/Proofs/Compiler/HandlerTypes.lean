import AnchorScript.Proofs.Compiler.ContextFields
import AnchorScript.Proofs.Compiler.OwnNames

/-!
# Types of a handler's statements

A variable of a handler has one type for all its uses. Resolution gives every value with a type of
its own that type, but it checks a variable that is bound to bare literals at each use alone. So the
statements of a handler have types, each for itself, exactly where those variables agree with
themselves: `LiteralsAgree`.
-/

namespace AnchorScript

open Outcome

theorem Instruction.param?_of_mem {i : Instruction} (hi : i.DistinctParams) {q : Param}
    (hq : q ∈ i.params) : i.param? q.name = some q := by
  cases hFound : i.param? q.name with
  | none => simpa using List.find?_eq_none.mp hFound q hq
  | some q' =>
    have hName : q'.name = q.name := by simpa using List.find?_some hFound
    rw [List.inj_on_of_nodup_map hi (List.mem_of_find?_eq_some hFound) hq hName]

namespace Handler

/-- With these types of its names each printed statement is well typed. A variable that is bound to
bare literals and used at no type has the type that is taken by default. -/
structure TypedBy (t : Handler) (p : Program) (r : ResolvedInstruction) (τ : Text → Text) :
    Prop where
  args : ∀ a ∈ t.args, τ a.name = a.type
  body : ∀ s ∈ Rust.printed t.body, s.Typed (Frame.typeEnv ⟨p, r⟩ τ) r.source.identifiers
  unused : ∀ x, r.IsLiteral x → (∀ u, ¬r.UsedAt p x u) →
    τ (Rust.ident x) = ResolvedInstruction.defaultInt.name

/-- The handler of an accepted instruction. -/
structure Made (p : Program) (r : ResolvedInstruction) (t : Handler) : Prop where
  states : (p.states.map (·.name)).Nodup
  names : ∀ n ∈ p.declaredNames, IsName n
  declared : r.source ∈ p.instructions
  params : r.source.DistinctParams
  typable : p.Typable r.source
  resolved : Resolution.resolveInstruction p r.source = .ok r
  translated : ofInstruction p r = .ok t

variable {p : Program} {r : ResolvedInstruction} {t : Handler} {τ : Text → Text}

namespace Made

theorem roles (h : Made p r t) : HasRolesOf r.source r.accounts :=
  Resolution.hasRolesOf_of_resolveInstruction h.params h.resolved

theorem declareAll (h : Made p r t) :
    ∃ names, Handler.declareAll ⟨p, r⟩ [] r.source.declarations = .ok names := by
  have hTranslated := h.translated
  simp only [ofInstruction_eq, bind_eq_ok_iff] at hTranslated
  obtain ⟨names, hNames, _⟩ := hTranslated
  exact ⟨names, hNames⟩

theorem sourced (h : Made p r t) : ∀ s ∈ Rust.printed t.body, Sourced p r s :=
  sourced_printed h.declared h.names h.params h.resolved h.translated

theorem exists_printed (h : Made p r t) {st : Statement} (hst : st ∈ r.source.body)
    (hCarried : st.isCarriedOut = true) : ∃ s ∈ Rust.printed t.body, Becomes ⟨p, r⟩ st s :=
  Handler.exists_printed h.params h.resolved h.translated hst hCarried

theorem isValid_of_mem (h : Made p r t) {s : Statement} (hs : s ∈ r.source.body) {v : Value}
    (hv : v ∈ s.values) (pos : SourcePos) (lit : Text) (hLit : Value.int pos lit ∈ v.leaves) :
    IntLiteral.isValid lit = true :=
  h.typable.literals s hs pos lit (List.mem_flatMap.mpr ⟨v, hv, hLit⟩)

theorem fieldType_unique (h : Made p r t) (hFields : p.FieldsApart)
    (account field : Text) (ty : ValueType) (type : Text)
    (hField : p.fieldType? r.source account field = some ty)
    (hType : (Frame.typeEnv ⟨p, r⟩ τ).field (Rust.ident account) (Rust.ident field) type) :
    type = ty.kind.rust := by
  have hAccounts : (r.accounts.map fun a => Rust.ident a.name).Nodup :=
    nodup_spellings h.params h.resolved h.translated fun _ _ hSame => hSame
  exact AnchorScript.fieldType_unique h.roles hAccounts h.states hFields hField hType

end Made

namespace TypedBy

theorem arg (h : Made p r t) (hτ : t.TypedBy p r τ) {x : Text} {ty : ValueType}
    (hArg : r.source.argType? x = some ty) : τ (Rust.ident x) = ty.kind.rust := by
  obtain ⟨q, hq, hValue⟩ := Option.bind_eq_some_iff.mp hArg
  have hName : q.name = x := by simpa using List.find?_some hq
  have hType : q.type = .value ty := DataType.eq_value_of_value? hValue
  have hMem : ⟨Rust.ident q.name, rustType q.type⟩ ∈ t.args := by
    rw [(heading_of_ofInstruction h.translated).2.2]
    refine List.mem_map.mpr ⟨q, List.mem_filter.mpr ⟨List.mem_of_find?_eq_some hq, ?_⟩, rfl⟩
    rw [hType]
    rfl
  have hArgType := hτ.args _ hMem
  rw [hName, hType] at hArgType
  exact hArgType

theorem bound (h : Made p r t) (hτ : t.TypedBy p r τ) {pos : SourcePos} {l : LocalBinding}
    (hl : .bind pos l ∈ r.source.body) :
    ∃ e, Expresses ⟨p, r⟩ l.value e ∧
      e.HasType (Frame.typeEnv ⟨p, r⟩ τ) (τ (Rust.ident l.name)) ∧
      ∀ d, l.declared = some d → τ (Rust.ident l.name) = rustType d := by
  obtain ⟨s, hs, hBecomes⟩ := h.exists_printed hl rfl
  cases hBecomes with
  | bind hExpr =>
    obtain ⟨type, hValue, hDeclared, hVar⟩ := hτ.body _ hs
    obtain rfl : τ (Rust.ident l.name) = type :=
      Option.some.inj (hVar (Instruction.mem_identifiers_of_bind hl))
    exact ⟨_, hExpr, hValue, fun d hd => hDeclared _ (congrArg (Option.map rustType) hd)⟩

/-- Variables with a type of their own have it in the handler too, by induction on the body. -/
theorem var (h : Made p r t) (hτ : t.TypedBy p r τ) (hFields : p.FieldsApart)
    {x : Text} {ty : ValueType} (hVar : r.locals.lookup x = some ty) (hTyped : ty ≠ .intLiteral) :
    τ (Rust.ident x) = ty.kind.rust := by
  obtain ⟨last, hRun, hFinish⟩ := Resolution.run_of_resolveInstruction h.resolved
  have hLast : last.locals = r.locals := congrArg ResolvedInstruction.locals hFinish
  have hAll := hRun.induction
    (P := fun _ sc => HasRolesOf r.source sc.accounts ∧ ∀ x ty, sc.locals.lookup x = some ty →
      ty ≠ .intLiteral → τ (Rust.ident x) = ty.kind.rust)
    ⟨.initial h.params, fun x ty hNone => by cases hNone⟩ ?_
  · exact hAll.2 x ty (hLast ▸ hVar) hTyped
  · rintro before s after index sc sc' hBody ⟨hRoles, hVars⟩ hStep
    obtain ⟨e, hAccounts, _⟩ := hStep.exists_effect
    refine ⟨hAccounts ▸ hRoles.map e.preserving_apply, ?_⟩
    cases hStep with
    | @bind pos l found ty constants hFound hType =>
      have hs : .bind pos l ∈ r.source.body := by
        rw [hBody]
        exact List.mem_append_right before List.mem_cons_self
      intro x ty' hLookup hTyped
      by_cases hName : x = l.name
      · subst hName
        obtain rfl : ty = ty' := by simpa using hLookup
        obtain ⟨e, hExpr, hValue, hDeclared⟩ := hτ.bound h hs
        rcases hType with ⟨_, rfl⟩ | ⟨d, hSome, _, rfl⟩
        · exact hExpr.type_eq_of_types (Scope.types_of_typeOf hRoles hFound) hTyped
            (fun x ty hArg => hτ.arg h hArg) hVars (h.fieldType_unique hFields) hValue
        · exact hDeclared _ hSome
      · refine hVars x ty' ?_ hTyped
        simpa [List.lookup_cons, beq_false_of_ne hName] using hLookup
    | _ => exact hVars

/-- What a statement uses at an integer type has that type. -/
theorem hasType_of_intUse? (h : Made p r t) (hτ : t.TypedBy p r τ) (hFields : p.FieldsApart)
    {s : Statement} {v : Value} {u : IntType} (hs : s ∈ r.source.body)
    (hUse : r.intUse? p s = some (v, u)) :
    ∃ e, Expresses ⟨p, r⟩ v e ∧ e.HasType (Frame.typeEnv ⟨p, r⟩ τ) u.name := by
  cases s with
  | assign pos a =>
    obtain ⟨u', hInt, hPair⟩ := Option.map_eq_some_iff.mp hUse
    cases hPair
    obtain ⟨ty, hField, hInt⟩ := Option.bind_eq_some_iff.mp hInt
    obtain ⟨w, hw, hBecomes⟩ := h.exists_printed hs rfl
    cases hBecomes with
    | write hExpr =>
      obtain ⟨type, hPlace, hValue⟩ := hτ.body _ hw
      refine ⟨_, hExpr, ?_⟩
      rw [h.fieldType_unique hFields _ _ _ _ hField hPlace.of_contextField,
        (ValueType.int?_eq_some_iff.mp hInt).1] at hValue
      exact hValue
  | call pos c =>
    cases hUse
    obtain ⟨w, hw, hBecomes⟩ := h.exists_printed hs rfl
    cases hBecomes with
    | call hExpr =>
      have hName : Text.ofString "u64" = (IntType.mk .w64 false).name := by decide +kernel
      have hAmount := hτ.body _ hw
      exact ⟨_, hExpr, hName ▸ hAmount⟩
  | bind pos l =>
    obtain ⟨u', hInt, hPair⟩ := Option.map_eq_some_iff.mp hUse
    cases hPair
    obtain ⟨ty, hVar, hInt⟩ := Option.bind_eq_some_iff.mp hInt
    obtain ⟨hKind, hTyped⟩ := ValueType.int?_eq_some_iff.mp hInt
    obtain ⟨e, hExpr, hValue, _⟩ := hτ.bound h hs
    rw [hτ.var h hFields hVar hTyped, hKind] at hValue
    exact ⟨e, hExpr, hValue⟩
  | derive | close => cases hUse

theorem type_of_usedAt (h : Made p r t) (hτ : t.TypedBy p r τ) (hFields : p.FieldsApart)
    {x : Text} {u : IntType} (hUsed : r.UsedAt p x u) : τ (Rust.ident x) = u.name := by
  induction hUsed with
  | use hs hUse hx =>
    obtain ⟨e, hExpr, hType⟩ := hτ.hasType_of_intUse? h hFields hs hUse
    exact (hExpr.type_eq_of_mem_vars hx hType).symm
  | operand hl _ hx _ ih =>
    obtain ⟨e, hExpr, hType, _⟩ := hτ.bound h hl
    exact (hExpr.type_eq_of_mem_vars hx hType).symm.trans ih
  | result hl _ hx _ ih =>
    obtain ⟨e, hExpr, hType, _⟩ := hτ.bound h hl
    exact (hExpr.type_eq_of_mem_vars hx hType).trans ih

theorem literalsAgree (h : Made p r t) (hτ : t.TypedBy p r τ) (hFields : p.FieldsApart) :
    r.LiteralsAgree p := by
  constructor
  · intro x u u' _ hu hu'
    refine IntType.name_injective ?_
    rw [← hτ.type_of_usedAt h hFields hu, hτ.type_of_usedAt h hFields hu']
  · intro pos l u hl hLiteral hTakes
    have hName : τ (Rust.ident l.name) = u.name := by
      rcases hTakes with hUsed | ⟨hNone, rfl⟩
      · exact hτ.type_of_usedAt h hFields hUsed
      · exact hτ.unused l.name hLiteral hNone
    obtain ⟨e, hExpr, hType, _⟩ := hτ.bound h hl
    rw [hName] at hType
    exact hExpr.computesIn_of_hasType (h.isValid_of_mem hl List.mem_cons_self) hType

end TypedBy

theorem Made.mem_varNames (h : Made p r t) {x : Text} {ty : ValueType}
    (hVar : r.locals.lookup x = some ty) : x ∈ r.source.varNames := by
  obtain ⟨front, back, hLocals, _⟩ := List.lookup_eq_some_iff.mp hVar
  exact Resolution.mem_varNames h.resolved (l := (x, ty)) (by simp [hLocals])

theorem exists_nameType (h : Made p r t) (x : Text) : ∃ type, NameType p r x type := by
  cases hVar : r.locals.lookup x with
  | none =>
    cases hArg : r.source.argType? x with
    | none =>
      exact ⟨[], by simp [hArg], by simp [hVar], by simp [ResolvedInstruction.IsLiteral, hVar]⟩
    | some ty =>
      exact ⟨ty.kind.rust, by simp [hArg], by simp [hVar],
        by simp [ResolvedInstruction.IsLiteral, hVar]⟩
  | some ty =>
    have hNone : r.source.argType? x = none := by
      rw [Instruction.argType?, h.typable.fresh x (h.mem_varNames hVar)]
      rfl
    by_cases hLiteral : ty = .intLiteral
    · obtain ⟨u, hTakes⟩ := r.exists_takes p x
      exact ⟨u.name, by simp [hNone], by simp [hVar, hLiteral], fun _ => ⟨u, hTakes, rfl⟩⟩
    · exact ⟨ty.kind.rust, by simp [hNone], by simp [hVar],
        by simp [ResolvedInstruction.IsLiteral, hVar, hLiteral]⟩

theorem exists_typesNames (h : Made p r t) : ∃ τ, TypesNames p r τ := by
  choose type hType using exists_nameType h
  obtain ⟨names, hNames⟩ := h.declareAll
  refine ⟨fun id => type ((names.lookup id).getD []), fun x => ?_⟩
  have hFound {pos : SourcePos} (hx : (x, pos) ∈ r.source.declarations) :
      type ((names.lookup (Rust.ident x)).getD []) = type x := by
    rw [((lookup_of_declareAll hNames).1 _ hx).2, Option.getD_some]
  have hFoundVar {ty : ValueType} (hVar : r.locals.lookup x = some ty) :
      type ((names.lookup (Rust.ident x)).getD []) = type x := by
    obtain ⟨⟨_, pos⟩, hMem, rfl⟩ := List.mem_map.mp (h.mem_varNames hVar)
    exact hFound (List.mem_append_right _ hMem)
  constructor
  · intro ty hArg
    obtain ⟨q, hq, _⟩ := Option.bind_eq_some_iff.mp hArg
    obtain rfl : q.name = x := by simpa using List.find?_some hq
    have hMem := Instruction.mem_declarations_of_param (List.mem_of_find?_eq_some hq)
    exact (hFound hMem).trans ((hType _).arg ty hArg)
  · intro ty hVar hTyped
    exact (hFoundVar hVar).trans ((hType x).var ty hVar hTyped)
  · intro hLiteral
    obtain ⟨u, hTakes, hName⟩ := (hType x).literal hLiteral
    exact ⟨u, hTakes, (hFoundVar hLiteral).trans hName⟩

section OfAgree

variable (h : Made p r t) (hAgree : r.LiteralsAgree p) (hNames : TypesNames p r τ)

include hAgree hNames

theorem type_of_takes {x : Text} {u : IntType} (hLiteral : r.IsLiteral x) (hTakes : r.Takes p x u) :
    τ (Rust.ident x) = u.name := by
  obtain ⟨u', hTakes', hType⟩ := (hNames x).literal hLiteral
  rw [hType, hAgree.takes_unique hLiteral hTakes' hTakes]

include h

theorem typed_write {pos : SourcePos} {a : Assign} {value : Rust.Expr}
    (hs : .assign pos a ∈ r.source.body) (hExpr : Expresses ⟨p, r⟩ a.value value) :
    ∃ type, (Rust.Expr.contextField (Rust.ident a.account) (Rust.ident a.field)).HasType
      (Frame.typeEnv ⟨p, r⟩ τ) type ∧ value.HasType (Frame.typeEnv ⟨p, r⟩ τ) type := by
  cases Resolution.accepted_of_mem h.params h.typable h.resolved hs with
  | @assign _ _ target source hField hValue hAccepts hComputed =>
    refine ⟨target.kind.rust, .field (hasFieldType_of_fieldType? h.roles hField),
      hasType_of_accepts hNames h.typable h.roles hExpr hValue hAccepts
        (h.isValid_of_mem hs List.mem_cons_self) fun u hKind => ?_⟩
    have hInt := ValueType.int?_eq_some_iff.mpr
      ⟨hKind, h.typable.fields a.account a.field target hField⟩
    refine ⟨hComputed u hInt, fun x hx hLiteral =>
      type_of_takes hAgree hNames hLiteral (.inl (.use hs ?_ hx))⟩
    rw [ResolvedInstruction.intUse?, hField, Option.bind_some, hInt, Option.map_some]

theorem typed_bind {pos : SourcePos} {l : LocalBinding} {value : Rust.Expr}
    (hs : .bind pos l ∈ r.source.body) (hExpr : Expresses ⟨p, r⟩ l.value value) :
    value.HasType (Frame.typeEnv ⟨p, r⟩ τ) (τ (Rust.ident l.name)) ∧
      ∀ type, l.declared.map rustType = some type → τ (Rust.ident l.name) = type := by
  have hLiterals := h.isValid_of_mem hs List.mem_cons_self
  cases Resolution.accepted_of_mem h.params h.typable h.resolved hs with
  | @bind _ _ found ty hValue hLocal hAccepts hDeclared hLiteral hComputed =>
    by_cases hOpen : ty = .intLiteral
    · subst hOpen
      obtain rfl := hLiteral rfl
      obtain ⟨u, hTakes, hType⟩ := (hNames l.name).literal hLocal
      constructor
      · rw [hType]
        have hComputed := hAgree.computed pos l u hs hLocal hTakes
        refine hasType_of_computesIn hNames h.typable h.roles hExpr hValue rfl
          (fun hTyped => absurd rfl hTyped) hComputed hLiterals ?_
        intro x hx hLiteral
        exact type_of_takes hAgree hNames hLiteral
          (ResolvedInstruction.takes_operand hs hLocal hx hTakes)
      · intro type hSome
        obtain ⟨d, hd, rfl⟩ := Option.map_eq_some_iff.mp hSome
        exact absurd rfl (h.typable.declared pos l hs _ (hDeclared d hd ▸ hd))
    · have hType := (hNames l.name).var ty hLocal hOpen
      rw [hType]
      constructor
      · refine hasType_of_accepts hNames h.typable h.roles hExpr hValue hAccepts hLiterals
          fun u hKind => ?_
        have hInt := ValueType.int?_eq_some_iff.mpr ⟨hKind, hOpen⟩
        refine ⟨hComputed u hInt, fun x hx hLiteral =>
          type_of_takes hAgree hNames hLiteral (.inl (.use hs ?_ hx))⟩
        rw [ResolvedInstruction.intUse?, hLocal, Option.bind_some, hInt, Option.map_some]
      · intro type hSome
        obtain ⟨d, hd, rfl⟩ := Option.map_eq_some_iff.mp hSome
        rw [hDeclared d hd]
        rfl

theorem typed_call {pos : SourcePos} {c : CrossProgramCall} {amount : Rust.Expr}
    (hs : .call pos c ∈ r.source.body) (hExpr : Expresses ⟨p, r⟩ c.amount amount) :
    amount.HasType (Frame.typeEnv ⟨p, r⟩ τ) (Text.ofString "u64") := by
  cases Resolution.accepted_of_mem h.params h.typable h.resolved hs with
  | call hAmount hAccepts hComputed =>
    have hName : Text.ofString "u64" = ValueType.u64.kind.rust := by decide +kernel
    rw [hName]
    refine hasType_of_accepts hNames h.typable h.roles hExpr hAmount hAccepts
      (h.isValid_of_mem hs List.mem_cons_self) fun u hKind => ?_
    cases hKind
    exact ⟨hComputed, fun x hx hLiteral =>
      type_of_takes hAgree hNames hLiteral (.inl (.use hs rfl hx))⟩

omit hAgree in
theorem typed_buffer {u : IntType} {source : Rust.Expr} (hSource : ReadsInteger p r.source u source) :
    source.HasType (Frame.typeEnv ⟨p, r⟩ τ) u.name := by
  cases hSource with
  | @argument name ty _ hType hKind =>
    have hArg := (hNames name).arg ty hType
    rw [hKind] at hArg
    exact .var (congrArg some hArg)
  | field hType hKind =>
    have hField := hasFieldType_of_fieldType? h.roles hType
    rw [hKind] at hField
    exact .field hField

theorem typedBy_of_literalsAgree : t.TypedBy p r τ := by
  constructor
  · intro a ha
    rw [(heading_of_ofInstruction h.translated).2.2] at ha
    obtain ⟨q, hq, rfl⟩ := List.mem_map.mp ha
    obtain ⟨hParam, hValue⟩ := List.mem_filter.mp hq
    cases hType : q.type with
    | account => simp [hType, DataType.isAccount] at hValue
    | value ty =>
      refine (hNames q.name).arg ty ?_
      rw [Instruction.argType?, Instruction.param?_of_mem h.params hParam, Option.bind_some, hType]
      rfl
  · intro s hs
    cases h.sourced s hs with
    | body hMem hBecomes =>
      cases hBecomes with
      | write hExpr => exact typed_write h hAgree hNames hMem hExpr
      | bind hExpr =>
        obtain ⟨hValue, hDeclared⟩ := typed_bind h hAgree hNames hMem hExpr
        exact ⟨_, hValue, hDeclared, fun _ => rfl⟩
      | call hExpr => exact typed_call h hAgree hNames hMem hExpr
    | buffer hName hSource =>
      refine ⟨_, .bytes (typed_buffer h hNames hSource), ?_, fun hOwn => absurd hOwn hName⟩
      rintro _ ⟨⟩
    | handle hHandle hBound =>
      cases s with
      | assign | invoke => cases hBound
      | bind => cases hHandle
      | record | seeds | context => trivial
  · intro x hLiteral hNone
    exact type_of_takes hAgree hNames hLiteral (.inr ⟨hNone, rfl⟩)

end OfAgree

end Handler

end AnchorScript
