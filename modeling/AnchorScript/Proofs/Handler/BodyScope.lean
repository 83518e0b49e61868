import AnchorScript.Proofs.Handler.Totality
import AnchorScript.Proofs.Rust.Scoping

/-!
# The body of a handler is in scope

Accounts, fields and bumps that a translated body names are declared by the context struct of its
instruction, and its variables are arguments or bound before. The buffers of signer seeds and the
parts of a call are bound under names of their own, which never hide the context.
-/

namespace AnchorScript

open Outcome

section Context

variable {p : Program} {i : Instruction} {r : ResolvedInstruction} {a : AccountRef}

theorem hasAccount_of_mem (ha : a ∈ r.accounts) :
    (Rust.ContextStruct.ofInstruction r).HasAccount (Rust.ident a.name) :=
  ⟨.ofAccount a, List.mem_append_left _ (List.mem_map_of_mem ha), rfl⟩

theorem hasAccount_of_account? {name : Text} (h : r.account? name = some a) :
    (Rust.ContextStruct.ofInstruction r).HasAccount (Rust.ident name) := by
  rw [← name_of_recordOf?_eq_some h]
  exact hasAccount_of_mem (mem_of_recordOf?_eq_some h)

theorem hasAccount_of_program {q : ProgramAccount} (hq : q ∈ r.programs) :
    (Rust.ContextStruct.ofInstruction r).HasAccount q.name :=
  ⟨.ofProgram q, List.mem_append_right _ (List.mem_map_of_mem hq), rfl⟩

theorem hasField_of_stateOf? {account field : Text} {st : StateType} {f : StateField}
    (ha : r.account? account = some a) (hState : Surroundings.stateOf? ⟨p, i⟩ a = some st)
    (hField : st.field? field = some f) :
    (Rust.ContextStruct.ofInstruction r).HasField (p.states.map .ofState) (Rust.ident account)
      (Rust.ident field) := by
  unfold Surroundings.stateOf? at hState
  split at hState
  · rename_i n hRole
    have hName : st.name = n := by simpa using List.find?_some hState
    have hFieldName : f.name = field := by simpa using List.find?_some hField
    refine ⟨.ofAccount a, List.mem_append_left _ (List.mem_map_of_mem (mem_of_recordOf?_eq_some ha)),
      .ofState st, List.mem_map_of_mem (List.mem_of_find?_eq_some hState), ?_, ?_,
      ⟨Rust.ident f.name, f.type.kind.rust⟩,
      List.mem_map.mpr ⟨f, List.mem_of_find?_eq_some hField, rfl⟩, congrArg Rust.ident hFieldName⟩
    · exact congrArg Rust.ident (name_of_recordOf?_eq_some ha)
    · change a.role.rust = (Role.state st.name).rust
      rw [hRole, hName]
  · cases hState

theorem hasField_of_fieldType? {account field : Text} {t : ValueType}
    (hRoles : HasRolesOf i r.accounts) (h : p.fieldType? i account field = some t) :
    (Rust.ContextStruct.ofInstruction r).HasField (p.states.map .ofState) (Rust.ident account)
      (Rust.ident field) := by
  rw [hRoles.fieldType?_eq] at h
  obtain ⟨f, h, _⟩ := Option.map_eq_some_iff.mp h
  obtain ⟨a, ha, h⟩ := Option.bind_eq_some_iff.mp h
  obtain ⟨st, hState, hField⟩ := Option.bind_eq_some_iff.mp h
  exact hasField_of_stateOf? ha hState hField

theorem hasAccount_of_accountRole? {account : Text} (hRoles : HasRolesOf i r.accounts)
    (h : (i.accountRole? account).isSome = true) :
    (Rust.ContextStruct.ofInstruction r).HasAccount (Rust.ident account) := by
  rw [← hRoles account, Option.isSome_map] at h
  obtain ⟨a, ha⟩ := Option.isSome_iff_exists.mp h
  exact hasAccount_of_account? ha

theorem hasBump_of_isProgramDerived {account : Text} (ha : r.account? account = some a)
    (hDerived : a.isProgramDerived = true) :
    (Rust.ContextStruct.ofInstruction r).HasBump (Rust.ident account) := by
  have hAddress : (∃ es, .seeds es ∈ Rust.Constraint.ofAddress a.address) ∧
      ∃ stored, .bump stored ∈ Rust.Constraint.ofAddress a.address := by
    rw [AccountRef.isProgramDerived] at hDerived
    cases hSource : a.address with
    | found ss =>
      exact ⟨⟨_, List.mem_cons_self⟩, _, List.mem_cons_of_mem _ List.mem_cons_self⟩
    | stored ss ref =>
      exact ⟨⟨_, List.mem_cons_self⟩, _, List.mem_cons_of_mem _ List.mem_cons_self⟩
    | given | associated =>
      rw [hSource] at hDerived
      cases hDerived
  have hWritten : Rust.Constraint.ofAddress a.address ⊆ Rust.Constraint.ofAccount a := by
    intro k hk
    simp only [Rust.Constraint.ofAccount, List.mem_append]
    exact .inl (.inl (.inr hk))
  obtain ⟨⟨es, hSeeds⟩, stored, hBump⟩ := hAddress
  exact ⟨.ofAccount a, List.mem_append_left _ (List.mem_map_of_mem (mem_of_recordOf?_eq_some ha)),
    congrArg Rust.ident (name_of_recordOf?_eq_some ha), ⟨es, hWritten hSeeds⟩, stored,
    hWritten hBump⟩

end Context

namespace Handler

/-- The expression is in scope in the handler of the instruction, where these variables are
bound. -/
def InScope (fr : Frame) (vars : List Text) (e : Rust.Expr) : Prop :=
  e.InScope (fr.program.states.map .ofState) (.ofInstruction fr.instruction) vars

/-- The statements are in scope in the handler of the instruction. -/
def Scoped (fr : Frame) (vars : List Text) (body : List Rust.Stmt) : Prop :=
  Rust.Scoped (fr.program.states.map .ofState) (.ofInstruction fr.instruction) vars body

variable {fr : Frame} {vars bound : List Text}

theorem inScope_var {name : Text} (h : name ∈ vars) : InScope fr vars (.var name) :=
  List.forall_mem_singleton.mpr (.var h)

theorem inScope_contextAccount {id : Text}
    (h : (Rust.ContextStruct.ofInstruction fr.instruction).HasAccount id) :
    InScope fr vars (.contextAccount id) :=
  List.forall_mem_singleton.mpr (.account h)

theorem inScope_contextField {account field : Text}
    (h : (Rust.ContextStruct.ofInstruction fr.instruction).HasField
      (fr.program.states.map .ofState) account field) :
    InScope fr vars (.contextField account field) :=
  List.forall_mem_singleton.mpr (.field h)

theorem inScope_contextBump {account : Text}
    (h : (Rust.ContextStruct.ofInstruction fr.instruction).HasBump account) :
    InScope fr vars (.contextBump account) :=
  List.forall_mem_singleton.mpr (.bump h)

/-- Reading a place as an owned value or as bytes reads nothing else. -/
theorem InScope.owned {e : Rust.Expr} (h : InScope fr vars e) (k : ValueKind) :
    InScope fr vars (e.owned k) := by
  rw [InScope, Rust.Expr.InScope, Rust.Expr.paths_owned]
  exact h

theorem InScope.bytesOf {e : Rust.Expr} (h : InScope fr vars e) (k : ValueKind) :
    InScope fr vars (Rust.Constraint.bytesOf e k) := by
  rw [InScope, Rust.Expr.InScope, Rust.Expr.paths_bytesOf]
  exact h

theorem fieldExpr_inScope {pos : SourcePos} {account field : Text} {x : Rust.Expr}
    (h : fieldExpr fr pos account field = .ok x) : InScope fr vars x := by
  simp only [fieldExpr] at h
  split at h
  · cases h
  · rename_i st hState
    split at h
    · cases h
    · rename_i f hField
      cases h
      split at hState
      · rename_i a ha
        exact (inScope_contextField (hasField_of_stateOf? ha hState hField)).owned _
      · cases hState

/-- A translated value is in scope where its arguments and the variables before it are bound. -/
theorem exprOf_inScope {v : Value} {x : Rust.Expr} (hBound : ∀ name ∈ bound, Rust.ident name ∈ vars)
    (hArgs : ∀ pos name asBytes, Value.arg pos name asBytes ∈ v.leaves → Rust.ident name ∈ vars)
    (h : exprOf fr bound v = .ok x) : InScope fr vars x := by
  induction v generalizing x with
  | int | bool | string =>
    cases h
    intro path hPath
    cases hPath
  | arg pos name asBytes =>
    have hName := hArgs pos name asBytes List.mem_cons_self
    simp only [exprOf] at h
    split at h <;> cases h
    · exact (inScope_var hName).owned _
    · exact inScope_var hName
  | var pos name asBytes =>
    simp only [exprOf, allowed_or_eq_ok_iff] at h
    obtain ⟨hName, h⟩ := h
    have hName : Rust.ident name ∈ vars := hBound name (by simpa using hName)
    split at h <;> cases h
    · exact (inScope_var hName).owned _
    · exact inScope_var hName
  | account => cases h
  | key pos account asBytes =>
    simp only [exprOf] at h
    split at h
    · rename_i a ha
      cases h
      exact inScope_contextAccount (hasAccount_of_account? ha)
    · cases h
  | field pos account field asBytes => exact fieldExpr_inScope h
  | bump pos account =>
    simp only [exprOf, allowed_or_eq_ok_iff, Option.any_eq_true] at h
    obtain ⟨⟨a, ha, hDerived⟩, h⟩ := h
    cases h
    exact inScope_contextBump (hasBump_of_isProgramDerived ha hDerived)
  | binary pos op l r ihLeft ihRight =>
    simp only [exprOf, bind_eq_ok_iff, pure_eq_ok_iff] at h
    obtain ⟨y, hLeft, z, hRight, rfl⟩ := h
    refine List.forall_mem_append.mpr ⟨ihLeft ?_ hLeft, ihRight ?_ hRight⟩
    · exact fun pos name asBytes hArg => hArgs pos name asBytes (List.mem_append_left _ hArg)
    · exact fun pos name asBytes hArg => hArgs pos name asBytes (List.mem_append_right _ hArg)
  | neg pos v ih =>
    simp only [exprOf, bind_eq_ok_iff, pure_eq_ok_iff] at h
    obtain ⟨y, hInner, rfl⟩ := h
    have hScope : InScope fr vars y := ih hArgs hInner
    exact hScope
  | paren pos v ih =>
    simp only [exprOf, bind_eq_ok_iff, pure_eq_ok_iff] at h
    obtain ⟨y, hInner, rfl⟩ := h
    have hScope : InScope fr vars y := ih hArgs hInner
    exact hScope

theorem seedRead_inScope_of_isSeed {v : Value} {s : SeedSource}
    (hRoles : HasRolesOf fr.instruction.source fr.instruction.accounts)
    (hArgs : ∀ name t, fr.instruction.source.argType? name = some t → Rust.ident name ∈ vars)
    (h : IsSeed fr.program fr.instruction.source v s) : InScope fr vars (seedRead s) := by
  cases h with
  | literal =>
    intro path hPath
    cases hPath
  | key hAccount => exact inScope_contextAccount (hasAccount_of_accountRole? hRoles hAccount)
  | field hType => exact (inScope_contextField (hasField_of_fieldType? hRoles hType)).bytesOf _
  | argument hType => exact (inScope_var (hArgs _ _ hType)).bytesOf _

theorem seedRead_inScope_of_isBump {sc : Scope} {locals : List (Text × ValueType)} {v : Value}
    {b : BumpSource} (hRoles : HasRolesOf fr.instruction.source fr.instruction.accounts)
    (hKept : sc.KeptIn fr.instruction)
    (hLocals : ∀ name t, sc.varType? name = some t → Rust.ident name ∈ vars)
    (hReadable : sc.Readable ⟨fr.program, fr.instruction.source⟩ v)
    (h : IsBump fr.program fr.instruction.source locals v b) :
    InScope fr vars (seedRead (.bump b)) := by
  cases h with
  | stored hType => exact inScope_contextField (hasField_of_fieldType? hRoles hType)
  | @computed pos account =>
    cases hReadable with
    | bump hRef hDerived =>
      obtain ⟨a, ha, _, hKeepsDerived⟩ := hKept account _ hRef
      exact inScope_contextBump (hasBump_of_isProgramDerived ha (hKeepsDerived hDerived))
  | ofVar =>
    cases hReadable with
    | var hType => exact inScope_var (hLocals _ _ hType)

/-- Buffers are bound one after the other, each where its seed would be in scope. What follows them
is in scope where the seeds are. -/
theorem scoped_signerSeedList {used : List Text} {ss : List Seed} {rest : List Rust.Stmt}
    (hSeeds : ∀ s ∈ ss, InScope fr vars (seedRead s.source))
    (hRest : ∀ vars', vars ⊆ vars' → (∀ e ∈ (signerSeedList used ss).2, InScope fr vars' e) →
      Scoped fr vars' rest) :
    Scoped fr vars (((signerSeedList used ss).1.map fun b => .bind b.name false none b.value) ++
      rest) := by
  induction ss generalizing used vars with
  | nil => exact hRest vars (List.Subset.refl _) (by simp [signerSeedList])
  | cons s ss ih =>
    obtain ⟨hHere, hLater⟩ := List.forall_mem_cons.mp hSeeds
    rcases signerSeed_cases used s.source with hPlain | ⟨name, source, _, hNot, hRead, hBuffer⟩
    · simp only [signerSeedList, hPlain, Option.toList_none, List.map_nil, List.nil_append]
        at hRest ⊢
      refine ih hLater fun vars' hVars hes => hRest vars' hVars ?_
      exact List.forall_mem_cons.mpr ⟨hHere.mono hVars, hes⟩
    · simp only [signerSeedList, hBuffer, Option.toList_some, List.map_cons, List.map_nil,
        List.cons_append] at hRest ⊢
      rw [hRead] at hHere
      refine .cons (List.forall_mem_singleton.mpr hHere) ?_ (ih ?_ ?_)
      · rintro bound hBound
        cases hBound
        exact hNot
      · exact fun s hs => (hLater s hs).mono (List.subset_cons_self name vars)
      · intro vars' hVars hes
        obtain ⟨hName, hVars⟩ := List.cons_subset.mp hVars
        exact hRest vars' hVars (List.forall_mem_cons.mpr ⟨inScope_var hName, hes⟩)

theorem mem_participants_of_fields {action : CallAction} :
    ∀ f ∈ action.fields, f.2 ∈ action.participants := by
  cases action <;> simp [CallAction.fields, CallAction.participants]

/-- The last two statements of a call are in scope once the parts of its context are bound. -/
theorem scoped_callContext {program amount : Rust.Expr} {accounts context function : Text}
    {signer : Option Text} (hProgram : InScope fr vars program) (hAmount : InScope fr vars amount)
    (hAccounts : accounts ∈ vars) (hContext : Rust.bare context ≠ contextParam)
    (hSigner : ∀ name, signer = some name → name ∈ vars) :
    Scoped fr vars
      [.context context program accounts signer, .invoke function context amount] := by
  refine .cons ?_ ?_ (.cons ?_ ?_ .nil)
  · refine List.forall_mem_cons.mpr ⟨hProgram,
      List.forall_mem_cons.mpr ⟨inScope_var hAccounts, ?_⟩⟩
    intro e he
    obtain ⟨name, hName, rfl⟩ := Option.map_eq_some_iff.mp (Option.mem_toList.mp he)
    exact inScope_var (hSigner name hName)
  · rintro name hName
    cases hName
    exact hContext
  · exact List.forall_mem_cons.mpr ⟨inScope_var List.mem_cons_self,
      List.forall_mem_singleton.mpr (hAmount.mono (List.subset_cons_self _ _))⟩
  · intro name hName
    cases hName

/-- A call is in scope where its accounts, its program, its amount and its seeds are. -/
theorem scoped_invocation {names : Names} {generated : List Text} {index : Nat}
    {c : CrossProgramCall} {inv : Invocation}
    (h : invocation fr names generated bound index c = .ok inv)
    (hAccounts : ∀ name ∈ c.action.participants,
      (Rust.ContextStruct.ofInstruction fr.instruction).HasAccount (Rust.ident name))
    (hProgram : InScope fr vars (calledProgram fr.instruction c.action))
    (hAmount : ∀ x, exprOf fr bound c.amount = .ok x → InScope fr vars x)
    (hSeeds : c.signerSeeds.isSome = true →
      ∀ s ∈ (fr.instruction.seedsAt? index).getD [], InScope fr vars (seedRead s.source)) :
    Scoped fr vars (Rust.invocationStmts inv) := by
  simp only [invocation, bind_eq_ok_iff, pure_eq_ok_iff] at h
  obtain ⟨amount, hExpr, rfl⟩ := h
  have hAmount := hAmount amount hExpr
  refine .cons ?_ ?_ ?_
  · intro e he
    obtain ⟨f, hf, rfl⟩ := List.mem_map.mp he
    obtain ⟨q, hq, rfl⟩ := List.mem_map.mp hf
    exact inScope_contextAccount (hAccounts q.2 (mem_participants_of_fields q hq))
  · rintro name hName
    cases hName
    refine bare_avoid_ne_contextParam _ ?_
    have hLonger : 5 < (Text.ofString "_accounts").length := by decide
    rw [List.length_append]
    omega
  · cases hSigned : c.signerSeeds with
    | none =>
      have hVars := List.subset_cons_self
        (FreshName.avoid (names.map Prod.fst) (c.action.baseName ++ "_accounts")) vars
      refine scoped_callContext (hProgram.mono hVars) (hAmount.mono hVars) List.mem_cons_self
        (bare_avoid_ne_contextParam _ (by decide)) ?_
      intro name hName
      cases hName
    | some vs =>
      simp only [Option.map_some, Option.getD_some, Rust.signerStmts, List.append_assoc]
      refine scoped_signerSeedList ?_ ?_
      · intro s hs
        exact (hSeeds (by rw [hSigned]; rfl) s hs).mono (List.subset_cons_self _ _)
      · intro vars' hVars hes
        obtain ⟨hRecord, hVars⟩ := List.cons_subset.mp hVars
        have hVars := List.subset_cons_of_subset
          (FreshName.avoid (names.map Prod.fst) "signer_seeds") hVars
        refine .cons hes ?_ (scoped_callContext (hProgram.mono hVars) (hAmount.mono hVars)
          (List.mem_cons_of_mem _ hRecord) (bare_avoid_ne_contextParam _ (by decide)) ?_)
        · rintro name hName
          cases hName
          exact bare_avoid_ne_contextParam _ (by decide)
        · rintro name hName
          cases hName
          exact List.mem_cons_self

section Body

variable {p : Program} {r : ResolvedInstruction} {before after : List Statement} {s : Statement}

theorem exprOf_inScope_of_mem (h : Resolution.resolveInstruction p r.source = .ok r)
    (hBody : r.source.body = before ++ s :: after)
    (hArgs : ∀ name t, r.source.argType? name = some t → Rust.ident name ∈ vars)
    (hVars : ∀ name ∈ bound, Rust.ident name ∈ vars) {v : Value} (hv : v ∈ s.values)
    {x : Rust.Expr} (hExpr : exprOf ⟨p, r⟩ bound v = .ok x) : InScope ⟨p, r⟩ vars x := by
  obtain ⟨sc, _, hStep, _⟩ := Resolution.exists_established_step h hBody
  refine exprOf_inScope hVars ?_ hExpr
  intro pos name asBytes hArg
  cases hStep.readable _ (List.mem_flatMap.mpr ⟨v, hv, hArg⟩) with
  | arg hType => exact hArgs name _ hType

theorem assignedField_inScope (h : Resolution.resolveInstruction p r.source = .ok r)
    {pos : SourcePos} {a : Assign} (hBody : r.source.body = before ++ .assign pos a :: after) :
    InScope ⟨p, r⟩ vars (.contextField (Rust.ident a.account) (Rust.ident a.field)) := by
  obtain ⟨sc, _, hStep, hKept, _⟩ := Resolution.exists_established_step h hBody
  cases hStep with
  | assign hTarget =>
    obtain ⟨b, st, hb, hStateOf, hField⟩ := hKept.exists_field (Scope.field?_of_stateField hTarget)
    exact inScope_contextField (hasField_of_stateOf? hb hStateOf hField)

theorem calledProgram_inScope (h : Resolution.resolveInstruction p r.source = .ok r)
    {pos : SourcePos} {c : CrossProgramCall} (hs : Statement.call pos c ∈ r.source.body) :
    InScope ⟨p, r⟩ vars (calledProgram r c.action) := by
  have hIdent (q : ProgramAccount) : Rust.ident q.name = q.name := by
    cases q <;> decide +kernel
  obtain ⟨sc, _, hFinish⟩ := Resolution.run_of_resolveInstruction h
  rw [calledProgram]
  split
  · rename_i hSystem
    have hProgram := Resolution.system_mem_programs sc hs hSystem
    rw [hFinish] at hProgram
    rw [hIdent]
    exact inScope_contextAccount (hasAccount_of_program hProgram)
  · rename_i hToken
    obtain ⟨name, hName, hFound⟩ := Resolution.tokenProgram_of_call sc hs
      (by simpa [Resolution.isTokenCall] using hToken)
    rw [hFinish] at hName hFound
    rw [hName, Option.getD_some]
    refine inScope_contextAccount ?_
    rcases hFound with ⟨a, ha, rfl⟩ | ⟨rfl, hProgram⟩
    · exact hasAccount_of_mem ha
    · rw [hIdent]
      exact hasAccount_of_program hProgram

theorem signerSeeds_inScope (hi : r.source.DistinctParams)
    (h : Resolution.resolveInstruction p r.source = .ok r) {pos : SourcePos} {c : CrossProgramCall}
    (hBody : r.source.body = before ++ .call pos c :: after)
    (hArgs : ∀ name t, r.source.argType? name = some t → Rust.ident name ∈ vars)
    (hBound : BoundAfter before bound) (hVars : ∀ name ∈ bound, Rust.ident name ∈ vars)
    (hSigned : c.signerSeeds.isSome = true) :
    ∀ s ∈ (r.seedsAt? before.length).getD [], InScope ⟨p, r⟩ vars (seedRead s.source) := by
  obtain ⟨vs, hvs⟩ := Option.isSome_iff_exists.mp hSigned
  obtain ⟨sc, _, hStep, hKept, hEstablished⟩ := Resolution.exists_established_step h hBody
  have hRoles := Resolution.hasRolesOf_of_resolveInstruction hi h
  have hIndex : r.source.body[before.length]? = some (.call pos c) := by
    rw [hBody]
    simp
  obtain ⟨_, ss, hss, front, last, fronts, b, hSplit, hSources, hFront, hLast⟩ :=
    Resolution.signerSeeds_of_getElem? hi h hIndex hvs
  intro s hs
  rw [hss, Option.getD_some] at hs
  have hMem := List.mem_map_of_mem (f := Seed.source) hs
  rw [hSources] at hMem
  rcases List.mem_append.mp hMem with hMem | hMem
  · obtain ⟨v, _, hSeed⟩ := exists_of_mem_right hFront hMem
    exact seedRead_inScope_of_isSeed hRoles hArgs hSeed
  · rw [List.mem_singleton.mp hMem]
    have hReadable : sc.Readable ⟨p, r.source⟩ last := by
      refine hStep.readable last (List.mem_flatMap.mpr ⟨last, ?_, ?_⟩)
      · rw [Statement.values, hvs, hSplit]
        simp
      · cases hLast <;> exact List.mem_cons_self
    refine seedRead_inScope_of_isBump hRoles hKept ?_ hReadable hLast
    exact fun name t hType => hVars name (hBound name (hEstablished.declares_of_varType? hType))

/-- The rest of a body is in scope after its beginning, by induction on the rest. -/
theorem scoped_stmtsOf (hi : r.source.DistinctParams)
    (h : Resolution.resolveInstruction p r.source = .ok r)
    (hNames : ∀ pos l, Statement.bind pos l ∈ r.source.body →
      Rust.bare (Rust.ident l.name) ≠ contextParam)
    {rest : List Statement} (hBody : r.source.body = before ++ rest)
    (hArgs : ∀ name t, r.source.argType? name = some t → Rust.ident name ∈ vars)
    (hBound : BoundAfter before bound) (hVars : ∀ name ∈ bound, Rust.ident name ∈ vars)
    {names : Names} {generated : List Text} {ts : List HandlerStmt}
    (hts : stmtsOf ⟨p, r⟩ names generated bound before.length rest = .ok ts) :
    Scoped ⟨p, r⟩ vars (ts.flatMap Rust.stmtsOf) := by
  induction rest generalizing before vars bound generated ts with
  | nil =>
    cases hts
    exact .nil
  | cons s rest ih =>
    have hNext : r.source.body = (before ++ [s]) ++ rest := by
      rw [hBody, List.append_assoc, List.singleton_append]
    have hs : s ∈ r.source.body := by
      rw [hBody]
      exact List.mem_append_right before List.mem_cons_self
    have hLength : (before ++ [s]).length = before.length + 1 := by simp
    have hValue {v : Value} (hv : v ∈ s.values) (x : Rust.Expr)
        (hx : exprOf ⟨p, r⟩ bound v = .ok x) : InScope ⟨p, r⟩ vars x :=
      exprOf_inScope_of_mem h hBody hArgs hVars hv hx
    cases s with
    | assign pos a =>
      simp only [stmtsOf, bind_eq_ok_iff, pure_eq_ok_iff] at hts
      obtain ⟨value, hExpr, ts, hRest, rfl⟩ := hts
      rw [← hLength] at hRest
      refine .cons (List.forall_mem_cons.mpr ⟨?_, List.forall_mem_singleton.mpr ?_⟩) ?_
        (ih hNext hArgs (hBound.snoc _) hVars hRest)
      · exact assignedField_inScope h hBody
      · exact hValue List.mem_cons_self value hExpr
      · intro name hName
        cases hName
    | bind pos l =>
      simp only [stmtsOf, bind_eq_ok_iff, pure_eq_ok_iff] at hts
      obtain ⟨value, hExpr, ts, hRest, rfl⟩ := hts
      rw [← hLength] at hRest
      refine .cons (List.forall_mem_singleton.mpr (hValue List.mem_cons_self value hExpr)) ?_
        (ih hNext ?_ (hBound.snoc _) ?_ hRest)
      · rintro name hName
        cases hName
        exact hNames pos l hs
      · exact fun name t hType => List.mem_cons_of_mem _ (hArgs name t hType)
      · exact List.forall_mem_cons.mpr ⟨List.mem_cons_self,
          fun name hName => List.mem_cons_of_mem _ (hVars name hName)⟩
    | call pos c =>
      simp only [stmtsOf, bind_eq_ok_iff, pure_eq_ok_iff] at hts
      obtain ⟨inv, hInvocation, ts, hRest, rfl⟩ := hts
      rw [← hLength] at hRest
      have hCall : Scoped ⟨p, r⟩ vars (Rust.invocationStmts inv) := by
        refine scoped_invocation hInvocation ?_ (calledProgram_inScope h hs)
          (hValue List.mem_cons_self) (signerSeeds_inScope hi h hBody hArgs hBound hVars)
        intro name hName
        obtain ⟨a, ha⟩ := Resolution.account?_of_mem_accountNames h hs hName
        exact hasAccount_of_account? ha
      refine Rust.Scoped.append hCall (ih hNext ?_ (hBound.snoc _) ?_ hRest)
      · exact fun name t hType => List.mem_append_right _ (hArgs name t hType)
      · exact fun name hName => List.mem_append_right _ (hVars name hName)
    | derive pos d =>
      rw [stmtsOf, ← hLength] at hts
      exact ih hNext hArgs (hBound.snoc _) hVars hts
    | close pos c =>
      rw [stmtsOf, ← hLength] at hts
      exact ih hNext hArgs (hBound.snoc _) hVars hts

end Body

end Handler

end AnchorScript
