import AnchorScript.Proofs.Compiler.PrintedCrate
import AnchorScript.Proofs.Handler.Typing
import AnchorScript.Proofs.Rust.BodyTypes

/-!
# Names of the source in printed bodies

The identifiers of a source's arguments and variables are a handler's own names. What is assigned to
one reads nothing else, and all that is bound besides takes a name that is, as it is written, not
among them. Where it is not to Rust either, the body is hygienic.
-/

namespace AnchorScript

open Outcome

/-- The identifiers of the arguments and of the variables. -/
def Instruction.identifiers (i : Instruction) : List Text :=
  (i.args.map (·.name) ++ i.varNames).map Rust.ident

theorem Instruction.mem_identifiers_of_argType? {i : Instruction} {name : Text} {t : ValueType}
    (h : i.argType? name = some t) : Rust.ident name ∈ i.identifiers := by
  obtain ⟨a, ha, hName⟩ := exists_arg_of_argType? h
  obtain ⟨q, hq, rfl⟩ := List.mem_map.mp ha
  rw [identifiers, List.map_append, List.map_map]
  exact List.mem_append_left _ (List.mem_map.mpr ⟨q, hq, hName⟩)

theorem Instruction.mem_identifiers_of_varNames {i : Instruction} {name : Text}
    (h : name ∈ i.varNames) : Rust.ident name ∈ i.identifiers :=
  List.mem_map_of_mem (List.mem_append_right _ h)

theorem Instruction.mem_identifiers_of_bind {i : Instruction} {pos : SourcePos} {l : LocalBinding}
    (h : .bind pos l ∈ i.body) : Rust.ident l.name ∈ i.identifiers :=
  mem_identifiers_of_varNames
    (List.mem_map.mpr ⟨(l.name, pos), List.mem_filterMap.mpr ⟨_, h, rfl⟩, rfl⟩)

namespace Rust

/-- A value reads its variables and, if anything, the context. -/
theorem Expr.OfValues.readsOnly {own : List Text} {e : Expr} (h : e.OfValues own) :
    e.ReadsOnly ("ctx" :: own) := by
  induction h with
  | int | bool | string => trivial
  | var hx => exact List.mem_cons_of_mem _ hx
  | field | bump | key => exact List.mem_cons_self
  | call _ ih | paren _ ih | neg _ ih => exact ih
  | binary _ _ ihLeft ihRight => exact ⟨ihLeft, ihRight⟩

/-- What is bound besides these names is, to Rust, none of them and not the context, and no two
buffers are one. -/
structure Hygienic (own : List Text) (body : List Stmt) : Prop where
  apart : ∀ s ∈ body, ∀ name, s.bound? = some name → name ∉ own →
    ∀ u ∈ Text.ofString "ctx" :: own, bare name ≠ bare u
  buffers : (((body.filterMap Stmt.let?).filter (!own.contains ·)).map bare).Nodup

/-- The statements of a handler as they are read. -/
def printed (ts : List HandlerStmt) : List Stmt := (ts.flatMap stmtsOf).map Stmt.shown

theorem printed_cons (t : HandlerStmt) (ts : List HandlerStmt) :
    printed (t :: ts) = (stmtsOf t).map Stmt.shown ++ printed ts := by
  rw [printed, printed, List.flatMap_cons, List.map_append]

theorem printed_append (ts us : List HandlerStmt) :
    printed (ts ++ us) = printed ts ++ printed us := by
  rw [printed, printed, printed, List.flatMap_append, List.map_append]

@[simp] theorem Stmt.bound?_shown (s : Stmt) : s.shown.bound? = s.bound? := by
  cases s <;> rfl

theorem filterMap_let?_shown (body : List Stmt) :
    (body.map Stmt.shown).filterMap Stmt.let? = body.filterMap Stmt.let? := by
  rw [List.filterMap_map]
  exact List.filterMap_congr fun s _ => by cases s <;> rfl

end Rust

namespace Handler

/-- The variables that an expression is made of are those of its value. -/
theorem Expresses.ofValues {fr : Frame} {v : Value} {e : Rust.Expr} {own : List Text}
    (h : Expresses fr v e)
    (hArgs : ∀ pos name asBytes, Value.arg pos name asBytes ∈ v.leaves → Rust.ident name ∈ own)
    (hVars : ∀ pos name asBytes, Value.var pos name asBytes ∈ v.leaves → Rust.ident name ∈ own) :
    e.OfValues own := by
  induction h with
  | int => exact .int
  | bool => exact .bool
  | string => exact .string
  | arg => exact .owned (.var (hArgs _ _ _ List.mem_cons_self)) _
  | var => exact .owned (.var (hVars _ _ _ List.mem_cons_self)) _
  | key => exact .key
  | field => exact .owned .field _
  | bump => exact .bump
  | paren _ ih => exact .paren (ih hArgs hVars)
  | neg _ ih => exact .neg (ih hArgs hVars)
  | binary _ _ ihLeft ihRight =>
    exact .binary (ihLeft (fun _ _ _ h => hArgs _ _ _ (List.mem_append_left _ h))
        (fun _ _ _ h => hVars _ _ _ (List.mem_append_left _ h)))
      (ihRight (fun _ _ _ h => hArgs _ _ _ (List.mem_append_right _ h))
        (fun _ _ _ h => hVars _ _ _ (List.mem_append_right _ h)))

section Instruction

variable {p : Program} {r : ResolvedInstruction}

theorem ofValues_of_expresses (h : Resolution.resolveInstruction p r.source = .ok r)
    {s : Statement} (hs : s ∈ r.source.body) {v : Value} (hv : v ∈ s.values) {e : Rust.Expr}
    (hExpr : Expresses ⟨p, r⟩ v e) : e.OfValues r.source.identifiers := by
  obtain ⟨before, after, hBody⟩ := List.append_of_mem hs
  obtain ⟨sc, _, hStep, _, hEstablished⟩ := Resolution.exists_established_step h hBody
  refine hExpr.ofValues ?_ ?_
  · intro pos name asBytes hArg
    cases hStep.readable _ (List.mem_flatMap.mpr ⟨v, hv, hArg⟩) with
    | arg hType => exact Instruction.mem_identifiers_of_argType? hType
  · intro pos name asBytes hVar
    cases hStep.readable _ (List.mem_flatMap.mpr ⟨v, hv, hVar⟩) with
    | var hType =>
      obtain ⟨bpos, l, hl, rfl⟩ := hEstablished.declares_of_varType? hType
      exact Instruction.mem_identifiers_of_bind (hBody ▸ List.mem_append_left _ hl)

/-- A statement binds a variable of the source or a name that a call needs for itself. -/
theorem bound_cases {t : Handler} {u : HandlerStmt} (hu : u ∈ t.body) {s : Rust.Stmt}
    (hs : s ∈ Rust.stmtsOf u) {g : Text} (hg : s.bound? = some g) :
    u.boundName? = some g ∨ g ∈ t.generatedNames := by
  cases u with
  | write place value =>
    cases List.mem_singleton.mp hs
    cases hg
  | bind name =>
    cases List.mem_singleton.mp hs
    exact .inl hg
  | invoke inv =>
    refine .inr (List.mem_flatMap.mpr ⟨inv, List.mem_filterMap.mpr ⟨_, hu, rfl⟩, ?_⟩)
    rw [Invocation.generatedNames]
    rcases List.mem_cons.mp hs with rfl | hs
    · cases hg
      exact List.mem_cons_self
    · rcases List.mem_append.mp hs with hs | hs
      · refine List.mem_cons_of_mem _ (List.mem_cons_of_mem _ ?_)
        cases hSigner : inv.signer with
        | none =>
          rw [hSigner] at hs
          cases hs
        | some signer =>
          rw [hSigner] at hs
          rw [Invocation.bufferNames, hSigner]
          rcases List.mem_append.mp hs with hs | hs
          · obtain ⟨b, hb, rfl⟩ := List.mem_map.mp hs
            cases hg
            exact List.mem_append_right _ (List.mem_map_of_mem hb)
          · cases List.mem_singleton.mp hs
            cases hg
            exact List.mem_append_left _ List.mem_cons_self
      · rcases List.mem_cons.mp hs with rfl | hs
        · cases hg
          exact List.mem_cons_of_mem _ List.mem_cons_self
        · cases List.mem_singleton.mp hs
          cases hg

/-- The statement that is printed for a statement of the body, but for the texts of strings. -/
inductive Becomes (fr : Frame) : Statement → Rust.Stmt → Prop
  | write {pos : SourcePos} {a : Assign} {value : Rust.Expr}
      (hValue : Expresses fr a.value value) :
      Becomes fr (.assign pos a)
        (.assign (.contextField (Rust.ident a.account) (Rust.ident a.field)) value)
  | bind {pos : SourcePos} {l : LocalBinding} {value : Rust.Expr}
      (hValue : Expresses fr l.value value) :
      Becomes fr (.bind pos l)
        (.bind (Rust.ident l.name) l.isMutable (l.declared.map rustType) value)
  | call {pos : SourcePos} {c : CrossProgramCall} {function context : Text} {amount : Rust.Expr}
      (hAmount : Expresses fr c.amount amount) :
      Becomes fr (.call pos c) (.invoke function context amount)

/-- An integer argument or field, as a buffer reads it. -/
inductive ReadsInteger (p : Program) (i : Instruction) : IntType → Rust.Expr → Prop
  | argument {name : Text} {t : ValueType} {u : IntType} (hType : i.argType? name = some t)
      (hKind : t.kind = .int u) : ReadsInteger p i u (.var (Rust.ident name))
  | field {account field : Text} {t : ValueType} {u : IntType}
      (hType : p.fieldType? i account field = some t) (hKind : t.kind = .int u) :
      ReadsInteger p i u (.contextField (Rust.ident account) (Rust.ident field))

/-- Where a printed statement comes from: a statement of the body, or what a call needs for itself,
under a name of its own. -/
inductive Sourced (p : Program) (r : ResolvedInstruction) : Rust.Stmt → Prop
  | body {st : Statement} {s : Rust.Stmt} (hMem : st ∈ r.source.body)
      (hBecomes : Becomes ⟨p, r⟩ st s) : Sourced p r s
  | buffer {name : Text} {t : IntType} {source : Rust.Expr} (hName : name ∉ r.source.identifiers)
      (hSource : ReadsInteger p r.source t source) :
      Sourced p r (.bind name false none (source.call (Text.ofString "to_le_bytes")))
  | handle {s : Rust.Stmt} {name : Text} (hHandle : s.let? = none) (hBound : s.bound? = some name)
      (hName : name ∉ r.source.identifiers) : Sourced p r s

theorem Expresses.shown {fr : Frame} {v : Value} {e : Rust.Expr} (h : Expresses fr v e) :
    Expresses fr v e.shown := by
  have hOwned (e : Rust.Expr) (he : e.shown = e) (k : ValueKind) : (e.owned k).shown = e.owned k := by
    cases k with
    | string => exact congrArg (Rust.Expr.call · _) he
    | _ => exact he
  induction h with
  | int => exact .int
  | bool => exact .bool
  | string => exact .string
  | arg hKind =>
    rw [hOwned _ rfl]
    exact .arg hKind
  | var hKind =>
    rw [hOwned _ rfl]
    exact .var hKind
  | key => exact .key
  | field hKind =>
    rw [hOwned _ rfl]
    exact .field hKind
  | bump => exact .bump
  | paren _ ih => exact .paren ih
  | neg _ ih => exact .neg ih
  | binary _ _ ihLeft ihRight => exact .binary ihLeft ihRight

theorem sourceNames_eq {t : Handler} (hHandler : ofInstruction p r = .ok t) :
    t.sourceNames = contextParam :: r.source.identifiers := by
  simp only [ofInstruction, bind_eq_ok_iff, pure_eq_ok_iff] at hHandler
  obtain ⟨_, _, names, _, body, hBody, rfl⟩ := hHandler
  rw [sourceNames, boundNames_of_stmtsOf hBody, Instruction.identifiers, Instruction.varNames,
    List.map_append, List.map_map, List.map_map, argsOf, List.map_map]
  rfl

/-- A buffer holds the bytes of an integer. -/
theorem readsInteger_of_borrow {used : List Text} {source : Rust.Expr} {base : Text}
    {t : ValueType} {b : SeedBuffer} (hForm : t.kind.hasByteForm = true)
    (hBuffer : (borrow used source base t).2 = some b) :
    ∃ u, t.kind = .int u ∧ b.value = source.call (Text.ofString "to_le_bytes") := by
  unfold borrow at hBuffer
  cases hKind : t.kind with
  | int u =>
    rw [hKind] at hBuffer
    cases hBuffer
    exact ⟨u, rfl, rfl⟩
  | bool =>
    rw [hKind] at hForm
    cases hForm
  | string | pubkey =>
    rw [hKind] at hBuffer
    cases hBuffer

theorem readsInteger_of_signerSeed {used : List Text} {v : Value} {s : SeedSource} {b : SeedBuffer}
    (hSeed : IsSeed p r.source v s) (hBuffer : (signerSeed used s).2 = some b) :
    ∃ t source, b.value = source.call (Text.ofString "to_le_bytes") ∧
      ReadsInteger p r.source t source := by
  cases hSeed with
  | literal | key => cases hBuffer
  | field hType hForm =>
    obtain ⟨u, hKind, hValue⟩ := readsInteger_of_borrow hForm hBuffer
    exact ⟨u, _, hValue, .field hType hKind⟩
  | argument hType hForm =>
    obtain ⟨u, hKind, hValue⟩ := readsInteger_of_borrow hForm hBuffer
    exact ⟨u, _, hValue, .argument hType hKind⟩

theorem readsInteger_of_mem_signerSeedList {used : List Text} {ss : List Seed}
    (h : ∀ s ∈ ss, s.source.isBump = true ∨ ∃ v, IsSeed p r.source v s.source) :
    ∀ b ∈ (signerSeedList used ss).1, ∃ t source,
      b.value = source.call (Text.ofString "to_le_bytes") ∧ ReadsInteger p r.source t source := by
  induction ss generalizing used with
  | nil => exact nofun
  | cons s ss ih =>
    obtain ⟨hHere, hLater⟩ := List.forall_mem_cons.mp h
    rw [signerSeedList]
    refine List.forall_mem_append.mpr ⟨fun b hb => ?_, ih hLater⟩
    have hBuffer : (signerSeed used s.source).2 = some b := Option.mem_toList.mp hb
    rcases hHere with hBump | ⟨v, hSeed⟩
    · cases hSource : s.source with
      | bump =>
        rw [hSource] at hBuffer
        cases hBuffer
      | _ =>
        rw [hSource] at hBump
        cases hBump
    · exact readsInteger_of_signerSeed hSeed hBuffer

section Own

variable {t : Handler} (hi : r.source ∈ p.instructions) (hNames : ∀ n ∈ p.declaredNames, IsName n)
  (hDistinct : r.source.DistinctParams)
  (hResolved : Resolution.resolveInstruction p r.source = .ok r)
  (hHandler : ofInstruction p r = .ok t)

include hi hNames hDistinct hResolved hHandler

theorem not_mem_identifiers {g : Text} (hg : g ∈ t.generatedNames) :
    g ∉ r.source.identifiers := by
  have hApart := namesApart_of_ofInstruction hi hNames hDistinct hResolved hHandler
  have hSpelled := hApart.spelled g hg
  rw [sourceNames_eq hHandler] at hSpelled
  exact fun hOwn => hSpelled (List.mem_cons_of_mem _ hOwn)

omit hi hNames hHandler in
theorem isSeed_or_isBump_of_seedsAt? {index : Nat} {pos : SourcePos} {c : CrossProgramCall}
    {vs : List Value} (hIndex : r.source.body[index]? = some (.call pos c))
    (hvs : c.signerSeeds = some vs) :
    ∀ s ∈ (r.seedsAt? index).getD [],
      s.source.isBump = true ∨ ∃ v, IsSeed p r.source v s.source := by
  obtain ⟨_, ss, hss, front, last, fronts, b, _, hSources, hFront, _⟩ :=
    Resolution.signerSeeds_of_getElem? hDistinct hResolved hIndex hvs
  intro s hs
  rw [hss, Option.getD_some] at hs
  have hMem := List.mem_map_of_mem (f := Seed.source) hs
  rw [hSources] at hMem
  rcases List.mem_append.mp hMem with hMem | hMem
  · obtain ⟨v, _, hSeed⟩ := exists_of_mem_right hFront hMem
    exact .inr ⟨v, hSeed⟩
  · rw [List.mem_singleton.mp hMem]
    exact .inl rfl

theorem sourced_invocation {names : Names} {generated bound : List Text} {index : Nat}
    {pos : SourcePos} {c : CrossProgramCall} {inv : Invocation} (hInv : .invoke inv ∈ t.body)
    (hIndex : r.source.body[index]? = some (.call pos c))
    (hInvocation : invocation ⟨p, r⟩ names generated bound index c = .ok inv) :
    ∀ s ∈ Rust.invocationStmts inv, Sourced p r s.shown := by
  have hOther {g : Text} (hg : g ∈ inv.generatedNames) : g ∉ r.source.identifiers :=
    not_mem_identifiers hi hNames hDistinct hResolved hHandler
      (List.mem_flatMap.mpr ⟨inv, List.mem_filterMap.mpr ⟨_, hInv, rfl⟩, hg⟩)
  have hSigner := signer_of_invocation hInvocation
  have hRoles := Resolution.hasRolesOf_of_resolveInstruction hDistinct hResolved
  refine List.forall_mem_cons.mpr ⟨.handle rfl rfl (hOther List.mem_cons_self),
    List.forall_mem_append.mpr ⟨?_, List.forall_mem_cons.mpr
      ⟨.handle rfl rfl (hOther (List.mem_cons_of_mem _ List.mem_cons_self)),
        List.forall_mem_singleton.mpr ?_⟩⟩⟩
  · cases hSeeds : c.signerSeeds with
    | none =>
      rw [hSigner, hSeeds]
      exact nofun
    | some vs =>
      rw [hSeeds, Option.map_some] at hSigner
      have hGenerated : inv.generatedNames = inv.accountsName :: inv.contextName ::
          (FreshName.avoid (names.map Prod.fst) "signer_seeds" ::
            (signerSeedList (generated ++ names.map Prod.fst)
              ((r.seedsAt? index).getD [])).1.map (·.name)) := by
        rw [Invocation.generatedNames, Invocation.bufferNames, hSigner]
        rfl
      simp only [hGenerated, List.mem_cons] at hOther
      rw [hSigner, Option.map_some, Option.getD_some]
      refine List.forall_mem_append.mpr ⟨List.forall_mem_map.mpr fun b hb => ?_,
        List.forall_mem_singleton.mpr (.handle rfl rfl (hOther (.inr (.inr (.inl rfl)))))⟩
      obtain ⟨u, source, hValue, hReads⟩ := readsInteger_of_mem_signerSeedList
        (isSeed_or_isBump_of_seedsAt? hDistinct hResolved hIndex hSeeds) b hb
      have hShown : b.value.shown = source.call (Text.ofString "to_le_bytes") := by
        rw [hValue]
        cases hReads <;> rfl
      rw [Rust.Stmt.shown, hShown]
      exact .buffer (hOther (.inr (.inr (.inr (List.mem_map_of_mem hb))))) hReads
  · simp only [invocation, bind_eq_ok_iff, pure_eq_ok_iff] at hInvocation
    obtain ⟨amount, hAmount, rfl⟩ := hInvocation
    exact .body (List.mem_of_getElem? hIndex) (.call (expresses_of_exprOf hRoles hAmount).shown)

/-- Every printed statement comes from the body or is needed by a call. -/
theorem sourced_printed : ∀ s ∈ Rust.printed t.body, Sourced p r s := by
  have hRoles := Resolution.hasRolesOf_of_resolveInstruction hDistinct hResolved
  intro s hs
  obtain ⟨v, hv, rfl⟩ := List.mem_map.mp hs
  obtain ⟨u, hu, hv⟩ := List.mem_flatMap.mp hv
  have hTranslated := hHandler
  simp only [ofInstruction, bind_eq_ok_iff, pure_eq_ok_iff] at hTranslated
  obtain ⟨_, _, names, _, body, hBody, rfl⟩ := hTranslated
  obtain ⟨⟨st, index⟩, hMem, hTranslates⟩ := exists_of_mem_right (translates_of_stmtsOf hBody) hu
  have hIndex := List.mem_zipIdx_iff_getElem?.mp (List.mem_filter.mp hMem).1
  cases hTranslates with
  | write hValue =>
    cases List.mem_singleton.mp hv
    exact .body (List.mem_of_getElem? hIndex) (.write (expresses_of_exprOf hRoles hValue).shown)
  | bind hValue =>
    cases List.mem_singleton.mp hv
    exact .body (List.mem_of_getElem? hIndex) (.bind (expresses_of_exprOf hRoles hValue).shown)
  | invoke hInvocation =>
    exact sourced_invocation hi hNames hDistinct hResolved hHandler hu hIndex hInvocation v hv

omit hi hNames in
/-- Every statement of the body that is carried out is printed. -/
theorem exists_printed {st : Statement} (hst : st ∈ r.source.body)
    (hCarried : st.isCarriedOut = true) : ∃ s ∈ Rust.printed t.body, Becomes ⟨p, r⟩ st s := by
  have hRoles := Resolution.hasRolesOf_of_resolveInstruction hDistinct hResolved
  simp only [ofInstruction, bind_eq_ok_iff, pure_eq_ok_iff] at hHandler
  obtain ⟨_, _, names, _, body, hBody, rfl⟩ := hHandler
  obtain ⟨index, hIndex⟩ := List.mem_iff_getElem?.mp hst
  have hMem : (st, index) ∈ r.source.body.zipIdx.filter (·.1.isCarriedOut) :=
    List.mem_filter.mpr ⟨List.mem_zipIdx_iff_getElem?.mpr hIndex, hCarried⟩
  obtain ⟨u, hu, hTranslates⟩ := exists_of_mem_left (translates_of_stmtsOf hBody) hMem
  have hPrinted {v : Rust.Stmt} (hv : v ∈ Rust.stmtsOf u) : v.shown ∈ Rust.printed body :=
    List.mem_map_of_mem (List.mem_flatMap.mpr ⟨u, hu, hv⟩)
  cases hTranslates with
  | write hValue =>
    exact ⟨_, hPrinted List.mem_cons_self, .write (expresses_of_exprOf hRoles hValue).shown⟩
  | bind hValue =>
    exact ⟨_, hPrinted List.mem_cons_self, .bind (expresses_of_exprOf hRoles hValue).shown⟩
  | @invoke _ _ _ _ inv hInvocation =>
    refine ⟨(Rust.Stmt.invoke inv.action.functionName inv.contextName inv.amount).shown,
      hPrinted ?_, ?_⟩
    · refine List.mem_cons_of_mem _ (List.mem_append_right _ ?_)
      exact List.mem_cons_of_mem _ List.mem_cons_self
    · simp only [invocation, bind_eq_ok_iff, pure_eq_ok_iff] at hInvocation
      obtain ⟨amount, hAmount, rfl⟩ := hInvocation
      exact .call (expresses_of_exprOf hRoles hAmount).shown

end Own

theorem filterMap_let?_invocation (inv : Invocation) :
    (Rust.invocationStmts inv).filterMap Rust.Stmt.let? = inv.bufferNames := by
  obtain ⟨action, program, accounts, amount, accountsName, contextName, signer⟩ := inv
  cases signer with
  | none => rfl
  | some s =>
    have hBuffers : (SeedBuffer.stmts s.buffers).filterMap Rust.Stmt.let? =
        s.buffers.map (·.name) := by
      rw [SeedBuffer.stmts, List.filterMap_map]
      exact congrFun (List.filterMap_eq_map (f := SeedBuffer.name)) s.buffers
    have hSigner : (Rust.signerStmts s).filterMap Rust.Stmt.let? = s.buffers.map (·.name) := by
      rw [Rust.signerStmts, List.filterMap_append]
      exact (List.append_nil _).trans hBuffers
    exact (List.filterMap_append).trans ((List.append_nil _).trans hSigner)

/-- The buffers are what is bound with `let` besides variables of the source. -/
theorem filter_let?_printed {own : List Text} {ts : List HandlerStmt}
    (hOwn : ∀ g ∈ ts.filterMap HandlerStmt.boundName?, g ∈ own)
    (hOther : ∀ g ∈ (ts.filterMap HandlerStmt.invocation?).flatMap Invocation.bufferNames,
      g ∉ own) :
    ((Rust.printed ts).filterMap Rust.Stmt.let?).filter (!own.contains ·) =
      (ts.filterMap HandlerStmt.invocation?).flatMap Invocation.bufferNames := by
  induction ts with
  | nil => rfl
  | cons u ts ih =>
    rw [Rust.printed_cons, List.filterMap_append, List.filter_append]
    cases u with
    | write => exact ih hOwn hOther
    | bind name =>
      obtain ⟨hName, hOwn⟩ := List.forall_mem_cons.mp hOwn
      have hNone : [name].filter (!own.contains ·) = [] := by simpa using hName
      exact (congrArg (· ++ _) hNone).trans (ih hOwn hOther)
    | invoke inv =>
      obtain ⟨hHere, hLater⟩ := List.forall_mem_append.mp hOther
      have hAll : inv.bufferNames.filter (!own.contains ·) = inv.bufferNames :=
        List.filter_eq_self.mpr fun g hg => by simpa using hHere g hg
      rw [Rust.stmtsOf, Rust.filterMap_let?_shown, filterMap_let?_invocation, hAll, ih hOwn hLater]
      rfl

variable {t : Handler} (hSource : t.sourceNames = contextParam :: r.source.identifiers)

include hSource

theorem mem_identifiers_of_boundName? {g : Text}
    (hg : g ∈ t.body.filterMap HandlerStmt.boundName?) : g ∈ r.source.identifiers := by
  rw [← (List.cons.inj hSource).2]
  exact List.mem_append_right _ hg

theorem hygienic_printed (hApart : NamesApart r.source t) (h : t.Hygienic) :
    Rust.Hygienic r.source.identifiers (Rust.printed t.body) := by
  have hOther : ∀ g ∈ t.bufferNames, g ∉ r.source.identifiers := by
    intro g hg hOwn
    refine hApart.spelled g (bufferNames_subset t hg) ?_
    rw [hSource]
    exact List.mem_cons_of_mem _ hOwn
  constructor
  · intro s hs g hg hNot u hu
    obtain ⟨v, hv, rfl⟩ := List.mem_map.mp hs
    obtain ⟨w, hw, hv⟩ := List.mem_flatMap.mp hv
    rw [Rust.Stmt.bound?_shown] at hg
    rcases bound_cases hw hv hg with hOwn | hGenerated
    · have hBound := mem_identifiers_of_boundName? hSource (List.mem_filterMap.mpr ⟨w, hw, hOwn⟩)
      exact absurd hBound hNot
    · refine h.apart g hGenerated u ?_
      rw [hSource]
      exact hu
  · rw [filter_let?_printed (fun g hg => mem_identifiers_of_boundName? hSource hg) hOther]
    exact h.buffers

end Instruction

end Handler

end AnchorScript
