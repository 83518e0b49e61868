import AnchorScript.Proofs.Handler.Naming
import AnchorScript.Proofs.Program.Declarations
import AnchorScript.Proofs.Resolution.NamedAccounts

/-!
# Bodies that are always translated

Resolution has answered every question that the translation of a body asks: what is readable in the
scope of a statement has an expression in the handler. So the body of a resolved instruction is
always translated, and only the names of the instruction can be refused.

Extraction, resolution and translation each look names up again. What a source names is found by the
stages after the one that has accepted it, so that translation can refuse a program for its
identifiers only. The payload of a statement and the operands of a value are no lookups here: they
are part of the constructor.
-/

namespace AnchorScript

open Outcome

namespace Handler

variable {fr : Frame} {bound : List Text}

/-- A value is translated where all that it is built from is. -/
theorem exists_exprOf_of_leaves {v : Value}
    (h : ∀ w ∈ v.leaves, ∃ x, exprOf fr bound w = .ok x) : ∃ x, exprOf fr bound v = .ok x := by
  induction v with
  | binary pos op l r ihLeft ihRight =>
    obtain ⟨hLeft, hRight⟩ := List.forall_mem_append.mp h
    obtain ⟨x, hx⟩ := ihLeft hLeft
    obtain ⟨y, hy⟩ := ihRight hRight
    refine ⟨.binary op x y, ?_⟩
    simp only [exprOf, bind_eq_ok_iff, pure_eq_ok_iff]
    exact ⟨x, hx, y, hy, rfl⟩
  | neg pos v ih =>
    obtain ⟨x, hx⟩ := ih h
    refine ⟨.neg x, ?_⟩
    simp only [exprOf, bind_eq_ok_iff, pure_eq_ok_iff]
    exact ⟨x, hx, rfl⟩
  | paren pos v ih =>
    obtain ⟨x, hx⟩ := ih h
    refine ⟨.paren x, ?_⟩
    simp only [exprOf, bind_eq_ok_iff, pure_eq_ok_iff]
    exact ⟨x, hx, rfl⟩
  | _ => exact h _ List.mem_cons_self

theorem exists_fieldExpr {sc : Scope} {account field : Text} {f : StateField}
    (hKept : sc.KeptIn fr.instruction)
    (hField : ((sc.account? account).bind
      (Surroundings.stateOf? ⟨fr.program, fr.instruction.source⟩)).bind (·.field? field) = some f)
    (pos : SourcePos) : ∃ x, fieldExpr fr pos account field = .ok x := by
  obtain ⟨a, st, ha, hStateOf, hField⟩ := hKept.exists_field hField
  simp only [fieldExpr, ha, hStateOf, hField]
  exact ⟨_, rfl⟩

/-- What a statement can read in its scope is translated after the variables of the scope. -/
theorem exists_exprOf_of_readable {sc : Scope} {w : Value} (hKept : sc.KeptIn fr.instruction)
    (hBound : ∀ name t, sc.varType? name = some t → name ∈ bound)
    (h : sc.Readable ⟨fr.program, fr.instruction.source⟩ w) : ∃ x, exprOf fr bound w = .ok x := by
  cases h with
  | int | bool | string => exact ⟨_, rfl⟩
  | arg =>
    rw [exprOf]
    split <;> exact ⟨_, rfl⟩
  | @var pos name _ t hType =>
    rw [exprOf, if_pos (by simpa using hBound name t hType)]
    split <;> exact ⟨_, rfl⟩
  | @key pos account _ ref hRef =>
    obtain ⟨a, ha, _⟩ := hKept account ref hRef
    rw [exprOf, ha]
    exact ⟨_, rfl⟩
  | field hField => exact exists_fieldExpr hKept hField _
  | @bump pos account ref hRef hDerived =>
    obtain ⟨a, ha, _, hKeepsDerived⟩ := hKept account ref hRef
    rw [exprOf, ha, if_pos (by simpa using hKeepsDerived hDerived)]
    exact ⟨_, rfl⟩

end Handler

/-- The variables that these statements declare are bound. -/
def BoundAfter (done : List Statement) (bound : List Text) : Prop :=
  ∀ name, DeclaresVariable done name → name ∈ bound

theorem BoundAfter.nil : BoundAfter [] [] :=
  fun _ ⟨_, _, hMem, _⟩ => absurd hMem List.not_mem_nil

theorem BoundAfter.snoc {done : List Statement} {bound : List Text} (h : BoundAfter done bound)
    (s : Statement) :
    BoundAfter (done ++ [s]) ((s.declaration?.map Prod.fst).toList ++ bound) := by
  rintro name ⟨pos, l, hMem, hName⟩
  rcases List.mem_append.mp hMem with hMem | hMem
  · exact List.mem_append_right _ (h name ⟨pos, l, hMem, hName⟩)
  · rw [← List.mem_singleton.mp hMem, ← hName]
    exact List.mem_cons_self

namespace Resolution

variable {p : Program} {i : Instruction} {r : ResolvedInstruction} {before after : List Statement}
  {s : Statement} {bound : List Text}

theorem exists_exprOf (h : resolveInstruction p i = .ok r) (hBody : i.body = before ++ s :: after)
    (hBound : BoundAfter before bound) :
    ∀ v ∈ s.values, ∃ x, Handler.exprOf ⟨p, r⟩ bound v = .ok x := by
  obtain ⟨sc, sc', hStep, hKept, hEstablished⟩ := exists_established_step h hBody
  have hSource : r.source = i := source_of_resolveInstruction h
  intro v hv
  refine Handler.exists_exprOf_of_leaves fun w hw => ?_
  refine Handler.exists_exprOf_of_readable hKept ?_ ?_
  · exact fun name t hType => hBound name (hEstablished.declares_of_varType? hType)
  · rw [hSource]
    exact hStep.readable w (List.mem_flatMap.mpr ⟨v, hv, hw⟩)

/-- The rest of a body is translated after its beginning, by induction on the rest. -/
theorem exists_stmtsOf (h : resolveInstruction p i = .ok r) (names : Handler.Names)
    {rest : List Statement} (hBody : i.body = before ++ rest) (hBound : BoundAfter before bound)
    (generated : List Text) (index : Nat) :
    ∃ ts, Handler.stmtsOf ⟨p, r⟩ names generated bound index rest = .ok ts := by
  induction rest generalizing before bound generated index with
  | nil => exact ⟨[], rfl⟩
  | cons s rest ih =>
    have hNext : i.body = (before ++ [s]) ++ rest := by
      rw [hBody, List.append_assoc, List.singleton_append]
    have hValues := exists_exprOf h hBody hBound
    have hRest (generated : List Text) := ih hNext (hBound.snoc s) generated (index + 1)
    cases s with
    | assign pos a =>
      obtain ⟨x, hx⟩ := hValues a.value List.mem_cons_self
      obtain ⟨ts, hts⟩ := hRest generated
      simp only [Handler.stmtsOf, bind_eq_ok_iff, pure_eq_ok_iff]
      exact ⟨_, x, hx, ts, hts, rfl⟩
    | bind pos l =>
      obtain ⟨x, hx⟩ := hValues l.value List.mem_cons_self
      obtain ⟨ts, hts⟩ := hRest generated
      simp only [Handler.stmtsOf, bind_eq_ok_iff, pure_eq_ok_iff]
      exact ⟨_, x, hx, ts, hts, rfl⟩
    | call pos c =>
      obtain ⟨x, hx⟩ := hValues c.amount List.mem_cons_self
      obtain ⟨inv, hInv⟩ : ∃ inv,
          Handler.invocation ⟨p, r⟩ names generated bound index c = .ok inv := by
        simp only [Handler.invocation, hx]
        exact ⟨_, rfl⟩
      obtain ⟨ts, hts⟩ := hRest (inv.bufferNames ++ generated)
      simp only [Handler.stmtsOf, bind_eq_ok_iff, pure_eq_ok_iff]
      exact ⟨_, inv, hInv, ts, hts, rfl⟩
    | derive pos d => exact hRest generated
    | close pos c => exact hRest generated

/-- The handler of a resolved instruction is refused for its names or not at all. -/
theorem nameClash_of_ofInstruction (h : resolveInstruction p i = .ok r) {e : Diagnostic}
    (hError : Handler.ofInstruction p r = .error e) : Handler.NameClash ⟨p, r⟩ e := by
  rw [Handler.ofInstruction_eq, bind_eq_error_iff] at hError
  rcases hError with hNames | ⟨names, _, hBody⟩
  · exact Handler.nameClash_of_declareAll (by simp [Handler.Names.OfDeclared])
      (List.Subset.refl _) hNames
  · have hSource : r.source = i := source_of_resolveInstruction h
    obtain ⟨ts, hts⟩ := exists_stmtsOf h names (List.nil_append _).symm .nil [] 0
    rw [hSource, hts] at hBody
    cases hBody

end Resolution

/-- What resolution and translation look up in an instruction is found. -/
structure LookupsSucceed (p : Program) (i : ResolvedInstruction) : Prop where
  states : ∀ a ∈ i.accounts, ∀ n, a.role = .state n → ∃ st, p.state? n = some st
  args : ∀ s ∈ i.source.body, ∀ pos name asBytes, Value.arg pos name asBytes ∈ s.reads →
    ∃ q t, i.source.param? name = some q ∧ q.type = .value t
  accounts : ∀ s ∈ i.source.body, ∀ name ∈ s.accountNames, ∃ a, i.account? name = some a
  payers : ∀ a ∈ i.accounts, ∀ c, a.init = some c → ∃ s, i.account? c.payer = some s
  locals : ∀ s ∈ i.source.body, ∀ pos name asBytes, Value.var pos name asBytes ∈ s.reads →
    ∃ t, i.locals.lookup name = some t
  signerSeeds : ∀ index pos c vs, i.source.body[index]? = some (.call pos c) →
    c.signerSeeds = some vs → ∃ seeds, i.seedsAt? index = some seeds
  tokenProgram : ∀ s ∈ i.source.body, Resolution.isTokenCall s = true →
    ∃ name, i.tokenProgram = some name

namespace Resolution

variable {p : Program} {i : Instruction} {r : ResolvedInstruction}

theorem lookup_locals_of_read (h : resolveInstruction p i = .ok r) {s : Statement}
    (hs : s ∈ i.body) {pos : SourcePos} {name : Text} {asBytes : Bool}
    (hRead : Value.var pos name asBytes ∈ s.reads) : ∃ t, r.locals.lookup name = some t := by
  obtain ⟨index, hIndex⟩ := List.mem_iff_getElem?.mp hs
  obtain ⟨sc, sc', _, hStep, _, front, hLocals⟩ := exists_step_of_getElem? h hIndex
  cases hStep.readable _ hRead with
  | @var _ _ _ t hType =>
    change sc.locals.lookup name = some t at hType
    rw [← hLocals, List.lookup_append, hType]
    exact ⟨_, Option.or_some⟩

theorem lookupsSucceed (hi : i.DistinctParams) (hDeclared : p.Declared i)
    (h : resolveInstruction p i = .ok r) : LookupsSucceed p r := by
  have hSource : r.source = i := source_of_resolveInstruction h
  constructor
  · intro a ha n hRole
    obtain ⟨q, hq, _, hType⟩ := exists_param_of_mem h ha
    exact hDeclared.states q hq n (hType.trans (congrArg DataType.account hRole))
  · rw [hSource]
    intro s hs pos name asBytes hRead
    obtain ⟨t, hArg⟩ := hDeclared.args s hs pos name asBytes hRead
    obtain ⟨q, hq, hValue⟩ := Option.bind_eq_some_iff.mp hArg
    refine ⟨q, t, hq, ?_⟩
    cases hType : q.type with
    | account role => simp [hType, DataType.value?] at hValue
    | value t' =>
      rw [hType] at hValue
      exact congrArg DataType.value (Option.some.inj hValue)
  · rw [hSource]
    exact fun s hs name hName => account?_of_mem_accountNames h hs hName
  · intro a ha c hInit
    obtain ⟨s, hs, _⟩ := ((sound_of_resolveInstruction hi h ha).created c hInit).payer
    exact ⟨s, hs⟩
  · rw [hSource]
    exact fun s hs pos name asBytes hRead => lookup_locals_of_read h hs hRead
  · rw [hSource]
    intro index pos c vs hIndex hSeeds
    obtain ⟨_, ss, hss, _⟩ := signerSeeds_of_getElem? hi h hIndex hSeeds
    exact ⟨ss, hss⟩
  · rw [hSource]
    intro s hs hCall
    obtain ⟨sc, _, rfl⟩ := run_of_resolveInstruction h
    obtain ⟨name, hName, _⟩ := tokenProgram_of_call sc hs hCall
    exact ⟨name, hName⟩

end Resolution

/-- In a program that is extracted and resolved every lookup succeeds, and translation fails only
for a name that becomes the identifier of the context or of another name. -/
theorem handlers_refuse_only_names {o : CompileOptions} {name src : Text} {p : Program}
    {r : ResolvedProgram} (hExtracted : extractProgram o name src = .ok p)
    (hResolved : p.resolve = .ok r) :
    (∀ i ∈ r.instructions, LookupsSucceed p i) ∧
      ∀ e, r.handlers = .error e → ∃ i ∈ r.instructions, Handler.NameClash ⟨p, i⟩ e := by
  constructor
  · intro i hi
    obtain ⟨hSource, hInstruction⟩ := Program.resolved_of_mem hResolved hi
    exact Resolution.lookupsSucceed (extractProgram_distinctParams hExtracted _ hSource)
      (extractProgram_declared hExtracted _ hSource) hInstruction
  · intro e hError
    obtain ⟨i, hi, hHandler⟩ := exists_of_mapM_eq_error hError
    rw [(Program.resolve_eq_ok_iff.mp hResolved).1] at hHandler
    obtain ⟨_, hInstruction⟩ := Program.resolved_of_mem hResolved hi
    exact ⟨i, hi, Resolution.nameClash_of_ofInstruction hInstruction hHandler⟩

/-- A program with two variables that become one identifier. -/
def clashingSource : Text := Text.join "\n" [
  "export default class P \x7b",
  "static PROGRAM_ID = new Pubkey('11111111111111111111111111111111')",
  "run(v: SystemAccount, n: u64) \x7b",
  "v.derive(['v', n])",
  "let vBump = v.getBump()",
  "let v_bump = n",
  "SystemProgram.transfer(v, v, v_bump, ['v', n, vBump])",
  "\x7d\x7d"]

theorem clashingSource_refused_for_names : ∃ p r e,
    extractProgram {} "c.ts" clashingSource = .ok p ∧ p.resolve = .ok r ∧
      r.handlers = .error e ∧ e.kind = .duplicateDeclaration ∧
      (∀ i ∈ r.instructions, LookupsSucceed p i) ∧
      ∃ i ∈ r.instructions, Handler.NameClash ⟨p, i⟩ e := by
  obtain ⟨p, hp, hChecked⟩ := exists_ok_of_any (x := extractProgram {} "c.ts" clashingSource)
    (fun p => p.resolve.toOption.any fun r => match r.handlers with
      | .error e => e.kind = .duplicateDeclaration
      | .ok _ => false) (by
      simp (disch := rfl) only [clashingSource, Text.ofString_literal]
      decide +kernel)
  obtain ⟨r, hr, hChecked⟩ := exists_ok_of_any _ hChecked
  split at hChecked
  · rename_i e hError
    obtain ⟨hLookups, hClash⟩ := handlers_refuse_only_names hp hr
    exact ⟨p, r, e, hp, hr, hError, of_decide_eq_true hChecked, hLookups, hClash e hError⟩
  · cases hChecked

end AnchorScript
