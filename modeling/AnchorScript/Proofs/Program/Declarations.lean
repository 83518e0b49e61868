import AnchorScript.Proofs.Program.Extraction
import AnchorScript.Proofs.Resolution.Reads

/-!
# What an extracted program declares

Extraction looks up every type and tells arguments from variables. So in an extracted program the
state type of a parameter exists, and an argument that a statement reads is a parameter with a type
of values. No later stage has to look again.
-/

namespace AnchorScript

open Outcome

namespace Program

/-- The lookups that extraction answers once and for all. -/
structure Declared (p : Program) (i : Instruction) : Prop where
  states : ∀ q ∈ i.params, ∀ n, q.type = .account (.state n) → ∃ st, p.state? n = some st
  args : ∀ s ∈ i.body, ∀ pos name asBytes, Value.arg pos name asBytes ∈ s.reads →
    ∃ t, i.argType? name = some t

section Arguments

variable {c : BodyContext}

theorem StandsFor.param?_of_arg {e : Syntax.Expr} {v : Value} (h : StandsFor c e v)
    {pos : SourcePos} {name : Text} {asBytes : Bool} (hArg : Value.arg pos name asBytes ∈ v.leaves) :
    ∃ q, c.param? name = some q ∧ q.type.isAccount = false := by
  induction h generalizing pos asBytes with
  | arg hParam hValue =>
    cases List.mem_singleton.mp hArg
    exact ⟨_, hParam, hValue⟩
  | @toBytes object _ v w _ hBytes ih =>
    cases v with
    | arg apos id asBytes' =>
      cases hBytes
      cases List.mem_singleton.mp hArg
      exact ih List.mem_cons_self
    | var | key | field =>
      cases hBytes
      cases List.mem_singleton.mp hArg
    | _ => cases hBytes
  | paren _ ih => exact ih hArg
  | neg _ ih => exact ih hArg
  | binary _ _ _ ihLeft ihRight =>
    rcases List.mem_append.mp hArg with hArg | hArg
    · exact ihLeft hArg
    · exact ihRight hArg
  | _ => cases List.mem_singleton.mp hArg

theorem standsFor_of_seedValues {es : List Syntax.Expr} {vs : List Value}
    (h : seedValues c es = .ok vs) : ∀ v ∈ vs, ∃ e, StandsFor c e v := by
  intro v hv
  obtain ⟨e, _, hValue⟩ := exists_of_mem_right (mapM_eq_ok_iff.mp h) hv
  exact ⟨e, standsFor_of_valueOf hValue⟩

theorem standsFor_of_deriveForm {pos : SourcePos} {account : Text} {args : List Syntax.Expr}
    {form : DeriveForm} (h : deriveForm c pos account args = .ok form) :
    ∀ v ∈ form.values, ∃ e, StandsFor c e v := by
  unfold deriveForm at h
  split at h
  · simp only [bind_eq_ok_iff] at h
    obtain ⟨vs, hvs, h⟩ := h
    split at h
    · cases h
      exact standsFor_of_seedValues hvs
    · simp only [bind_eq_ok_iff, pure_eq_ok_iff] at h
      obtain ⟨_, _, rfl⟩ := h
      exact standsFor_of_seedValues hvs
    · cases h
  · simp only [bind_eq_ok_iff, pure_eq_ok_iff] at h
    obtain ⟨_, _, rfl⟩ := h
    intro v hv
    cases hv
  · cases h

theorem standsFor_of_bumpForm {pos : SourcePos} {account : Text} {args : List Syntax.Expr}
    {form : DeriveForm} (h : bumpForm c pos account args = .ok form) :
    ∀ v ∈ form.values, ∃ e, StandsFor c e v := by
  unfold bumpForm at h
  split at h
  · simp only [bind_eq_ok_iff, pure_eq_ok_iff] at h
    obtain ⟨vs, hvs, bump, hBump, rfl⟩ := h
    exact List.forall_mem_append.mpr ⟨standsFor_of_seedValues hvs,
      List.forall_mem_singleton.mpr ⟨_, standsFor_of_valueOf hBump⟩⟩
  · cases h

theorem standsFor_of_deriveCall {object : Syntax.Expr} {pos : SourcePos} {method : Text}
    {args : List Syntax.Expr} {d : Derive} (h : deriveCall c object pos method args = .ok d) :
    ∀ v ∈ d.form.values, ∃ e, StandsFor c e v := by
  unfold deriveCall at h
  split at h
  · split at h
    · simp only [bind_eq_ok_iff, pure_eq_ok_iff] at h
      obtain ⟨form, h, rfl⟩ := h
      exact standsFor_of_deriveForm h
    · simp only [bind_eq_ok_iff, pure_eq_ok_iff] at h
      obtain ⟨form, h, rfl⟩ := h
      exact standsFor_of_bumpForm h
  · cases h

theorem standsFor_of_signerSeeds {k : CallKind} {signer : Text} {args : List Syntax.Expr}
    {seeds : Option (List Value)} (h : signerSeeds c k signer args = .ok seeds) :
    ∀ v ∈ seeds.getD [], ∃ e, StandsFor c e v := by
  unfold signerSeeds at h
  split at h
  · cases h
    intro v hv
    cases hv
  · simp only [bind_eq_ok_iff, pure_eq_ok_iff] at h
    obtain ⟨vs, hvs, rfl⟩ := h
    exact standsFor_of_seedValues hvs
  · cases h

/-- Every value of an extracted statement stands for an expression of the source. -/
theorem standsFor_of_extracts {s : Syntax.Statement} {st : Statement} (h : Extracts c s st) :
    ∀ v ∈ st.values, ∃ e, StandsFor c e v := by
  cases h with
  | bind _ hValue => exact List.forall_mem_singleton.mpr ⟨_, standsFor_of_valueOf hValue⟩
  | assign _ hValue => exact List.forall_mem_singleton.mpr ⟨_, standsFor_of_valueOf hValue⟩
  | call _ hCall =>
    obtain ⟨_, amount, _, _, _, _, _, hAmount, hSeeds⟩ := crossProgramCall_ok hCall
    exact List.forall_mem_cons.mpr
      ⟨⟨amount, standsFor_of_valueOf hAmount⟩, standsFor_of_signerSeeds hSeeds⟩
  | derive _ _ hDerive => exact standsFor_of_deriveCall hDerive
  | init _ hDerive =>
    intro v hv
    exact standsFor_of_deriveCall hDerive v hv
  | close =>
    intro v hv
    cases hv

theorem argType?_of_extractsMethod {file : Text} {s : Settings} {m : Syntax.MethodDecl}
    {i : Instruction} (h : ExtractsMethod file s m i) {st : Statement} (hst : st ∈ i.body)
    {pos : SourcePos} {name : Text} {asBytes : Bool}
    (hArg : Value.arg pos name asBytes ∈ st.reads) : ∃ t, i.argType? name = some t := by
  obtain ⟨v, hv, hArg⟩ := List.mem_flatMap.mp hArg
  obtain ⟨_, _, hExtracts⟩ := exists_of_mem_right h.body hst
  obtain ⟨e, hStands⟩ := standsFor_of_extracts hExtracts v hv
  obtain ⟨q, hParam, hValue⟩ := hStands.param?_of_arg hArg
  change i.param? name = some q at hParam
  rw [Instruction.argType?, hParam, Option.bind_some]
  cases hType : q.type with
  | account => simp [hType, DataType.isAccount] at hValue
  | value t => exact ⟨t, rfl⟩

end Arguments

section States

variable {file : Text} {s : Settings} {isState : Text → Bool}

theorem mem_stateNames_iff {seen names : List Text} {is : List Syntax.InterfaceDecl}
    (h : stateNames file seen is = .ok names) {n : Text} :
    n ∈ names ↔ n ∈ seen ∨ ∃ d ∈ is, d.name = n := by
  induction is generalizing seen with
  | nil =>
    cases h
    simp
  | cons d is ih =>
    simp only [stateNames, refused_or_eq_ok_iff] at h
    rw [ih h.2, List.mem_cons, List.exists_mem_cons_iff, or_comm (a := n = d.name), or_assoc, eq_comm]

theorem name_of_stateType {d : Syntax.InterfaceDecl} {st : StateType}
    (h : stateType file s isState d = .ok st) : st.name = d.name := by
  simp only [stateType, bind_eq_ok_iff, pure_eq_ok_iff] at h
  obtain ⟨_, _, rfl⟩ := h
  rfl

theorem map_name_of_stateType {is : List Syntax.InterfaceDecl} {states : List StateType}
    (h : is.mapM (stateType file s isState) = .ok states) :
    states.map (·.name) = is.map (·.name) := by
  rw [← List.forall₂_eq_eq_eq, List.forall₂_map_left_iff, List.forall₂_map_right_iff]
  exact (mapM_eq_ok_iff.mp h).flip.imp fun st d hst => name_of_stateType hst

/-- The vocabulary has no state types, so a state role is one of the program's own. -/
theorem isState_of_lookup? {name n : Text} {arg : Option Text} {maxLen : Nat}
    (h : DataType.lookup? name arg isState maxLen = some (.account (.state n))) :
    isState n = true := by
  unfold DataType.lookup? at h
  split at h
  · split at h
    · obtain ⟨_, _, hValue⟩ := Option.map_eq_some_iff.mp h
      cases hValue
    · cases h
  · split at h
    · cases h
    · split at h
      · rename_i r hFixed
        cases h
        have hMem := List.mem_of_find?_eq_some hFixed
        simp [Role.fixed] at hMem
      · split at h
        · rename_i hState
          cases h
          exact hState
        · cases h

theorem isState_of_paramsOf {instruction : Text} {seen : List Text} {fs : List Syntax.FieldDecl}
    {params : List Param} (h : paramsOf file s instruction isState seen fs = .ok params) :
    ∀ q ∈ params, ∀ n, q.type = .account (.state n) → isState n = true := by
  fun_induction paramsOf file s instruction isState seen fs generalizing params with
  | case1 =>
    cases h
    simp
  | case2 => cases h
  | case3 seen f fs hSeen type hType ih =>
    simp only [bind_eq_ok_iff, pure_eq_ok_iff] at h
    obtain ⟨rest, hRest, rfl⟩ := h
    refine List.forall_mem_cons.mpr ⟨?_, ih hRest⟩
    rintro n rfl
    exact isState_of_lookup? hType
  | case4 => cases h

theorem isState_of_instructionsOf {seen : List Text} {ms : List Syntax.MethodDecl}
    {is : List Instruction} (h : instructionsOf file s isState seen ms = .ok is) :
    ∀ i ∈ is, ∀ q ∈ i.params, ∀ n, q.type = .account (.state n) → isState n = true := by
  induction ms generalizing seen is with
  | nil =>
    cases h
    simp
  | cons m ms ih =>
    simp only [instructionsOf, instructionOf, refused_or_eq_ok_iff, bind_eq_ok_iff,
      pure_eq_ok_iff] at h
    obtain ⟨_, _, ⟨_, _, _, params, hParams, _, _, rfl⟩, is', his, rfl⟩ := h
    exact List.forall_mem_cons.mpr ⟨isState_of_paramsOf hParams, ih his⟩

end States

end Program

/-- Every lookup of a state type or of an argument in an extracted program succeeds. -/
theorem extractProgram_declared {o : CompileOptions} {name src : Text} {p : Program}
    (h : extractProgram o name src = .ok p) : ∀ i ∈ p.instructions, p.Declared i := by
  obtain ⟨f, _, hFile⟩ := bind_eq_ok_iff.mp h
  obtain ⟨_, cls, _, hMethods⟩ := Program.extractsMethod_of_ofFile hFile
  simp only [Program.ofFile, bind_eq_ok_iff, pure_eq_ok_iff] at hFile
  obtain ⟨_, _, names, hNames, states, hStates, _, _, is, his, rfl⟩ := hFile
  intro i hi
  constructor
  · intro q hq n hType
    have hState := Program.isState_of_instructionsOf his i hi q hq n hType
    rcases (Program.mem_stateNames_iff hNames).mp (by simpa using hState) with hNone | ⟨d, hd, hName⟩
    · cases hNone
    · obtain ⟨st, hst, hStateType⟩ := exists_of_mem_left (mapM_eq_ok_iff.mp hStates) hd
      have hSame : st.name = n := (Program.name_of_stateType hStateType).trans hName
      refine Option.isSome_iff_exists.mp (List.find?_isSome.mpr ⟨st, hst, ?_⟩)
      simpa using hSame
  · intro st hst pos id asBytes hArg
    obtain ⟨m, _, hMethod⟩ := exists_of_mem_right hMethods hi
    exact Program.argType?_of_extractsMethod hMethod hst hArg

end AnchorScript
