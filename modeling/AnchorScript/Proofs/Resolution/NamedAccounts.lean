import AnchorScript.Proofs.Resolution.DefinitionBeforeUse
import AnchorScript.Proofs.Resolution.AccountSoundness

/-!
# Names that are found

Whatever a statement has found in its scope is there in the resolved instruction too: an account
keeps its name and its role, an account that is derived from seeds stays derived from them, and a
variable keeps its type. The programs that calls go to are among the accounts of the context.
-/

namespace AnchorScript

open Outcome

/-- The accounts that a statement names, apart from the values it reads. -/
def Statement.accountNames : Statement → List Text
  | .derive _ d => d.account :: (d.form.parties?.map fun q => [q.1, q.2]).getD []
  | .assign _ a => [a.account]
  | .call _ c => c.action.participants
  | .bind .. => []
  | .close _ c => [c.account, c.destination]

namespace Scope

/-- The records of the scope are found in the resolved instruction. -/
def KeptIn (sc : Scope) (r : ResolvedInstruction) : Prop :=
  ∀ name ref, sc.account? name = some ref → ∃ a, r.account? name = some a ∧ a.role = ref.role ∧
    (ref.isProgramDerived = true → a.isProgramDerived = true)

variable {env : Surroundings} {index : Nat} {sc sc' : Scope} {s : Statement}
  {body : List Statement}

theorem KeptIn.exists_field {r : ResolvedInstruction} (h : sc.KeptIn r) {account field : Text}
    {f : StateField}
    (hField : ((sc.account? account).bind env.stateOf?).bind (·.field? field) = some f) :
    ∃ a st, r.account? account = some a ∧ env.stateOf? a = some st ∧ st.field? field = some f := by
  obtain ⟨st, hState, hField⟩ := Option.bind_eq_some_iff.mp hField
  obtain ⟨ref, hRef, hState⟩ := Option.bind_eq_some_iff.mp hState
  obtain ⟨a, ha, hRole, _⟩ := h account ref hRef
  refine ⟨a, st, ha, ?_, hField⟩
  rw [Surroundings.stateOf?, hRole]
  exact hState

theorem account?_of_parties {pos : SourcePos} {about : Text} {form : DeriveForm}
    {t : Option TokenParties} (h : sc.tokenParties env pos about form = .ok t) :
    ∀ name ∈ (form.parties?.map fun q => [q.1, q.2]).getD [], ∃ ref, sc.account? name = some ref := by
  unfold tokenParties at h
  split at h
  · rename_i hNone
    simp [hNone]
  · rename_i mint authority hParties
    simp only [refused_or_eq_ok_iff] at h
    obtain ⟨hMint, hAuthority, _⟩ := h
    rw [hParties, Option.map_some, Option.getD_some]
    refine List.forall_mem_cons.mpr ⟨?_, List.forall_mem_singleton.mpr ?_⟩
    · cases hRef : sc.account? mint with
      | none => simp [hRef] at hMint
      | some ref => exact ⟨ref, rfl⟩
    · exact Option.ne_none_iff_exists'.mp (by simpa using hAuthority)

theorem Step.account?_of_mem (h : Step env index sc s sc') :
    ∀ name ∈ s.accountNames, ∃ ref, sc.account? name = some ref := by
  cases h with
  | derive hRef _ _ hToken =>
    exact List.forall_mem_cons.mpr ⟨⟨_, hRef⟩, account?_of_parties hToken⟩
  | @assign pos a target source hTarget =>
    refine List.forall_mem_singleton.mpr ?_
    have hField := field?_of_stateField hTarget
    cases hRef : sc.account? a.account with
    | none => simp [hRef] at hField
    | some ref => exact ⟨ref, rfl⟩
  | call hParticipants =>
    intro name hName
    have hFound := eq_ok_of_forM_eq_ok hParticipants hName
    simp only [allowed_or_eq_ok_iff] at hFound
    exact Option.isSome_iff_exists.mp hFound.1
  | bind =>
    intro name hName
    cases hName
  | close hRef _ _ _ hDestination =>
    exact List.forall_mem_cons.mpr ⟨⟨_, hRef⟩,
      List.forall_mem_singleton.mpr (Option.isSome_iff_exists.mp hDestination)⟩

/-- A run changes the records one by one, and leaves the origin of a record alone that no
statement derives. -/
theorem Run.exists_map (h : Run env index sc body sc') :
    ∃ g, Preserving g ∧ sc'.accounts = sc.accounts.map g ∧
      ∀ a, (∀ d ∈ derivations body, d.account ≠ a.name) → (g a).origin = a.origin := by
  induction h with
  | nil => exact ⟨id, fun a => ⟨rfl, rfl, id⟩, (List.map_id _).symm, fun a _ => rfl⟩
  | @cons index sc mid sc' s rest hStep _ ih =>
    obtain ⟨e, hMid, hOrigin⟩ := hStep.exists_effect
    obtain ⟨g, hg, hRest, hKept⟩ := ih
    refine ⟨g ∘ e.apply, ?_, by rw [hRest, hMid, List.map_map], ?_⟩
    · intro a
      obtain ⟨hName, hRole, hMutable⟩ := hg (e.apply a)
      exact ⟨hName, hRole, fun ha => hMutable ((e.preserving_apply a).2.2 ha)⟩
    · intro a hOther
      have hHere : e.origin? a.name = none := by
        refine hOrigin a.name fun d hd => hOther d ?_
        exact List.mem_filterMap.mpr ⟨s, List.mem_cons_self, hd⟩
      have hLater : (g (e.apply a)).origin = (e.apply a).origin := by
        refine hKept (e.apply a) fun d hd => hOther d ?_
        obtain ⟨t, ht, hDerivation⟩ := List.mem_filterMap.mp hd
        exact List.mem_filterMap.mpr ⟨t, List.mem_cons_of_mem s ht, hDerivation⟩
      rw [Function.comp_apply, hLater, Effect.origin_apply, hHere, Option.getD_none]

end Scope

namespace Resolution

variable {p : Program} {i : Instruction} {r : ResolvedInstruction}

/-- The statement with this index was accepted in a scope whose records and variables are found in
the resolved instruction. -/
theorem exists_step_of_getElem? (h : resolveInstruction p i = .ok r) {index : Nat} {s : Statement}
    (hIndex : i.body[index]? = some s) :
    ∃ sc sc', Scope.Run ⟨p, i⟩ 0 (.initial i) (i.body.take index) sc ∧
      Scope.Step ⟨p, i⟩ index sc s sc' ∧ sc.KeptIn r ∧ sc.locals <:+ r.locals := by
  obtain ⟨before, after, hBody, rfl⟩ := exists_split_of_getElem? hIndex
  obtain ⟨last, hRun, rfl⟩ := run_of_resolveInstruction h
  have hNodup := (checkDerivations_ok (resolveInstruction_eq_ok_iff.mp h).1).1
  have hTake : i.body.take before.length = before := by
    rw [hBody, List.take_left]
  rw [hBody] at hRun
  obtain ⟨sc, sc', hBefore, hStep, hAfter⟩ := hRun.split
  rw [Nat.zero_add] at hStep hAfter
  have hRest : Scope.Run ⟨p, i⟩ before.length sc (s :: after) last := .cons hStep hAfter
  refine ⟨sc, sc', hTake.symm ▸ hBefore, hStep, ?_, hRest.locals_suffix⟩
  obtain ⟨g, hg, hAccounts, hOrigin⟩ := hRest.exists_map
  intro name ref hRef
  have hFinal : (finish i last).account? name = some (finishAccount (g ref)) := by
    change recordOf? (last.accounts.map finishAccount) name = _
    change recordOf? sc.accounts name = some ref at hRef
    rw [recordOf?_map preserving_finishAccount, hAccounts, recordOf?_map hg, hRef]
    rfl
  refine ⟨_, hFinal, (preserving_finishAccount _).2.1.trans (hg ref).2.1, fun hDerived => ?_⟩
  -- its derivation is among the statements before, so none of the rest is one
  have hEstablished : Scope.Established before sc := hBefore.established (.initial i)
  obtain ⟨pos, d, hd, hAccount, _⟩ :=
    hEstablished.derived ref (mem_of_recordOf?_eq_some hRef) hDerived
  have hOther : ∀ d' ∈ derivations (s :: after), d'.account ≠ ref.name := by
    rw [hBody, derivations, List.filterMap_append, List.map_append] at hNodup
    intro d' hd' hSame
    refine (List.nodup_append.mp hNodup).2.2 d.account ?_ d'.account ?_ (hAccount.trans hSame.symm)
    · exact List.mem_map.mpr ⟨d, mem_derivations.mpr ⟨pos, hd⟩, rfl⟩
    · exact List.mem_map.mpr ⟨d', hd', rfl⟩
  have hAddress : (finishAccount (g ref)).address = ref.address :=
    congrArg Origin.address ((origin_finishAccount _).trans (hOrigin ref hOther))
  rw [AccountRef.isProgramDerived, hAddress]
  exact hDerived

/-- A statement of the body was accepted in a scope that the statements before it established. -/
theorem exists_established_step (h : resolveInstruction p i = .ok r) {before after : List Statement}
    {s : Statement} (hBody : i.body = before ++ s :: after) :
    ∃ sc sc', Scope.Step ⟨p, i⟩ before.length sc s sc' ∧ sc.KeptIn r ∧
      Scope.Established before sc := by
  have hIndex : i.body[before.length]? = some s := by
    rw [hBody]
    simp
  have hTake : i.body.take before.length = before := by
    rw [hBody, List.take_left]
  obtain ⟨sc, sc', hRun, hStep, hKept, _⟩ := exists_step_of_getElem? h hIndex
  rw [hTake] at hRun
  exact ⟨sc, sc', hStep, hKept, hRun.established (.initial i)⟩

/-- The records of a resolved instruction are those of its account parameters, changed. -/
theorem exists_map_initial (h : resolveInstruction p i = .ok r) :
    ∃ g, Preserving g ∧ r.accounts = (Scope.initial i).accounts.map g := by
  obtain ⟨last, hRun, rfl⟩ := run_of_resolveInstruction h
  obtain ⟨g, hg, hAccounts, _⟩ := hRun.exists_map
  refine ⟨finishAccount ∘ g, fun a => ?_, ?_⟩
  · obtain ⟨hName, hRole, hMutable⟩ := hg a
    obtain ⟨hName', hRole', hMutable'⟩ := preserving_finishAccount (g a)
    exact ⟨hName'.trans hName, hRole'.trans hRole, fun ha => hMutable' (hMutable ha)⟩
  · rw [← List.map_map, ← hAccounts]
    rfl

theorem names_of_resolveInstruction (h : resolveInstruction p i = .ok r) :
    r.accounts.map (·.name) = i.accounts.map (·.name) := by
  obtain ⟨g, hg, hAccounts⟩ := exists_map_initial h
  rw [hAccounts, names_map hg, Instruction.accounts]
  simp only [Scope.initial]
  induction i.params with
  | nil => rfl
  | cons q qs ih =>
    cases hType : q.type with
    | account role => simp [hType, DataType.isAccount, ih]
    | value t => simp [hType, DataType.isAccount, ih]

theorem exists_param_of_mem (h : resolveInstruction p i = .ok r) {a : AccountRef}
    (ha : a ∈ r.accounts) : ∃ q ∈ i.params, q.name = a.name ∧ q.type = .account a.role := by
  obtain ⟨g, hg, hAccounts⟩ := exists_map_initial h
  rw [hAccounts] at ha
  obtain ⟨b, hb, rfl⟩ := List.mem_map.mp ha
  obtain ⟨q, hq, hParam⟩ := List.mem_filterMap.mp hb
  split at hParam
  · rename_i role hType
    obtain rfl := Option.some.inj hParam
    obtain ⟨hName, hRole, _⟩ := hg ⟨q.name, role, q.pos, .given, none, none, false, none⟩
    exact ⟨q, hq, hName.symm, hType.trans (congrArg DataType.account hRole.symm)⟩
  · cases hParam

theorem nodup_names (hi : i.DistinctParams) (h : resolveInstruction p i = .ok r) :
    (r.accounts.map (·.name)).Nodup := by
  obtain ⟨g, hg, hAccounts⟩ := exists_map_initial h
  rw [hAccounts, names_map hg]
  exact (Scope.SoundRecords.initial (p := p) hi).1

theorem account?_of_mem_accountNames (h : resolveInstruction p i = .ok r) {s : Statement}
    (hs : s ∈ i.body) {name : Text} (hName : name ∈ s.accountNames) :
    ∃ a, r.account? name = some a := by
  obtain ⟨index, hIndex⟩ := List.mem_iff_getElem?.mp hs
  obtain ⟨sc, sc', _, hStep, hKept, _⟩ := exists_step_of_getElem? h hIndex
  obtain ⟨ref, hRef⟩ := hStep.account?_of_mem name hName
  obtain ⟨a, ha, _⟩ := hKept name ref hRef
  exact ⟨a, ha⟩

theorem system_mem_programs (sc : Scope) {s : Statement} (hs : s ∈ i.body)
    (hCall : isSystemCall s = true) : ProgramAccount.system ∈ (finish i sc).programs := by
  have hAny : i.body.any isSystemCall = true := List.any_eq_true.mpr ⟨s, hs, hCall⟩
  simp [finish, needsSystem, hAny]

/-- The token program that calls go to is a parameter or is added to the context. -/
theorem tokenProgram_of_call (sc : Scope) {s : Statement} (hs : s ∈ i.body)
    (hCall : isTokenCall s = true) :
    ∃ name, (finish i sc).tokenProgram = some name ∧
      ((∃ a ∈ (finish i sc).accounts, a.name = name) ∨
        name = ProgramAccount.token.name ∧ ProgramAccount.token ∈ (finish i sc).programs) := by
  have hNeeds : needsToken (sc.accounts.map finishAccount) i.body = true := by
    rw [needsToken, Bool.or_eq_true]
    exact .inr (List.any_eq_true.mpr ⟨s, hs, hCall⟩)
  cases hDeclared : declaredTokenProgram (sc.accounts.map finishAccount) with
  | none =>
    refine ⟨ProgramAccount.token.name, ?_, .inr ⟨rfl, ?_⟩⟩ <;>
      simp [finish, hNeeds, hDeclared]
  | some name =>
    refine ⟨name, by simp [finish, hDeclared], .inl ?_⟩
    obtain ⟨a, ha, hName⟩ := List.mem_map.mp (List.mem_of_getLast? hDeclared)
    exact ⟨a, (List.mem_filter.mp ha).1, hName⟩

end Resolution

end AnchorScript
