import AnchorScript.Proofs.Resolution.Run

/-!
# Account records

The invariant of the records that resolution fills in: what a created account is, who pays for it,
where a stored bump is read and which roles can be derived. Each statement keeps it, so it holds of
every record of a resolved instruction, whatever the order of the body. The role of an account, the
type of an argument and the type of a state field are fixed by the declarations, and the records
agree with them in every scope.
-/

namespace AnchorScript

open Outcome

def recordOf? (accounts : List AccountRef) (name : Text) : Option AccountRef :=
  accounts.find? (·.name = name)

def signerNames (accounts : List AccountRef) : List Text :=
  (accounts.filter (·.role = .signer)).map (·.name)

/-- No two parameters of an instruction share a name. Extraction refuses a method where two do. -/
def Instruction.DistinctParams (i : Instruction) : Prop := (i.params.map (·.name)).Nodup

def Program.DistinctParams (p : Program) : Prop := ∀ i ∈ p.instructions, i.DistinctParams

namespace AccountRef

/-- A created account holds data or tokens, has no stored bump, and is paid for by a signer that is
written; a payer that the source leaves open is the only signer. -/
structure CreatedSoundly (p : Program) (i : Instruction) (accounts : List AccountRef)
    (a : AccountRef) (created : Initialization) : Prop where
  role : a.role.isState = true ∨ a.role = .tokenAccount ∨ a.role = .associatedToken
  bumpField : a.address.bumpField? = none
  address : ∀ seeds bump, a.address ≠ .stored seeds bump
  payer : ∃ s, recordOf? accounts created.payer = some s ∧ s.role = .signer ∧ s.isMutable = true
  requested : ∃ d ∈ derivations i.body, d.account = a.name ∧ d.init.isSome = true
  onlySigner : ∀ d ∈ derivations i.body, d.account = a.name → d.init = some ⟨none⟩ →
    signerNames accounts = [created.payer]
  space : ∀ n, a.role = .state n → ∃ st, p.state? n = some st ∧ created.space = some st.space

/-- A stored bump is a `u8` field of a state account that the instruction does not create. -/
structure BumpHeldSoundly (p : Program) (i : Instruction) (accounts : List AccountRef)
    (bump : FieldRef) : Prop where
  holder : ∃ h n st f, recordOf? accounts bump.account = some h ∧ h.role = .state n ∧
    p.state? n = some st ∧ st.field? bump.field = some f ∧ f.type.kind = .int ⟨.w8, false⟩
  existing : ∀ d ∈ derivations i.body, d.account = bump.account → d.init = none

/-- An associated token account has a mint that is one and an authority among the accounts. -/
structure AssociatedSoundly (accounts : List AccountRef) (a : AccountRef) : Prop where
  role : a.role = .associatedToken
  parties : ∃ t m, a.token = some t ∧ recordOf? accounts t.mint = some m ∧ m.role = .mint ∧
    (recordOf? accounts t.authority).isSome = true

/-- What holds of every record, given the records of the instruction's accounts. -/
structure Sound (p : Program) (i : Instruction) (accounts : List AccountRef) (a : AccountRef) :
    Prop where
  created : ∀ c, a.init = some c → CreatedSoundly p i accounts a c
  withBump : (∃ seeds bump, a.address = .stored seeds bump) ↔ a.address.bumpField?.isSome = true
  bumpHeld : ∀ bump, a.address.bumpField? = some bump → BumpHeldSoundly p i accounts bump
  derived : a.isProgramDerived = true →
    a.role ≠ .signer ∧ a.role ≠ .tokenProgram ∧ a.role ≠ .associatedToken
  associated : a.address.isAssociated = true → AssociatedSoundly accounts a

end AccountRef

/-- Records keep their names and roles, and stay writable. -/
def Preserving (g : AccountRef → AccountRef) : Prop :=
  ∀ a, (g a).name = a.name ∧ (g a).role = a.role ∧ (a.isMutable = true → (g a).isMutable = true)

theorem Effect.preserving_apply (e : Effect) : Preserving e.apply := by
  intro a
  refine ⟨rfl, rfl, fun h => ?_⟩
  rw [isMutable_apply, h, Bool.true_or]

theorem Resolution.preserving_finishAccount : Preserving finishAccount := by
  intro a
  rw [finishAccount]
  split
  · exact ⟨rfl, rfl, fun _ => rfl⟩
  · exact ⟨rfl, rfl, id⟩

section Lookup

variable {accounts : List AccountRef} {g : AccountRef → AccountRef} {name : Text} {a : AccountRef}

theorem recordOf?_map (hg : Preserving g) :
    recordOf? (accounts.map g) name = (recordOf? accounts name).map g := by
  rw [recordOf?, List.find?_map]
  congr 2
  funext a
  simp [(hg a).1]

theorem names_map (hg : Preserving g) :
    (accounts.map g).map (·.name) = accounts.map (·.name) := by
  rw [List.map_map]
  exact List.map_congr_left fun a _ => (hg a).1

theorem signerNames_map (hg : Preserving g) :
    signerNames (accounts.map g) = signerNames accounts := by
  have hRole : ((fun a : AccountRef => decide (a.role = .signer)) ∘ g) =
      fun a => decide (a.role = .signer) := by
    funext a
    simp [(hg a).2.1]
  rw [signerNames, List.filter_map, hRole, names_map hg]
  rfl

theorem mem_of_recordOf?_eq_some (h : recordOf? accounts name = some a) : a ∈ accounts :=
  List.mem_of_find?_eq_some h

theorem name_of_recordOf?_eq_some (h : recordOf? accounts name = some a) : a.name = name := by
  simpa using List.find?_some h

/-- Where names are distinct, a record is found by its name. -/
theorem recordOf?_eq_some_of_mem (hNodup : (accounts.map (·.name)).Nodup) (ha : a ∈ accounts) :
    recordOf? accounts a.name = some a := by
  obtain ⟨b, hb⟩ : ∃ b, recordOf? accounts a.name = some b :=
    Option.isSome_iff_exists.mp (List.find?_isSome.mpr ⟨a, ha, by simp⟩)
  rw [hb, List.inj_on_of_nodup_map hNodup (mem_of_recordOf?_eq_some hb) ha
    (name_of_recordOf?_eq_some hb)]

end Lookup

namespace AccountRef

variable {p : Program} {i : Instruction} {accounts : List AccountRef} {a : AccountRef}
  {g : AccountRef → AccountRef}

theorem BumpHeldSoundly.map {bump : FieldRef} (h : BumpHeldSoundly p i accounts bump)
    (hg : Preserving g) : BumpHeldSoundly p i (accounts.map g) bump := by
  obtain ⟨holder, n, st, f, hHolder, hRole, hState, hField, hByte⟩ := h.holder
  refine ⟨⟨g holder, n, st, f, ?_, ?_, hState, hField, hByte⟩, h.existing⟩
  · rw [recordOf?_map hg, hHolder, Option.map_some]
  · rw [(hg holder).2.1, hRole]

theorem AssociatedSoundly.map (h : AssociatedSoundly accounts a) (hg : Preserving g)
    (hToken : (g a).token = a.token) : AssociatedSoundly (accounts.map g) (g a) := by
  obtain ⟨t, m, ht, hMint, hIsMint, hAuthority⟩ := h.parties
  refine ⟨(hg a).2.1.trans h.role, t, g m, hToken.trans ht, ?_, (hg m).2.1.trans hIsMint, ?_⟩
  · rw [recordOf?_map hg, hMint, Option.map_some]
  · rw [recordOf?_map hg, Option.isSome_map]
    exact hAuthority

theorem CreatedSoundly.map {created : Initialization} (h : CreatedSoundly p i accounts a created)
    (hg : Preserving g) (hAddress : (g a).address = a.address) :
    CreatedSoundly p i (accounts.map g) (g a) created where
  role := by
    rw [(hg a).2.1]
    exact h.role
  bumpField := by
    rw [hAddress]
    exact h.bumpField
  address := by
    rw [hAddress]
    exact h.address
  payer := by
    obtain ⟨s, hs, hSigner, hMutable⟩ := h.payer
    refine ⟨g s, ?_, (hg s).2.1.trans hSigner, (hg s).2.2 hMutable⟩
    rw [recordOf?_map hg, hs, Option.map_some]
  requested := by
    rw [(hg a).1]
    exact h.requested
  onlySigner := by
    rw [(hg a).1, signerNames_map hg]
    exact h.onlySigner
  space := by
    rw [(hg a).2.1]
    exact h.space

/-- A change that leaves the origin of a record alone keeps the record sound. -/
theorem Sound.map (h : Sound p i accounts a) (hg : Preserving g)
    (hOrigin : (g a).origin = a.origin) : Sound p i (accounts.map g) (g a) := by
  have hAddress : (g a).address = a.address := congrArg Origin.address hOrigin
  have hToken : (g a).token = a.token := congrArg Origin.token hOrigin
  have hInit : (g a).init = a.init := congrArg Origin.init hOrigin
  constructor
  · intro c hc
    exact (h.created c (hInit ▸ hc)).map hg hAddress
  · rw [hAddress]
    exact h.withBump
  · intro bump hBump
    exact (h.bumpHeld bump (hAddress ▸ hBump)).map hg
  · rw [isProgramDerived, hAddress, (hg a).2.1]
    exact h.derived
  · intro hAssociated
    exact (h.associated (hAddress ▸ hAssociated)).map hg hToken

end AccountRef

def Instruction.accountRole? (i : Instruction) (account : Text) : Option Role :=
  (i.param? account).bind (·.type.role?)

def Instruction.argType? (i : Instruction) (name : Text) : Option ValueType :=
  (i.param? name).bind (·.type.value?)

/-- The type of a field of a state account parameter. -/
def Program.fieldType? (p : Program) (i : Instruction) (account field : Text) : Option ValueType :=
  match i.accountRole? account with
  | some (.state n) => ((p.state? n).bind (·.field? field)).map (·.type)
  | _ => none

def HasRolesOf (i : Instruction) (accounts : List AccountRef) : Prop :=
  ∀ account, (recordOf? accounts account).map (·.role) = i.accountRole? account

namespace HasRolesOf

variable {i : Instruction} {accounts : List AccountRef}

theorem initial (hi : i.DistinctParams) : HasRolesOf i (Scope.initial i).accounts := by
  intro account
  obtain ⟨name, params, body, returns, pos⟩ := i
  simp only [Instruction.accountRole?, Instruction.param?, Instruction.DistinctParams,
    Scope.initial, recordOf?] at hi ⊢
  induction params with
  | nil => rfl
  | cons p ps ih =>
    obtain ⟨hApart, hNodup⟩ := List.nodup_cons.mp hi
    have hRest := ih hNodup
    cases hType : p.type with
    | account r =>
      by_cases hName : p.name = account
      · simp [hType, hName, DataType.role?]
      · simpa [hType, hName] using hRest
    | value t =>
      by_cases hName : p.name = account
      · have hNone : ps.find? (·.name = account) = none := by
          refine List.find?_eq_none.mpr fun q hq hSame => hApart ?_
          exact List.mem_map.mpr ⟨q, hq, (of_decide_eq_true hSame).trans hName.symm⟩
        rw [hNone] at hRest
        simpa [hType, hName, DataType.role?] using hRest
      · simpa [hType, hName] using hRest

theorem map {g : AccountRef → AccountRef} (h : HasRolesOf i accounts) (hg : Preserving g) :
    HasRolesOf i (accounts.map g) := by
  intro account
  rw [recordOf?_map hg, Option.map_map, ← h account]
  congr 1
  funext a
  exact (hg a).2.1

theorem fieldType?_eq (h : HasRolesOf i accounts) {p : Program} {account field : Text} :
    p.fieldType? i account field = ((recordOf? accounts account).bind fun a =>
      ((⟨p, i⟩ : Surroundings).stateOf? a).bind (·.field? field)).map (·.type) := by
  rw [Program.fieldType?, ← h account]
  cases recordOf? accounts account with
  | none => rfl
  | some a =>
    simp only [Option.map_some, Option.bind_some, Surroundings.stateOf?]
    cases a.role <;> rfl

end HasRolesOf

namespace Scope

/-- A step changes the records by an effect, and the origin of at most one account. -/
theorem Step.exists_effect {env : Surroundings} {index : Nat} {sc sc' : Scope} {s : Statement}
    (h : Step env index sc s sc') : ∃ e : Effect, sc'.accounts = sc.accounts.map e.apply ∧
      ∀ account, (∀ d, s.derivation? = some d → d.account ≠ account) →
        e.origin? account = none := by
  cases h with
  | @derive pos d ref seeds o =>
    refine ⟨.derive d.account o, rfl, fun account hOther => ?_⟩
    exact if_neg (Ne.symm (hOther d rfl))
  | @assign pos a => exact ⟨.write [a.account], rfl, fun _ _ => rfl⟩
  | @call pos c => exact ⟨.write (c.action.changed.map Prod.fst), rfl, fun _ _ => rfl⟩
  | bind =>
    refine ⟨.write [], ?_, fun _ _ => rfl⟩
    exact (congrArg Scope.accounts (affect_write_nil sc)).symm
  | @close pos c => exact ⟨.close c.account c.destination, rfl, fun _ _ => rfl⟩

theorem Run.hasRolesOf {env : Surroundings} {index : Nat} {sc sc' : Scope} {body : List Statement}
    {i : Instruction} (h : Run env index sc body sc') (hStart : HasRolesOf i sc.accounts) :
    HasRolesOf i sc'.accounts := by
  induction h with
  | nil => exact hStart
  | cons hStep _ ih =>
    obtain ⟨e, hAccounts, _⟩ := hStep.exists_effect
    apply ih
    rw [hAccounts]
    exact hStart.map e.preserving_apply

/-- A record keeps its origin while no statement derives the account. -/
theorem Run.origin_eq {env : Surroundings} {index : Nat} {sc sc' : Scope} {body : List Statement}
    {account : Text} {o : Origin} (h : Run env index sc body sc')
    (hOther : ∀ d ∈ derivations body, d.account ≠ account)
    (hStart : ∀ a ∈ sc.accounts, a.name = account → a.origin = o) :
    ∀ a ∈ sc'.accounts, a.name = account → a.origin = o := by
  induction h with
  | nil => exact hStart
  | @cons index sc mid sc' s rest hStep _ ih =>
    obtain ⟨e, hAccounts, hOrigin⟩ := hStep.exists_effect
    have hHere : e.origin? account = none := by
      refine hOrigin account fun d hd => hOther d ?_
      exact List.mem_filterMap.mpr ⟨s, List.mem_cons_self, hd⟩
    apply ih
    · intro d hd
      obtain ⟨t, ht, hDerivation⟩ := List.mem_filterMap.mp hd
      exact hOther d (List.mem_filterMap.mpr ⟨t, List.mem_cons_of_mem s ht, hDerivation⟩)
    · intro b hb hName
      rw [hAccounts] at hb
      obtain ⟨a, ha, rfl⟩ := List.mem_map.mp hb
      rw [Effect.origin_apply, ← Effect.name_apply e a, hName, hHere, Option.getD_none]
      exact hStart a ha hName

theorem stateField_ok {sc : Scope} {env : Surroundings} {account field : Text} {pos : SourcePos}
    {f : StateField} (hRoles : HasRolesOf env.instruction sc.accounts)
    (h : sc.stateField env account field pos = .ok f) :
    env.program.fieldType? env.instruction account field = some f.type := by
  unfold stateField at h
  split at h
  · cases h
  · rename_i ref hRef
    split at h
    · cases h
    · rename_i st hState
      split at h
      · cases h
      · rename_i f' hField
        cases h
        change recordOf? sc.accounts account = some ref at hRef
        rw [hRoles.fieldType?_eq, hRef, Option.bind_some, hState, Option.bind_some, hField]
        rfl

end Scope

end AnchorScript
