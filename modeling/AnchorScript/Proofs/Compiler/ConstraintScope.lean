import AnchorScript.Proofs.Resolution.NamedAccounts
import AnchorScript.Proofs.Handler.BodyScope
import AnchorScript.Proofs.Program.Extraction

/-!
# Constraints are in scope

A record names other accounts: the mint and the authority of a token account and the account that a
closing pays out to. Each of them has a record itself. And where a seed of some address is an
argument, the instruction is marked as one whose constraints read arguments.

The constraints of a context struct are written from the records of one resolved instruction. The
records refer to accounts that have a field in the struct, and seeds that are arguments make the
struct list the arguments.
-/

namespace AnchorScript

open Outcome

/-- What an origin refers to is there, among accounts with these names. -/
structure Origin.Refers (names : List Text) (hasArgSeeds : Bool) (o : Origin) : Prop where
  parties : ∀ t, o.token = some t → t.mint ∈ names ∧ t.authority ∈ names
  args : ∀ s ∈ o.address.seeds, s.source.isArgument = true → hasArgSeeds = true

/-- What a record refers to is there, among accounts with these names. -/
structure AccountRef.Refers (names : List Text) (hasArgSeeds : Bool) (a : AccountRef) : Prop where
  origin : a.origin.Refers names hasArgSeeds
  refund : ∀ destination, a.closeTo = some destination → destination ∈ names

theorem Origin.Refers.mono {names : List Text} {b b' : Bool} {o : Origin} (h : o.Refers names b)
    (hArgs : b = true → b' = true) : o.Refers names b' :=
  ⟨h.parties, fun s hs hArgument => hArgs (h.args s hs hArgument)⟩

namespace Scope

variable {env : Surroundings} {index : Nat} {sc sc' : Scope} {s : Statement}

def accountNames (sc : Scope) : List Text := sc.accounts.map (·.name)

theorem mem_accountNames {name : Text} {ref : AccountRef} (h : sc.account? name = some ref) :
    name ∈ sc.accountNames :=
  List.mem_map.mpr ⟨ref, mem_of_recordOf?_eq_some h, name_of_recordOf?_eq_some h⟩

/-- What the records refer to has a record, and arguments in seeds are noted. -/
def Refers (sc : Scope) : Prop := ∀ a ∈ sc.accounts, a.Refers sc.accountNames sc.hasArgSeeds

theorem Refers.initial (i : Instruction) : (initial i).Refers := by
  intro a ha
  obtain ⟨q, _, hParam⟩ := List.mem_filterMap.mp ha
  split at hParam
  · cases hParam
    exact ⟨⟨(fun t ht => by cases ht), (fun s hs => by cases hs)⟩, (fun d hd => by cases hd)⟩
  · cases hParam

/-- An effect keeps references where the origins and the refunds that it sets refer to accounts. -/
theorem Refers.affect {e : Effect} (h : sc.Refers)
    (hAccounts : sc'.accounts = sc.accounts.map e.apply)
    (hArgs : sc.hasArgSeeds = true → sc'.hasArgSeeds = true)
    (hOrigin : ∀ name o, e.origin? name = some o → o.Refers sc.accountNames sc'.hasArgSeeds)
    (hRefund : ∀ name d, e.refund? name = some d → d ∈ sc.accountNames) : sc'.Refers := by
  have hNames : sc'.accountNames = sc.accountNames := by
    rw [accountNames, hAccounts, names_map e.preserving_apply]
    rfl
  intro b hb
  rw [hAccounts] at hb
  obtain ⟨a, ha, rfl⟩ := List.mem_map.mp hb
  rw [hNames]
  constructor
  · rw [Effect.origin_apply]
    cases hSet : e.origin? a.name with
    | none => exact (h a ha).origin.mono hArgs
    | some o => exact hOrigin a.name o hSet
  · intro destination hDestination
    rw [Effect.closeTo_apply] at hDestination
    cases hSet : e.refund? a.name with
    | none =>
      rw [hSet, Option.none_or] at hDestination
      exact (h a ha).refund destination hDestination
    | some d =>
      rw [hSet, Option.some_or] at hDestination
      exact Option.some.inj hDestination ▸ hRefund a.name d hSet

theorem origin_refers {pos : SourcePos} {d : Derive} {about : Text} {seeds : List Seed} {o : Origin}
    (hToken : sc.tokenParties env pos about d.form = .ok o.token)
    (hAddress : sc.addressSource env d seeds = .ok o.address) :
    o.Refers sc.accountNames (sc.hasArgSeeds || seeds.any (·.source.isArgument)) := by
  constructor
  · intro t ht
    rw [ht] at hToken
    obtain ⟨⟨mint, hMint, _⟩, hAuthority⟩ := tokenParties_ok hToken
    obtain ⟨authority, hAuthority⟩ := Option.isSome_iff_exists.mp hAuthority
    exact ⟨mem_accountNames hMint, mem_accountNames hAuthority⟩
  · intro s hs hArgument
    obtain ⟨hAssociated, _, hSeeds, _⟩ := addressSource_ok hAddress
    have hNot : d.form.isAssociated = false := by
      rw [← hAssociated]
      cases hSource : o.address with
      | associated =>
        rw [hSource] at hs
        cases hs
      | _ => rfl
    rw [hSeeds hNot] at hs
    rw [Bool.or_eq_true]
    exact .inr (List.any_eq_true.mpr ⟨s, hs, hArgument⟩)

theorem Refers.step (h : sc.Refers) (hStep : Step env index sc s sc') : sc'.Refers := by
  cases hStep with
  | @derive pos d ref seeds o _ _ _ hToken hAddress =>
    refine h.affect (e := .derive d.account o) rfl ?_ ?_ ?_
    · intro hArgs
      exact Bool.or_eq_true_iff.mpr (.inl hArgs)
    · intro name o' ho'
      simp only [Effect.derive] at ho'
      split at ho'
      · cases ho'
        exact origin_refers hToken hAddress
      · cases ho'
    · intro name d hd
      cases hd
  | @assign pos a =>
    exact h.affect (e := .write [a.account]) rfl id (fun _ _ ho => by cases ho)
      (fun _ _ hd => by cases hd)
  | @call pos c =>
    exact h.affect (e := .write (c.action.changed.map Prod.fst)) rfl id
      (fun _ _ ho => by cases ho) (fun _ _ hd => by cases hd)
  | bind => exact h
  | @close pos c ref hRef _ _ _ hDestination =>
    refine h.affect (e := .close c.account c.destination) rfl id (fun _ _ ho => by cases ho) ?_
    intro name d hd
    simp only [Effect.close] at hd
    split at hd
    · cases hd
      obtain ⟨target, hTarget⟩ := Option.isSome_iff_exists.mp hDestination
      exact mem_accountNames hTarget
    · cases hd

theorem Run.refers {body : List Statement} (h : Run env index sc body sc') (hStart : sc.Refers) :
    sc'.Refers := by
  induction h with
  | nil => exact hStart
  | cons hStep _ ih => exact ih (hStart.step hStep)

end Scope

/-- Every record of a resolved instruction refers to accounts of the instruction. -/
theorem Resolution.refers_of_mem {p : Program} {i : Instruction} {r : ResolvedInstruction}
    (h : resolveInstruction p i = .ok r) {a : AccountRef} (ha : a ∈ r.accounts) :
    a.Refers (r.accounts.map (·.name)) r.hasArgSeeds := by
  obtain ⟨sc, hRun, rfl⟩ := run_of_resolveInstruction h
  have hRefers := hRun.refers (.initial i)
  have hNames : (finish i sc).accounts.map (·.name) = sc.accountNames :=
    names_map preserving_finishAccount
  obtain ⟨b, hb, rfl⟩ := List.mem_map.mp ha
  rw [hNames]
  refine ⟨?_, fun destination hDestination => (hRefers b hb).refund destination ?_⟩
  · rw [origin_finishAccount]
    exact (hRefers b hb).origin
  · rw [← hDestination, finishAccount]
    split <;> rfl

/-- An argument of the source is an argument of the handler. -/
theorem exists_arg_of_argType? {i : Instruction} {name : Text} {t : ValueType}
    (h : i.argType? name = some t) : ∃ a ∈ Handler.argsOf i, a.name = Rust.ident name := by
  obtain ⟨q, hq, hValue⟩ := Option.bind_eq_some_iff.mp h
  have hName : q.name = name := by simpa using List.find?_some hq
  have hArg : q ∈ i.args := by
    refine List.mem_filter.mpr ⟨List.mem_of_find?_eq_some hq, ?_⟩
    cases hType : q.type with
    | account => simp [hType, DataType.value?] at hValue
    | value => rfl
  exact ⟨_, List.mem_map.mpr ⟨q, hArg, rfl⟩, congrArg Rust.ident hName⟩

section Constraints

variable {p : Program} {r : ResolvedInstruction} {a : AccountRef}

theorem hasAccount_of_mem_names {name : Text} (h : name ∈ r.accounts.map (·.name)) :
    (Rust.ContextStruct.ofInstruction r).HasAccount (Rust.ident name) := by
  obtain ⟨b, hb, rfl⟩ := List.mem_map.mp h
  exact hasAccount_of_mem hb

/-- Every seed of an address is what some value of a derivation denotes. -/
theorem isSeed_of_mem_seeds (hi : r.source.DistinctParams)
    (h : Resolution.resolveInstruction p r.source = .ok r) (ha : a ∈ r.accounts) :
    ∀ s ∈ a.address.seeds, ∃ v, IsSeed p r.source v s.source := by
  intro s hs
  obtain ⟨sc, hRun, hFinish⟩ := Resolution.run_of_resolveInstruction h
  have hEstablished : Scope.Established r.source.body sc := hRun.established (.initial r.source)
  have hDerived : a.isProgramDerived = true := by
    rw [AccountRef.isProgramDerived]
    cases hSource : a.address with
    | found | stored => rfl
    | given | associated =>
      rw [hSource] at hs
      cases hs
  obtain ⟨pos, d, hd, hAccount, hForm⟩ : DerivesFromSeeds r.source.body a.name := by
    rw [← hFinish] at ha
    obtain ⟨b, hb, rfl⟩ := List.mem_map.mp ha
    have hAddress : (Resolution.finishAccount b).address = b.address :=
      congrArg Origin.address (Resolution.origin_finishAccount b)
    rw [(Resolution.preserving_finishAccount b).1]
    refine hEstablished.derived b hb ?_
    rw [AccountRef.isProgramDerived, ← hAddress]
    exact hDerived
  obtain ⟨_, _, ss, hDenotes, hRecords⟩ := Resolution.addressSeeds_of_mem hi h hd hForm
  rw [(hRecords a ha hAccount.symm).2] at hs
  obtain ⟨v, _, hSeed⟩ := exists_of_mem_right hDenotes (List.mem_map_of_mem hs)
  exact ⟨v, hSeed⟩

theorem seedExpr_inScope (hRoles : HasRolesOf r.source r.accounts) {v : Value} {s : SeedSource}
    (hArgs : s.isArgument = true → r.hasArgSeeds = true) (h : IsSeed p r.source v s) :
    Rust.SeedInScope (p.states.map .ofState) (.ofInstruction r) (Rust.Constraint.seedExpr s) := by
  cases h with
  | literal => exact .literal
  | key hAccount => exact .key (hasAccount_of_accountRole? hRoles hAccount)
  | field hType => exact .field (hasField_of_fieldType? hRoles hType)
  | argument hType =>
    refine .argument ⟨Handler.argsOf r.source, ?_, exists_arg_of_argType? hType⟩
    exact if_pos (hArgs rfl)

theorem address_inScope (hi : r.source.DistinctParams)
    (h : Resolution.resolveInstruction p r.source = .ok r) (ha : a ∈ r.accounts) :
    ∀ k ∈ Rust.Constraint.ofAddress a.address,
      k.InScope (p.states.map .ofState) (.ofInstruction r) := by
  have hRoles := Resolution.hasRolesOf_of_resolveInstruction hi h
  have hSeeds : ∀ e ∈ a.address.seeds.map (Rust.Constraint.seedExpr ·.source),
      Rust.SeedInScope (p.states.map .ofState) (.ofInstruction r) e := by
    intro e he
    obtain ⟨s, hs, rfl⟩ := List.mem_map.mp he
    obtain ⟨v, hSeed⟩ := isSeed_of_mem_seeds hi h ha s hs
    exact seedExpr_inScope hRoles ((Resolution.refers_of_mem h ha).origin.args s hs) hSeed
  have hSound := Resolution.sound_of_resolveInstruction hi h ha
  cases hSource : a.address with
  | given | associated => simp [Rust.Constraint.ofAddress]
  | found ss =>
    rw [hSource] at hSeeds
    exact List.forall_mem_cons.mpr ⟨.seeds hSeeds, List.forall_mem_singleton.mpr .bump⟩
  | stored ss bump =>
    rw [hSource] at hSeeds
    obtain ⟨holder, n, st, f, hHolder, hRole, hState, hField, _⟩ :=
      (hSound.bumpHeld bump (by rw [hSource]; rfl)).holder
    have hStateOf : Surroundings.stateOf? ⟨p, r.source⟩ holder = some st := by
      rw [Surroundings.stateOf?, hRole]
      exact hState
    exact List.forall_mem_cons.mpr ⟨.seeds hSeeds,
      List.forall_mem_singleton.mpr (.stored (hasField_of_stateOf? hHolder hStateOf hField))⟩

theorem constraints_inScope (hi : r.source.DistinctParams)
    (h : Resolution.resolveInstruction p r.source = .ok r) (ha : a ∈ r.accounts) :
    ∀ k ∈ Rust.Constraint.ofAccount a, k.InScope (p.states.map .ofState) (.ofInstruction r) := by
  have hRefers := Resolution.refers_of_mem h ha
  refine List.forall_mem_append.mpr ⟨List.forall_mem_append.mpr
    ⟨List.forall_mem_append.mpr ⟨?_, address_inScope hi h ha⟩, ?_⟩, ?_⟩
  · cases hInit : a.init with
    | none =>
      dsimp only
      split
      · exact List.forall_mem_singleton.mpr .mutable
      · simp
    | some created =>
      obtain ⟨payer, hPayer, _⟩ :=
        ((Resolution.sound_of_resolveInstruction hi h ha).created created hInit).payer
      refine List.forall_mem_append.mpr ⟨List.forall_mem_cons.mpr ⟨.init,
        List.forall_mem_singleton.mpr (.payer (hasAccount_of_account? hPayer))⟩, ?_⟩
      intro k hk
      obtain ⟨bytes, _, rfl⟩ := Option.map_eq_some_iff.mp (Option.mem_toList.mp hk)
      exact .space
  · cases hToken : a.token with
    | none => simp
    | some t =>
      obtain ⟨hMint, hAuthority⟩ := hRefers.origin.parties t hToken
      exact List.forall_mem_cons.mpr ⟨.mint (hasAccount_of_mem_names hMint),
        List.forall_mem_singleton.mpr (.authority (hasAccount_of_mem_names hAuthority))⟩
  · intro k hk
    obtain ⟨destination, hClose, rfl⟩ := Option.map_eq_some_iff.mp (Option.mem_toList.mp hk)
    exact .close (hasAccount_of_mem_names (hRefers.refund destination hClose))

end Constraints

end AnchorScript
