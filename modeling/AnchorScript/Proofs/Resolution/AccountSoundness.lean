import AnchorScript.Proofs.Resolution.DerivationCheck

/-!
# Every account record is sound

A derivation leaves the record it fills in sound, every other statement keeps the origins of the
records, and so each step keeps all records sound. The main statement is about the records of a
whole program.
-/

namespace AnchorScript

open Outcome

namespace AccountRef

/-- The record that an accepted derivation fills in is sound among the records it leaves. -/
theorem sound_of_derivation {sc : Scope} {env : Surroundings} {pos : SourcePos} {d : Derive}
    {ref : AccountRef} {seeds : List Seed} {o : Origin}
    (hUnique : ∀ d ∈ derivations env.instruction.body, ∀ d' ∈ derivations env.instruction.body,
      d.account = d'.account → d = d')
    (hMem : d ∈ derivations env.instruction.body) (hNodup : (sc.accounts.map (·.name)).Nodup)
    (hRef : sc.account? d.account = some ref)
    (hForm : Scope.checkForm env pos ref d = .ok ())
    (hToken : sc.tokenParties env pos ref.name d.form = .ok o.token)
    (hAddress : sc.addressSource env d seeds = .ok o.address)
    (hInit : sc.initialization env pos ref d = .ok o.init) :
    Sound env.program env.instruction (sc.accounts.map (Effect.derive d.account o).apply)
      ((Effect.derive d.account o).apply ref) := by
  have hg := (Effect.derive d.account o).preserving_apply
  have hName : ref.name = d.account := name_of_recordOf?_eq_some hRef
  have hOrigin : ((Effect.derive d.account o).apply ref).origin = o := by
    simp [Effect.derive, hName]
  have hAddressEq := congrArg Origin.address hOrigin
  have hTokenEq := congrArg Origin.token hOrigin
  have hInitEq := congrArg Origin.init hOrigin
  simp only [origin] at hAddressEq hTokenEq hInitEq
  obtain ⟨hNotSigner, hNotProgram, hAssociated, hNoInit⟩ := Scope.checkForm_ok hForm
  obtain ⟨hIsAssociated, hIsDerived, _, hBump⟩ := Scope.addressSource_ok hAddress
  have hBumpNone : d.init.isSome = true → o.address.bumpField? = none := by
    intro hSome
    cases hField : o.address.bumpField? with
    | none => rfl
    | some bump =>
      obtain ⟨values, v, hWith, _⟩ := hBump bump hField
      rw [hNoInit values v hWith] at hSome
      cases hSome
  constructor
  · intro c hc
    rw [hInitEq] at hc
    obtain ⟨request, hRequest, hSpace, hPayer⟩ := (Scope.initialization_ok hInit).2 c hc
    obtain ⟨hRole, hState⟩ := Scope.allocation_ok hSpace
    obtain ⟨⟨s, hs, hSigner⟩, hOnly⟩ := Scope.payer_ok hNodup hPayer
    have hNone := hBumpNone (by rw [hRequest]; rfl)
    refine ⟨hRole, ?_, ?_, ?_, ⟨d, hMem, hName.symm, by rw [hRequest]; rfl⟩, ?_, hState⟩
    · rw [hAddressEq]
      exact hNone
    · intro values bump hStored
      rw [← hAddressEq, hStored] at hNone
      cases hNone
    · refine ⟨_, ?_, (hg s).2.1.trans hSigner, ?_⟩
      · rw [recordOf?_map hg, hs, Option.map_some]
      · rw [Effect.isMutable_apply, Effect.derive, hc, name_of_recordOf?_eq_some hs]
        simp
    · intro d' hd' hAccount hLeft
      rw [hUnique d' hd' d hMem (hAccount.trans hName), hRequest] at hLeft
      rw [signerNames_map hg]
      cases hLeft
      exact hOnly rfl
  · rw [hAddressEq]
    cases o.address <;> simp [AddressSource.bumpField?]
  · intro bump hField
    rw [hAddressEq] at hField
    obtain ⟨values, v, _, hHeld⟩ := hBump bump hField
    exact (Scope.bumpField_ok hUnique hHeld).map hg
  · intro hDerived
    rw [isProgramDerived, hAddressEq, hIsDerived, Bool.not_eq_true'] at hDerived
    refine ⟨hNotSigner, hNotProgram, fun hRole => ?_⟩
    rw [hAssociated.mpr hRole] at hDerived
    cases hDerived
  · intro hIs
    rw [hAddressEq, hIsAssociated] at hIs
    obtain ⟨t, ht⟩ := Option.isSome_iff_exists.mp (Scope.tokenParties_isSome hToken hIs)
    rw [ht] at hToken
    obtain ⟨⟨m, hMint, hIsMint⟩, hAuthority⟩ := Scope.tokenParties_ok hToken
    refine ⟨hAssociated.mp hIs, t, _, hTokenEq.trans ht, ?_, (hg m).2.1.trans hIsMint, ?_⟩
    · rw [recordOf?_map hg, hMint, Option.map_some]
    · rw [recordOf?_map hg, Option.isSome_map]
      exact hAuthority

theorem sound_of_initial {p : Program} {i : Instruction} {accounts : List AccountRef}
    {a : AccountRef} (ha : a ∈ (Scope.initial i).accounts) : Sound p i accounts a := by
  obtain ⟨param, _, hParam⟩ := List.mem_filterMap.mp ha
  split at hParam
  · cases hParam
    exact ⟨(fun c h => by cases h), by simp [AddressSource.bumpField?], (fun b h => by cases h),
      (fun h => by cases h), (fun h => by cases h)⟩
  · cases hParam

end AccountRef

namespace Scope

/-- The records of a scope have distinct names and are sound. -/
def SoundRecords (env : Surroundings) (sc : Scope) : Prop :=
  (sc.accounts.map (·.name)).Nodup ∧
    ∀ a ∈ sc.accounts, a.Sound env.program env.instruction sc.accounts

theorem SoundRecords.initial {p : Program} {i : Instruction} (hi : i.DistinctParams) :
    SoundRecords ⟨p, i⟩ (.initial i) := by
  refine ⟨?_, fun a ha => AccountRef.sound_of_initial ha⟩
  refine List.Nodup.sublist ?_ hi
  simp only [Scope.initial]
  induction i.params with
  | nil => exact .slnil
  | cons param params ih =>
    rw [List.filterMap_cons, List.map_cons]
    split
    · exact ih.cons _
    · rename_i a ha
      split at ha
      · cases ha
        exact ih.cons_cons _
      · cases ha

theorem SoundRecords.affect {env : Surroundings} {sc : Scope} {e : Effect}
    (h : SoundRecords env sc) (hOrigin : ∀ name, e.origin? name = none) :
    SoundRecords env (sc.affect e) := by
  refine ⟨?_, ?_⟩
  · rw [Scope.affect, names_map e.preserving_apply]
    exact h.1
  · intro b hb
    obtain ⟨a, ha, rfl⟩ := List.mem_map.mp hb
    refine (h.2 a ha).map e.preserving_apply ?_
    rw [Effect.origin_apply, hOrigin, Option.getD_none]

theorem SoundRecords.step {env : Surroundings} {index : Nat} {sc sc' : Scope} {s : Statement}
    (hUnique : ∀ d ∈ derivations env.instruction.body, ∀ d' ∈ derivations env.instruction.body,
      d.account = d'.account → d = d')
    (hs : s ∈ env.instruction.body) (h : SoundRecords env sc) (hStep : Step env index sc s sc') :
    SoundRecords env sc' := by
  cases hStep with
  | @derive pos d ref seeds o hRef hForm hSeeds hToken hAddress hInit =>
    have hMem : d ∈ derivations env.instruction.body := mem_derivations.mpr ⟨pos, hs⟩
    refine ⟨?_, ?_⟩
    · change ((sc.accounts.map (Effect.derive d.account o).apply).map (·.name)).Nodup
      rw [names_map (Effect.preserving_apply _)]
      exact h.1
    · intro b hb
      obtain ⟨a, ha, rfl⟩ := List.mem_map.mp hb
      by_cases hName : a.name = d.account
      · have hRecord := recordOf?_eq_some_of_mem h.1 ha
        rw [hName] at hRecord
        cases hRecord.symm.trans hRef
        exact AccountRef.sound_of_derivation hUnique hMem h.1 hRef hForm hToken hAddress hInit
      · refine (h.2 a ha).map (Effect.preserving_apply _) ?_
        simp [Effect.derive, hName]
  | assign => exact h.affect fun _ => rfl
  | call => exact h.affect fun _ => rfl
  | bind => exact h
  | close => exact h.affect fun _ => rfl

theorem Run.soundRecords {env : Surroundings} {index : Nat} {sc sc' : Scope}
    {body : List Statement} (h : Run env index sc body sc')
    (hUnique : ∀ d ∈ derivations env.instruction.body, ∀ d' ∈ derivations env.instruction.body,
      d.account = d'.account → d = d')
    (hBody : ∀ s ∈ body, s ∈ env.instruction.body) (hStart : SoundRecords env sc) :
    SoundRecords env sc' := by
  refine h.induction (P := fun _ sc => SoundRecords env sc) hStart ?_
  rintro before s after _ sc₁ sc₂ rfl hSound hStep
  exact hSound.step hUnique (hBody s (List.mem_append_right before List.mem_cons_self)) hStep

end Scope

namespace Resolution

theorem sound_of_resolveInstruction {p : Program} {i : Instruction} {r : ResolvedInstruction}
    (hi : i.DistinctParams) (h : resolveInstruction p i = .ok r) {a : AccountRef}
    (ha : a ∈ r.accounts) : a.Sound p i r.accounts := by
  obtain ⟨_, sc, hRun, rfl⟩ := resolveInstruction_eq_ok_iff.mp h
  have hRecords : Scope.SoundRecords ⟨p, i⟩ sc :=
    (Scope.run_of_resolveBody hRun).soundRecords
      (fun d hd d' hd' => derivation_unique h hd hd') (fun s hs => hs) (.initial hi)
  obtain ⟨b, hb, rfl⟩ := List.mem_map.mp ha
  refine (hRecords.2 b hb).map preserving_finishAccount ?_
  rw [finishAccount]
  split <;> rfl

end Resolution

/-- Every account record of a resolved program is sound among the records of its instruction,
whatever the order of the statements. -/
theorem Program.accountRecords_sound {p : Program} {r : ResolvedProgram} (hp : p.DistinctParams)
    (h : p.resolve = .ok r) :
    ∀ i ∈ r.instructions, ∀ a ∈ i.accounts, a.Sound p i.source i.accounts := by
  obtain ⟨_, hInstructions⟩ := Program.resolve_eq_ok_iff.mp h
  intro i hi a ha
  obtain ⟨source, hSource, hResolved⟩ := exists_of_mem_right hInstructions hi
  obtain ⟨_, sc, _, rfl⟩ := Resolution.resolveInstruction_eq_ok_iff.mp hResolved
  exact Resolution.sound_of_resolveInstruction (hp source hSource) hResolved ha

/-- A vault whose address uses a bump held by another account, beside a state account and a token
account that are created. -/
def vaultProgram : Program :=
  { file := "vault.ts", name := "Vault", programId := []
    states := [{ name := "State", pos := ⟨1, 1⟩, fields := [⟨"bump", .u8, ⟨1, 1⟩⟩] }]
    instructions := [{
      name := "open", returns := none, pos := ⟨2, 1⟩
      params := [⟨"owner", .account .signer, ⟨2, 1⟩⟩, ⟨"state", .account (.state "State"), ⟨2, 2⟩⟩,
        ⟨"held", .account (.state "State"), ⟨2, 3⟩⟩, ⟨"vault", .account .systemAccount, ⟨2, 4⟩⟩,
        ⟨"coin", .account .mint, ⟨2, 5⟩⟩, ⟨"wallet", .account .associatedToken, ⟨2, 6⟩⟩]
      body := [
        .derive ⟨3, 1⟩ ⟨"wallet", .associated "coin" "owner", some ⟨some ("owner", ⟨3, 2⟩)⟩⟩,
        .derive ⟨4, 1⟩ ⟨"vault", .withBump [.string ⟨4, 2⟩ "vault", .key ⟨4, 3⟩ "held" false]
          (.field ⟨4, 4⟩ "held" "bump" false), none⟩,
        .derive ⟨5, 1⟩ ⟨"state", .seeds [.string ⟨5, 2⟩ "state", .key ⟨5, 3⟩ "owner" false],
          some ⟨none⟩⟩] }] }

theorem vaultProgram_accountRecords_sound : vaultProgram.DistinctParams ∧
    ∃ r, vaultProgram.resolve = .ok r ∧
      (r.instructions.any fun i => i.accounts.any (·.isInitialized)) = true ∧
      (r.instructions.any fun i => i.accounts.any (·.address.bumpField?.isSome)) = true ∧
      ∀ i ∈ r.instructions, ∀ a ∈ i.accounts, a.Sound vaultProgram i.source i.accounts := by
  have hParams : vaultProgram.DistinctParams := by
    intro i hi
    rw [List.mem_singleton.mp hi]
    unfold Instruction.DistinctParams
    decide
  obtain ⟨r, hr, hChecks⟩ := exists_ok_of_any (x := vaultProgram.resolve)
    (fun r => (r.instructions.any fun i => i.accounts.any (·.isInitialized)) &&
      r.instructions.any fun i => i.accounts.any (·.address.bumpField?.isSome)) (by decide)
  obtain ⟨hCreated, hBump⟩ := Bool.and_eq_true_iff.mp hChecks
  exact ⟨hParams, r, hr, hCreated, hBump, Program.accountRecords_sound hParams hr⟩

end AnchorScript
