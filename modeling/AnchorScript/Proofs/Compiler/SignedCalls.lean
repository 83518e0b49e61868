import AnchorScript.Proofs.Handler.SignerSeeds
import AnchorScript.Proofs.Handler.Statements
import AnchorScript.Proofs.Resolution.Mutability

/-!
# Which calls are signed

A call needs signer seeds where its signing party is an address of this program, and must have none
where no statement derives the party. An associated token account is in between: a statement derives
it, but from no seeds of this program, and a call in its name is accepted with seeds and without.
-/

namespace AnchorScript

open Outcome

def Statement.call? : Statement → Option CrossProgramCall
  | .call _ c => some c
  | _ => none

def Invocation.isSigned (inv : Invocation) : Bool := inv.signer.isSome

/-- The call is signed exactly if its signing party is an address of this program, or is an
associated token account and the call is written with seeds all the same. -/
structure SignedCall (i : ResolvedInstruction) (c : CrossProgramCall) (inv : Invocation) : Prop where
  action : inv.action = c.action
  signed : ∃ a, i.account? c.signer = some a ∧ (inv.isSigned = true ↔
    a.isProgramDerived = true ∨ a.address.isAssociated = true ∧ c.signerSeeds.isSome = true)

namespace Scope

variable {sc : Scope} {env : Surroundings} {pos : SourcePos} {c : CrossProgramCall}
  {seeds : Option (List Seed)}

theorem derivation?_of_callSeeds (h : sc.callSeeds env pos c = .ok seeds)
    (hSeeds : c.signerSeeds.isSome = true) : (env.derivation? c.signer).isSome = true := by
  unfold callSeeds at h
  split at h
  · rename_i hNone
    rw [hNone] at hSeeds
    cases hSeeds
  · simp only [refused_or_eq_ok_iff, Bool.not_eq_true', Bool.not_eq_false] at h
    exact h.1

/-- A derived account that signs without seeds is known to be an associated token account. -/
theorem isAssociated_of_callSeeds (h : sc.callSeeds env pos c = .ok seeds)
    (hSeeds : c.signerSeeds.isSome = false)
    (hDerived : (env.derivation? c.signer).isSome = true) :
    ∃ ref, sc.account? c.signer = some ref ∧ ref.address.isAssociated = true := by
  unfold callSeeds at h
  split at h
  · simp only [refused_or_eq_ok_iff, hDerived, Bool.true_and, Bool.not_eq_true] at h
    cases hRef : sc.account? c.signer with
    | none => simp [hRef] at h
    | some ref => exact ⟨ref, rfl, by simpa [hRef] using h.1⟩
  · rename_i hSome
    rw [hSome] at hSeeds
    cases hSeeds

end Scope

theorem CallAction.signer_mem_participants (action : CallAction) :
    action.signer ∈ action.participants := by
  cases action <;> simp [signer, participants]

namespace Resolution

variable {p : Program} {i : Instruction} {r : ResolvedInstruction} {a : AccountRef}

theorem isSome_derivation?_iff {account : Text} :
    ((⟨p, i⟩ : Surroundings).derivation? account).isSome = true ↔
      ∃ pos d, Statement.derive pos d ∈ i.body ∧ d.account = account := by
  rw [Surroundings.derivation?_eq_find?, List.find?_isSome]
  simp only [decide_eq_true_eq, mem_derivations]
  constructor
  · rintro ⟨d, ⟨pos, hMem⟩, hAccount⟩
    exact ⟨pos, d, hMem, hAccount⟩
  · rintro ⟨pos, d, hMem, hAccount⟩
    exact ⟨d, ⟨pos, hMem⟩, hAccount⟩

theorem isProgramDerived_or_isAssociated (h : resolveInstruction p i = .ok r) (ha : a ∈ r.accounts)
    {pos : SourcePos} {d : Derive} (hMem : Statement.derive pos d ∈ i.body)
    (hName : a.name = d.account) :
    a.isProgramDerived = true ∨ a.address.isAssociated = true := by
  obtain ⟨_, sc, ref, seeds, o, _, _, _, hAddress, _, hFinal⟩ := exists_origin_of_derive h hMem
  have hIs : a.address = o.address := congrArg Origin.address (hFinal a ha hName)
  obtain ⟨hAssociated, hDerived, _⟩ := Scope.addressSource_ok hAddress
  rw [AccountRef.isProgramDerived, hIs, hAssociated, hDerived]
  cases d.form.isAssociated with
  | false => exact .inl rfl
  | true => exact .inr rfl

/-- What the signing party of a call is once all statements are resolved, wherever the call and the
derivation of the party stand. -/
theorem signerSeeds_iff (hi : i.DistinctParams) (h : resolveInstruction p i = .ok r) {index : Nat}
    {pos : SourcePos} {c : CrossProgramCall} (hIndex : i.body[index]? = some (.call pos c)) :
    ∃ a, r.account? c.signer = some a ∧ (c.signerSeeds.isSome = true ↔
      a.isProgramDerived = true ∨ a.address.isAssociated = true ∧ c.signerSeeds.isSome = true) := by
  obtain ⟨sc, sc', hRun, hStep, hKept, _⟩ := exists_step_of_getElem? h hIndex
  obtain ⟨ref, hRef⟩ := hStep.account?_of_mem c.signer (CallAction.signer_mem_participants _)
  obtain ⟨a, ha, hRole, _⟩ := hKept c.signer ref hRef
  have hMem : a ∈ r.accounts := mem_of_recordOf?_eq_some ha
  have hName : a.name = c.signer := name_of_recordOf?_eq_some ha
  refine ⟨a, ha, ?_⟩
  cases hStep with
  | call _ _ _ hCall =>
    constructor
    · intro hSeeds
      obtain ⟨dpos, d, hd, hAccount⟩ :=
        isSome_derivation?_iff.mp (Scope.derivation?_of_callSeeds hCall hSeeds)
      rcases isProgramDerived_or_isAssociated h hMem hd (hName.trans hAccount.symm) with
        hDerived | hAssociated
      · exact .inl hDerived
      · exact .inr ⟨hAssociated, hSeeds⟩
    · rintro (hDerived | ⟨_, hSeeds⟩)
      · by_contra hNone
        obtain ⟨dpos, d, hd, hAccount, _⟩ := (isProgramDerived_iff h hMem).mp hDerived
        obtain ⟨ref', hRef', hAssociated⟩ := Scope.isAssociated_of_callSeeds hCall
          (by simpa using hNone) (isSome_derivation?_iff.mpr ⟨dpos, d, hd, hAccount.trans hName⟩)
        obtain rfl : ref = ref' := Option.some.inj (hRef.symm.trans hRef')
        -- the role tells an associated account from an address of this program at any time
        have hRecords : Scope.SoundRecords ⟨p, i⟩ sc :=
          hRun.soundRecords (fun d hd d' hd' => derivation_unique h hd hd')
            (fun s hs => List.mem_of_mem_take hs) (.initial hi)
        have hRole' := ((hRecords.2 ref (mem_of_recordOf?_eq_some hRef)).associated hAssociated).role
        have hNotAssociated := ((sound_of_resolveInstruction hi h hMem).derived hDerived).2.2
        exact hNotAssociated (hRole.trans hRole')
      · exact hSeeds

end Resolution

namespace Handler

theorem filterMap_call? (body : List Statement) (index : Nat) :
    ((body.zipIdx index).filter (·.1.isCarriedOut)).filterMap (·.1.call?) =
      body.filterMap Statement.call? := by
  induction body generalizing index with
  | nil => rfl
  | cons s rest ih =>
    rw [List.zipIdx_cons]
    cases s with
    | call pos c => exact congrArg (c :: ·) (ih (index + 1))
    | _ => exact ih (index + 1)

theorem signedCall_of_translates {p : Program} {r : ResolvedInstruction} {names : Names}
    {index : Nat} {s : Statement} {t : HandlerStmt} (hi : r.source.DistinctParams)
    (h : Resolution.resolveInstruction p r.source = .ok r)
    (hIndex : r.source.body[index]? = some s) (hTranslates : Translates ⟨p, r⟩ names index s t) :
    Option.Rel (SignedCall r) s.call? t.invocation? := by
  cases hTranslates with
  | write => exact .none
  | bind => exact .none
  | @invoke generated bound pos c inv hInvocation =>
    have hSigned : inv.isSigned = c.signerSeeds.isSome := by
      rw [Invocation.isSigned, signer_of_invocation hInvocation, Option.isSome_map]
    have hAction : inv.action = c.action := by
      simp only [invocation, bind_eq_ok_iff, pure_eq_ok_iff] at hInvocation
      obtain ⟨_, _, rfl⟩ := hInvocation
      rfl
    refine .some ⟨hAction, ?_⟩
    rw [hSigned]
    exact Resolution.signerSeeds_iff hi h hIndex

theorem signedCalls_of_ofInstruction {p : Program} {r : ResolvedInstruction} {t : Handler}
    (hi : r.source.DistinctParams) (h : Resolution.resolveInstruction p r.source = .ok r)
    (hHandler : ofInstruction p r = .ok t) :
    List.Forall₂ (SignedCall r) (r.source.body.filterMap Statement.call?)
      (t.body.filterMap HandlerStmt.invocation?) := by
  simp only [ofInstruction, bind_eq_ok_iff, pure_eq_ok_iff] at hHandler
  obtain ⟨_, _, names, _, body, hBody, rfl⟩ := hHandler
  have hTranslated := forall₂_imp_of_mem (translates_of_stmtsOf hBody)
    (S := fun s t => Option.Rel (SignedCall r) s.1.call? t.invocation?) (by
      rintro ⟨s, index⟩ hs t hTranslates
      have hIndex : r.source.body[index]? = some s :=
        List.mem_zipIdx_iff_getElem?.mp (List.mem_filter.mp hs).1
      exact signedCall_of_translates hi h hIndex hTranslates)
  rw [← filterMap_call? r.source.body 0]
  exact List.rel_filterMap (fun _ _ hRel => hRel) hTranslated

end Handler

/-- In the handlers of an accepted source a call is signed exactly if its signing party is an
address of this program, or an associated token account that the source gives seeds for. -/
theorem handlers_signed_iff {o : CompileOptions} {name src : Text} {r : ResolvedProgram}
    {hs : List Handler} (h : resolveSource o name src = .ok r) (hHandlers : r.handlers = .ok hs) :
    List.Forall₂ (fun i t => List.Forall₂ (SignedCall i) (i.source.body.filterMap Statement.call?)
      (t.body.filterMap HandlerStmt.invocation?)) r.instructions hs := by
  refine forall₂_imp_of_mem (mapM_eq_ok_iff.mp hHandlers) ?_
  intro i hi t ht
  obtain ⟨hDistinct, hInstruction⟩ := resolveSource_of_mem h hi
  exact Handler.signedCalls_of_ofInstruction hDistinct hInstruction ht

/-- A program that burns tokens in the name of an associated token account and gives seeds for
it. -/
def associatedSignerSource : Text := Text.join "\n" [
  "export default class P \x7b",
  "static PROGRAM_ID = new Pubkey('11111111111111111111111111111111')",
  "run(p: Signer, m: Mint, s: S, t: AssociatedTokenAccount) \x7b",
  "t.derive(m, p)",
  "TokenProgram.burn(m, t, t, 1, [s.b])",
  "\x7d\x7d",
  "interface S extends Account \x7b b: u8 \x7d"]

theorem associatedSignerSource_signed : ∃ r hs,
    resolveSource {} "p.ts" associatedSignerSource = .ok r ∧ r.handlers = .ok hs ∧
      ∃ i ∈ r.instructions, ∃ c ∈ i.source.body.filterMap Statement.call?, ∃ inv,
        SignedCall i c inv ∧ inv.isSigned = true ∧
          ∃ a, i.account? c.signer = some a ∧ a.isProgramDerived = false := by
  obtain ⟨r, hr, hChecked⟩ := exists_ok_of_any (x := resolveSource {} "p.ts" associatedSignerSource)
    (fun r => r.handlers.toOption.any (fun hs => hs.all fun t =>
        (t.body.filterMap HandlerStmt.invocation?).all Invocation.isSigned) &&
      r.instructions.any fun i => (i.source.body.filterMap Statement.call?).any fun c =>
        (i.account? c.signer).any (!·.isProgramDerived)) (by
      simp (disch := rfl) only [associatedSignerSource, Text.ofString_literal]
      decide +kernel)
  obtain ⟨hHandlers, hCalls⟩ := Bool.and_eq_true_iff.mp hChecked
  obtain ⟨hs, hHandlers, hSigned⟩ := exists_ok_of_any _ hHandlers
  obtain ⟨i, hi, hCalls⟩ := List.any_eq_true.mp hCalls
  obtain ⟨c, hc, hParty⟩ := List.any_eq_true.mp hCalls
  obtain ⟨t, ht, hBodies⟩ := exists_of_mem_left (handlers_signed_iff hr hHandlers) hi
  obtain ⟨inv, hInv, hCall⟩ := exists_of_mem_left hBodies hc
  obtain ⟨a, ha, hNot⟩ := (Option.any_eq_true _ _).mp hParty
  exact ⟨r, hs, hr, hHandlers, i, hi, c, hc, inv, hCall,
    List.all_eq_true.mp (List.all_eq_true.mp hSigned t ht) inv hInv, a, ha, by simpa using hNot⟩

end AnchorScript
