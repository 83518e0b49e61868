import AnchorScript.Proofs.Resolution.AccountRecord

/-!
# What a derivation has checked

One lemma for each check that an accepted derivation has passed: its form against the role of the
account, the parties of a token account, the field that holds a stored bump, and the payer and size
of a created account.
-/

namespace AnchorScript

open Outcome

theorem Surroundings.derivation?_eq_find? (env : Surroundings) (account : Text) :
    env.derivation? account = (derivations env.instruction.body).find? (·.account = account) := by
  rw [derivation?, derivations]
  induction env.instruction.body with
  | nil => rfl
  | cons s rest ih =>
    cases s with
    | derive pos d =>
      by_cases h : d.account = account
      · simp [Statement.derivation?, h]
      · simp only [List.findSome?_cons, h, ↓reduceIte, List.filterMap_cons,
          Statement.derivation?, List.find?_cons, decide_false]
        exact ih
    | _ => simpa [List.findSome?_cons, List.filterMap_cons, Statement.derivation?] using ih

/-- An account that the instruction does not create is created by none of its derivations. -/
theorem Surroundings.init_eq_none_of_not_initializes {env : Surroundings} {account : Text}
    (hUnique : ∀ d ∈ derivations env.instruction.body, ∀ d' ∈ derivations env.instruction.body,
      d.account = d'.account → d = d')
    (h : env.initializes account = false) {d : Derive}
    (hd : d ∈ derivations env.instruction.body) (hAccount : d.account = account) :
    d.init = none := by
  rw [initializes, derivation?_eq_find?] at h
  cases hFound : (derivations env.instruction.body).find? (·.account = account) with
  | none => simpa [hAccount] using List.find?_eq_none.mp hFound d hd
  | some d' =>
    have hAccount' : d'.account = account := by simpa using List.find?_some hFound
    have hSame := hUnique d' (List.mem_of_find?_eq_some hFound) d hd (hAccount'.trans hAccount.symm)
    rw [hFound, hSame] at h
    simpa using h

namespace Scope

variable {sc : Scope} {env : Surroundings} {pos : SourcePos} {ref : AccountRef} {d : Derive}

theorem checkForm_ok (h : checkForm env pos ref d = .ok ()) :
    ref.role ≠ .signer ∧ ref.role ≠ .tokenProgram ∧
      (d.form.isAssociated = true ↔ ref.role = .associatedToken) ∧
      ∀ seeds bump, d.form = .withBump seeds bump → d.init = none := by
  simp only [checkForm, refused_or_eq_ok_iff] at h
  obtain ⟨hRole, hNotOther, hNotPlain, hForm⟩ := h
  simp only [Bool.or_eq_true, decide_eq_true_eq, not_or] at hRole
  refine ⟨hRole.1, hRole.2, ⟨?_, ?_⟩, ?_⟩
  · intro hAssociated
    simpa [hAssociated] using hNotOther
  · intro hAssociated
    simpa [hAssociated] using hNotPlain
  · intro seeds bump hBump
    rw [hBump] at hForm
    simpa using hForm

theorem tokenParties_ok {about : Text} {form : DeriveForm} {t : TokenParties}
    (h : sc.tokenParties env pos about form = .ok (some t)) :
    (∃ m, recordOf? sc.accounts t.mint = some m ∧ m.role = .mint) ∧
      (recordOf? sc.accounts t.authority).isSome = true := by
  unfold tokenParties at h
  split at h
  · cases h
  · rename_i mint authority _
    simp only [refused_or_eq_ok_iff, Except.ok.injEq, Option.some.injEq] at h
    obtain ⟨hMint, hAuthority, rfl⟩ := h
    constructor
    · simpa [Option.all_eq_true, account?, recordOf?] using hMint
    · simpa [Option.isSome_iff_ne_none, account?, recordOf?] using hAuthority

/-- The parties are there wherever the form names them. -/
theorem tokenParties_isSome {about : Text} {form : DeriveForm} {t : Option TokenParties}
    (h : sc.tokenParties env pos about form = .ok t) (hAssociated : form.isAssociated = true) :
    t.isSome = true := by
  cases form with
  | associated mint authority =>
    simp only [tokenParties, DeriveForm.parties?, refused_or_eq_ok_iff, Except.ok.injEq] at h
    obtain ⟨_, _, rfl⟩ := h
    rfl
  | _ => cases hAssociated

theorem bumpField_ok {about : Text} {v : Value} {bump : FieldRef}
    (hUnique : ∀ d ∈ derivations env.instruction.body, ∀ d' ∈ derivations env.instruction.body,
      d.account = d'.account → d = d')
    (h : sc.bumpField env about v = .ok bump) :
    AccountRef.BumpHeldSoundly env.program env.instruction sc.accounts bump := by
  unfold bumpField at h
  split at h
  · rename_i account field _
    split at h
    · cases h
    · rename_i st hState
      split at h
      · cases h
      · rename_i f hField
        simp only [refused_or_eq_ok_iff, Except.ok.injEq] at h
        obtain ⟨hBump, hInit, rfl⟩ := h
        obtain ⟨holder, hHolder, hState⟩ := Option.bind_eq_some_iff.mp hState
        constructor
        · unfold Surroundings.stateOf? at hState
          split at hState
          · rename_i n hRole
            refine ⟨holder, n, st, f, hHolder, hRole, hState, hField, ?_⟩
            simpa [ValueType.isBump] using hBump
          · cases hState
        · intro d hd hAccount
          exact env.init_eq_none_of_not_initializes hUnique (by simpa using hInit) hd hAccount
  · cases h

theorem payer_ok {request : InitRequest} {payer : Text}
    (hNodup : (sc.accounts.map (·.name)).Nodup) (h : sc.payer env ref request = .ok payer) :
    (∃ s, recordOf? sc.accounts payer = some s ∧ s.role = .signer) ∧
      (request.payer = none → signerNames sc.accounts = [payer]) := by
  unfold Scope.payer at h
  split at h
  · rename_i name _ hNamed
    split at h
    · cases h
    · rename_i s hs
      simp only [allowed_or_eq_ok_iff, Except.ok.injEq] at h
      obtain ⟨hSigner, rfl⟩ := h
      exact ⟨⟨s, hs, hSigner⟩, fun hNone => by rw [hNone] at hNamed; cases hNamed⟩
  · split at h
    · rename_i name hOnly
      obtain rfl : name = payer := Except.ok.inj h
      refine ⟨?_, fun _ => hOnly⟩
      have hMem : name ∈ signerNames sc.accounts := by
        rw [signerNames, hOnly]
        exact List.mem_singleton_self name
      obtain ⟨s, hs, rfl⟩ := List.mem_map.mp hMem
      obtain ⟨hs, hSigner⟩ := List.mem_filter.mp hs
      exact ⟨s, recordOf?_eq_some_of_mem hNodup hs, by simpa using hSigner⟩
    · cases h
    · cases h

theorem allocation_ok {form : DeriveForm} {space : Option Int}
    (h : allocation env pos ref form = .ok space) :
    (ref.role.isState = true ∨ ref.role = .tokenAccount ∨ ref.role = .associatedToken) ∧
      ∀ n, ref.role = .state n → ∃ st, env.program.state? n = some st ∧ space = some st.space := by
  unfold allocation at h
  split at h
  · rename_i n hRole
    split at h
    · rename_i st hState
      cases h
      refine ⟨.inl (by rw [hRole]; rfl), ?_⟩
      intro n' hn'
      rw [hRole] at hn'
      cases hn'
      simp only [Surroundings.stateOf?, hRole] at hState
      exact ⟨st, hState, rfl⟩
    · cases h
  · rename_i hRole
    exact ⟨.inr (.inl hRole), fun n hn => by rw [hRole] at hn; cases hn⟩
  · rename_i hRole
    exact ⟨.inr (.inr hRole), fun n hn => by rw [hRole] at hn; cases hn⟩
  · cases h

theorem initialization_ok {created : Option Initialization}
    (h : sc.initialization env pos ref d = .ok created) :
    created.isSome = d.init.isSome ∧ ∀ c, created = some c → ∃ request, d.init = some request ∧
      allocation env pos ref d.form = .ok c.space ∧ sc.payer env ref request = .ok c.payer := by
  unfold initialization at h
  split at h
  · rename_i hInit
    cases h
    rw [hInit]
    exact ⟨rfl, fun c hc => by cases hc⟩
  · rename_i request hInit
    simp only [bind_eq_ok_iff, pure_eq_ok_iff] at h
    obtain ⟨space, hSpace, payer, hPayer, rfl⟩ := h
    rw [hInit]
    refine ⟨rfl, ?_⟩
    rintro c hc
    cases hc
    exact ⟨request, rfl, hSpace, hPayer⟩

/-- The address rule has the shape of the form. -/
theorem addressSource_ok {seeds : List Seed} {address : AddressSource}
    (h : sc.addressSource env d seeds = .ok address) :
    (address.isAssociated = d.form.isAssociated) ∧
      (address.isProgramDerived = !d.form.isAssociated) ∧
      (d.form.isAssociated = false → address.seeds = seeds) ∧
      ∀ bump, address.bumpField? = some bump → ∃ values v, d.form = .withBump values v ∧
        sc.bumpField env d.account v = .ok bump := by
  unfold addressSource at h
  split at h
  · rename_i hForm
    cases h
    rw [hForm]
    exact ⟨rfl, rfl, (fun h => by cases h), fun bump h => by cases h⟩
  · rename_i values v hForm
    simp only [bind_eq_ok_iff, pure_eq_ok_iff] at h
    obtain ⟨bump, hBump, rfl⟩ := h
    rw [hForm]
    refine ⟨rfl, rfl, fun _ => rfl, ?_⟩
    rintro bump' hbump'
    cases hbump'
    exact ⟨values, v, rfl, hBump⟩
  · rename_i hForm
    cases h
    rw [hForm]
    exact ⟨rfl, rfl, fun _ => rfl, fun bump h => by cases h⟩
  · rename_i hForm
    cases h
    rw [hForm]
    exact ⟨rfl, rfl, fun _ => rfl, fun bump h => by cases h⟩

end Scope

end AnchorScript
