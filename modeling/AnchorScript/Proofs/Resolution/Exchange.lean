import AnchorScript.Proofs.Program.Exchange
import AnchorScript.Proofs.Resolution.Replacement

/-!
# Neighbouring derivations

A derivation is checked against the declarations of its instruction and against the derivations of
the whole body, never against what the derivations before it have settled; and it changes records
that no other derivation changes, apart from marks that are never taken back. So two derivations
that stand next to each other can change places.
-/

namespace AnchorScript

open Outcome

namespace Scope

/-- The scope with an effect on its accounts and this word on argument seeds. -/
def after (sc : Scope) (e : Effect) (hasArgSeeds : Bool) : Scope :=
  { sc.affect e with hasArgSeeds }

section After

variable (sc : Scope) (env : Surroundings) (e : Effect) (b : Bool)

theorem account?_after (name : Text) :
    (sc.after e b).account? name = (sc.account? name).map e.apply :=
  recordOf?_map e.preserving_apply

theorem stateField_after : (sc.after e b).stateField env = sc.stateField env := by
  funext account field pos
  simp only [stateField, account?_after]
  cases sc.account? account with
  | none => rfl
  | some ref => rfl

theorem seedSource_after (about : Text) (isLast : Bool) (v : Value) :
    (sc.after e b).seedSource env about .address isLast v =
      sc.seedSource env about .address isLast v := by
  cases v with
  | key pos account asBytes =>
    simp only [seedSource, account?_after]
    cases sc.account? account <;> rfl
  | field pos account field asBytes => simp only [seedSource, fieldSeed, stateField_after]
  | _ => rfl

theorem addressSeeds_after (d : Derive) :
    (sc.after e b).addressSeeds env d = sc.addressSeeds env d := by
  have hList : ∀ vs, (sc.after e b).seedList env d.account .address vs =
      sc.seedList env d.account .address vs := by
    intro vs
    induction vs with
    | nil => rfl
    | cons v vs ih => rw [seedList, seedList, seedSource_after, ih]
  simp only [addressSeeds, seeds, hList]

theorem tokenParties_after (pos : SourcePos) (about : Text) (form : DeriveForm) :
    (sc.after e b).tokenParties env pos about form = sc.tokenParties env pos about form := by
  have hMint : ∀ name, ((sc.after e b).account? name).all (·.role != .mint) =
      (sc.account? name).all (·.role != .mint) := by
    intro name
    rw [account?_after, Option.all_map]
    rfl
  have hAuthority : ∀ name, ((sc.after e b).account? name).isNone =
      (sc.account? name).isNone := by
    intro name
    rw [account?_after, Option.isNone_map]
  simp only [tokenParties, hMint, hAuthority]

theorem bumpField_after (about : Text) (v : Value) :
    (sc.after e b).bumpField env about v = sc.bumpField env about v := by
  cases v with
  | field pos account field asBytes =>
    have hState : ((sc.after e b).account? account).bind env.stateOf? =
        (sc.account? account).bind env.stateOf? := by
      rw [account?_after, Option.bind_map]
      rfl
    simp only [bumpField, hState]
  | _ => rfl

theorem addressSource_after (d : Derive) (seeds : List Seed) :
    (sc.after e b).addressSource env d seeds = sc.addressSource env d seeds := by
  simp only [addressSource, bumpField_after]

theorem payer_after (ref : AccountRef) (request : InitRequest) :
    (sc.after e b).payer env (e.apply ref) request = sc.payer env ref request := by
  have hSigners : ((sc.after e b).accounts.filter (·.role = .signer)).map (·.name) =
      (sc.accounts.filter (·.role = .signer)).map (·.name) :=
    signerNames_map e.preserving_apply
  obtain ⟨payer⟩ := request
  cases payer with
  | none =>
    simp only [payer, hSigners]
    rfl
  | some named =>
    simp only [payer, account?_after]
    cases sc.account? named.1 with
    | none => rfl
    | some p => rfl

theorem initialization_after (pos : SourcePos) (ref : AccountRef) (d : Derive) :
    (sc.after e b).initialization env pos (e.apply ref) d = sc.initialization env pos ref d := by
  have hAllocation : allocation env pos (e.apply ref) d.form = allocation env pos ref d.form := rfl
  simp only [initialization, payer_after, hAllocation]

end After

/-- A derivation is accepted: these are its seeds and what it settles about its account. -/
def Derives (sc : Scope) (env : Surroundings) (pos : SourcePos) (d : Derive) (ss : List Seed)
    (o : Origin) : Prop :=
  ∃ ref, sc.account? d.account = some ref ∧ checkForm env pos ref d = .ok () ∧
    sc.addressSeeds env d = .ok ss ∧ sc.tokenParties env pos ref.name d.form = .ok o.token ∧
    sc.addressSource env d ss = .ok o.address ∧ sc.initialization env pos ref d = .ok o.init

/-- The argument seeds of a list of seeds. -/
def readsArgument (ss : List Seed) : Bool := ss.any (·.source.isArgument)

theorem resolveDerive_eq_ok_iff {sc sc' : Scope} {env : Surroundings} {pos : SourcePos}
    {d : Derive} : sc.resolveDerive env pos d = .ok sc' ↔ ∃ ss o, sc.Derives env pos d ss o ∧
      sc' = sc.after (.derive d.account o) (sc.hasArgSeeds || readsArgument ss) := by
  constructor
  · intro h
    have hStep : Step env 0 sc (.derive pos d) sc' := step_of_resolveDerive h
    cases hStep with
    | @derive _ _ ref ss o hRef hForm hSeeds hToken hAddress hInit =>
      exact ⟨ss, o, ⟨ref, hRef, hForm, hSeeds, hToken, hAddress, hInit⟩, rfl⟩
  · rintro ⟨ss, ⟨address, token, init⟩, ⟨ref, hRef, hForm, hSeeds, hToken, hAddress, hInit⟩, rfl⟩
    have hName : ref.name = d.account := name_of_recordOf?_eq_some hRef
    unfold resolveDerive
    simp only [hRef, bind_eq_ok_iff, pure_eq_ok_iff]
    refine ⟨_, hForm, ss, hSeeds, token, hToken, address, hAddress, init, hInit, ?_⟩
    rw [hName]
    cases init with
    | none =>
      rw [after, ← affect_derive_of_none]
      rfl
    | some i =>
      rw [after, ← affect_derive_of_some]
      rfl

/-- Whether a derivation is accepted, and what it settles, does not depend on the derivations that
were made before. -/
theorem derives_after_iff {sc : Scope} {env : Surroundings} {e : Effect} {b : Bool}
    {pos : SourcePos} {d : Derive} {ss : List Seed} {o : Origin} :
    (sc.after e b).Derives env pos d ss o ↔ sc.Derives env pos d ss o := by
  simp only [Derives, account?_after, addressSeeds_after, tokenParties_after, addressSource_after]
  constructor
  · rintro ⟨ref', hRef, hForm, hSeeds, hToken, hAddress, hInit⟩
    obtain ⟨ref, hFound, rfl⟩ := Option.map_eq_some_iff.mp hRef
    rw [initialization_after] at hInit
    exact ⟨ref, hFound, hForm, hSeeds, hToken, hAddress, hInit⟩
  · rintro ⟨ref, hRef, hForm, hSeeds, hToken, hAddress, hInit⟩
    refine ⟨e.apply ref, by rw [hRef, Option.map_some], hForm, hSeeds, hToken, hAddress, ?_⟩
    rw [initialization_after]
    exact hInit

/-- Derivations of two accounts have the same effect in either order. -/
theorem after_derive_comm (sc : Scope) {account account' : Text} (h : account ≠ account')
    (o o' : Origin) (b b' : Bool) :
    (sc.after (.derive account o) b').after (.derive account' o') b =
      (sc.after (.derive account' o') b').after (.derive account o) b := by
  have hApply : ∀ a : AccountRef,
      (Effect.derive account' o').apply ((Effect.derive account o).apply a) =
        (Effect.derive account o).apply ((Effect.derive account' o').apply a) := by
    intro a
    have hMarks : ∀ x y z : Bool, (x || y || z) = (x || z || y) := by decide
    by_cases hHere : a.name = account
    · have hOther : a.name ≠ account' := hHere ▸ h
      simp [Effect.apply, Effect.derive, AccountRef.withOrigin, AccountRef.origin, hHere, h, hMarks]
    · by_cases hThere : a.name = account' <;>
        simp [Effect.apply, Effect.derive, AccountRef.withOrigin, AccountRef.origin, hHere, hThere,
          Ne.symm h, hMarks]
  simp only [after, affect, List.map_map]
  congr 2
  exact funext hApply

/-- Two accepted derivations of different accounts are accepted in the other order, and the scope
behind them is the same. -/
theorem resolveDerive_exchange {sc mid sc' : Scope} {env : Surroundings} {pos pos' : SourcePos}
    {d d' : Derive} (hApart : d.account ≠ d'.account) (h : sc.resolveDerive env pos d = .ok mid)
    (h' : mid.resolveDerive env pos' d' = .ok sc') :
    ∃ mid', sc.resolveDerive env pos' d' = .ok mid' ∧ mid'.resolveDerive env pos d = .ok sc' := by
  obtain ⟨ss, o, hDerives, rfl⟩ := resolveDerive_eq_ok_iff.mp h
  obtain ⟨ss', o', hDerives', rfl⟩ := resolveDerive_eq_ok_iff.mp h'
  refine ⟨_, resolveDerive_eq_ok_iff.mpr ⟨ss', o', derives_after_iff.mp hDerives', rfl⟩, ?_⟩
  refine resolveDerive_eq_ok_iff.mpr ⟨ss, o, derives_after_iff.mpr hDerives, ?_⟩
  have hWords : ∀ x y z : Bool, (x || y || z) = (x || z || y) := by decide
  change (sc.after _ _).after _ (sc.hasArgSeeds || readsArgument ss || readsArgument ss') =
    (sc.after _ _).after _ (sc.hasArgSeeds || readsArgument ss' || readsArgument ss)
  rw [hWords, after_derive_comm sc hApart]
  rfl

end Scope

section Bodies

variable {body body' : List Statement} (h : Swapped Statement.IsDerivation body body')
include h

theorem Swapped.derivations_perm : (derivations body).Perm (derivations body') := h.perm.filterMap _

theorem Scope.resolveBody_exchanged (hApart : ((derivations body).map (·.account)).Nodup)
    {sc sc' : Scope} {env : Surroundings} {index : Nat}
    (hBody : sc.resolveBody env index body = .ok sc') :
    sc.resolveBody env index body' = .ok sc' := by
  induction h generalizing sc index with
  | @here s t rest hs ht =>
    obtain ⟨pos, d, rfl⟩ := hs
    obtain ⟨pos', d', rfl⟩ := ht
    obtain ⟨mid, hFirst, hTail⟩ := resolveBody_cons_eq_ok_iff.mp hBody
    obtain ⟨last, hSecond, hRest⟩ := resolveBody_cons_eq_ok_iff.mp hTail
    have hOther : d.account ≠ d'.account := by
      intro hSame
      exact (List.nodup_cons.mp hApart).1 (List.mem_cons.mpr (.inl hSame))
    obtain ⟨mid', hFirst', hSecond'⟩ := resolveDerive_exchange hOther hFirst hSecond
    exact resolveBody_cons_eq_ok_iff.mpr
      ⟨mid', hFirst', resolveBody_cons_eq_ok_iff.mpr ⟨last, hSecond', hRest⟩⟩
  | @there s body body' _ ih =>
    obtain ⟨mid, hFirst, hRest⟩ := resolveBody_cons_eq_ok_iff.mp hBody
    have hLater : ((derivations body).map (·.account)).Nodup :=
      hApart.sublist (((List.sublist_cons_self s body).filterMap _).map _)
    exact resolveBody_cons_eq_ok_iff.mpr ⟨mid, hFirst, ih hLater hRest⟩

end Bodies

namespace Resolution

/-- The check of all derivations does not look at their order. -/
theorem checkDerivations_eq_ok_iff {env : Surroundings} {sc : Scope}
    {earlier : List (Text × SourcePos)} {body : List Statement} :
    checkDerivations env sc earlier body = .ok () ↔
      ((derivations body).map (·.account)).Nodup ∧
        ∀ d ∈ derivations body, (sc.account? d.account).isSome = true ∧
          earlier.lookup d.account = none := by
  fun_induction checkDerivations env sc earlier body with
  | case1 => simp [derivations]
  | case2 earlier pos d rest hParam =>
    simp only [reduceCtorEq, false_iff, not_and]
    intro _ hAll
    have hSome := (hAll d List.mem_cons_self).1
    rw [Option.isNone_iff_eq_none] at hParam
    rw [hParam] at hSome
    cases hSome
  | case3 earlier pos d rest hParam first hFirst =>
    simp only [reduceCtorEq, false_iff, not_and]
    intro _ hAll
    have hNone := (hAll d List.mem_cons_self).2
    rw [hFirst] at hNone
    cases hNone
  | case4 earlier pos d rest hParam hFresh ih =>
    rw [ih]
    change _ ↔ ((d :: derivations rest).map (·.account)).Nodup ∧ ∀ d' ∈ d :: derivations rest, _
    rw [List.map_cons, List.nodup_cons, List.forall_mem_cons, List.mem_map]
    constructor
    · rintro ⟨hNodup, hAll⟩
      have hOther : ∀ d' ∈ derivations rest, d'.account ≠ d.account := by
        intro d' hd' hSame
        have hLookup := (hAll d' hd').2
        rw [List.lookup_cons, hSame, beq_self_eq_true] at hLookup
        cases hLookup
      have hNew : ¬∃ d', d' ∈ derivations rest ∧ d'.account = d.account := by
        rintro ⟨d', hd', hSame⟩
        exact hOther d' hd' hSame
      refine ⟨⟨hNew, hNodup⟩, ⟨?_, hFresh⟩, fun d' hd' => ?_⟩
      · simpa [Option.isSome_iff_ne_none] using hParam
      · have hLookup := (hAll d' hd').2
        rw [List.lookup_cons, beq_false_of_ne (hOther d' hd')] at hLookup
        exact ⟨(hAll d' hd').1, hLookup⟩
    · rintro ⟨⟨hOnce, hNodup⟩, _, hAll⟩
      refine ⟨hNodup, fun d' hd' => ⟨(hAll d' hd').1, ?_⟩⟩
      have hOther : d'.account ≠ d.account := fun hSame => hOnce ⟨d', hd', hSame⟩
      rw [List.lookup_cons, beq_false_of_ne hOther]
      exact (hAll d' hd').2
  | case5 earlier s rest hOther ih =>
    have hRest : derivations (s :: rest) = derivations rest := by
      cases s with
      | derive pos d => exact absurd rfl (hOther pos d)
      | _ => rfl
    rw [hRest]
    exact ih

theorem checkDerivations_perm {env : Surroundings} {sc : Scope} {body body' : List Statement}
    (h : (derivations body).Perm (derivations body'))
    (hBody : checkDerivations env sc [] body = .ok ()) :
    checkDerivations env sc [] body' = .ok () := by
  obtain ⟨hNodup, hAll⟩ := checkDerivations_eq_ok_iff.mp hBody
  exact checkDerivations_eq_ok_iff.mpr
    ⟨(h.map _).nodup_iff.mp hNodup, fun d hd => hAll d (h.mem_iff.mpr hd)⟩

end Resolution

/-- The instruction with the same resolution and two neighbouring derivations exchanged. -/
def ResolvedInstruction.Exchanged (r r' : ResolvedInstruction) : Prop :=
  ∃ i, r.source.Exchanged i ∧ r' = { r with source := i }

/-- The instructions that declare the same and derive the same accounts, in whatever order. -/
theorem Surroundings.alike_of_perm {p p' : Program} {i i' : Instruction}
    (hFile : p'.file = p.file) (hStates : p'.states = p.states) (hName : i'.name = i.name)
    (hParams : i'.params = i.params) (hPerm : (derivations i.body).Perm (derivations i'.body))
    (hApart : ((derivations i.body).map (·.account)).Nodup) :
    Surroundings.Alike ⟨p', i'⟩ ⟨p, i⟩ := by
  refine ⟨hFile, hStates, hName, hParams, funext fun account => Option.ext fun d => ?_⟩
  have hUnique : ∀ ds : List Derive, (ds.map (·.account)).Nodup →
      (ds.find? (·.account = account) = some d ↔ d ∈ ds ∧ d.account = account) := by
    intro ds hNodup
    constructor
    · intro hFound
      exact ⟨List.mem_of_find?_eq_some hFound, by simpa using List.find?_some hFound⟩
    · rintro ⟨hd, rfl⟩
      cases hFound : ds.find? (·.account = d.account) with
      | none => exact absurd (decide_eq_true rfl) (List.find?_eq_none.mp hFound d hd)
      | some d' =>
        have hSame : d'.account = d.account := by simpa using List.find?_some hFound
        rw [List.inj_on_of_nodup_map hNodup (List.mem_of_find?_eq_some hFound) hd hSame]
  rw [derivation?_eq_find?, derivation?_eq_find?, hUnique _ hApart,
    hUnique _ ((hPerm.map _).nodup_iff.mp hApart), hPerm.mem_iff]

namespace Resolution

theorem finish_exchanged {i i' : Instruction} (h : i.Exchanged i') (sc : Scope) :
    finish i' sc = { finish i sc with source := i' } := by
  obtain ⟨body, hBody, rfl⟩ := h
  have hAny : ∀ f : Statement → Bool, body.any f = i.body.any f := fun f => hBody.perm.any_eq.symm
  simp only [finish, needsSystem, needsToken, hAny]
  rfl

theorem resolveInstruction_exchanged {p p' : Program} {i i' : Instruction}
    {r : ResolvedInstruction} (hFile : p'.file = p.file) (hStates : p'.states = p.states)
    (h : i.Exchanged i') (hResolved : resolveInstruction p i = .ok r) :
    resolveInstruction p' i' = .ok { r with source := i' } := by
  obtain ⟨hOnce, sc, hRun, rfl⟩ := resolveInstruction_eq_ok_iff.mp hResolved
  have hApart := (checkDerivations_ok hOnce).1
  refine resolveInstruction_eq_ok_iff.mpr ?_
  obtain ⟨body, hBody, rfl⟩ := id h
  have hAlike : Surroundings.Alike ⟨p', { i with body }⟩ ⟨p, i⟩ :=
    Surroundings.alike_of_perm hFile hStates rfl rfl hBody.derivations_perm hApart
  refine ⟨?_, sc, ?_, finish_exchanged h sc⟩
  · rw [hAlike.checkDerivations]
    exact checkDerivations_perm hBody.derivations_perm hOnce
  · rw [hAlike.resolveBody]
    exact Scope.resolveBody_exchanged hBody hApart hRun

end Resolution

theorem Program.resolve_exchanged {p p' : Program} {r : ResolvedProgram} (h : p.Exchanged p')
    (hResolved : p.resolve = .ok r) :
    ∃ is, p'.resolve = .ok ⟨p', is⟩ ∧ Replaced ResolvedInstruction.Exchanged r.instructions is := by
  obtain ⟨is, hReplaced, rfl⟩ := h
  simp only [resolve, bind_eq_ok_iff, pure_eq_ok_iff] at hResolved ⊢
  obtain ⟨rs, hRead, rfl⟩ := hResolved
  have hSame : ∀ i, Resolution.resolveInstruction { p with instructions := is } i =
      Resolution.resolveInstruction p i := by
    intro i
    have hAlike : Surroundings.Alike ⟨{ p with instructions := is }, i⟩ ⟨p, i⟩ :=
      ⟨rfl, rfl, rfl, rfl, rfl⟩
    simp only [Resolution.resolveInstruction, hAlike.checkDerivations, hAlike.resolveBody]
  have hHere : ∀ i i' r, i.Exchanged i' → Resolution.resolveInstruction p i = .ok r →
      ∃ r', Resolution.resolveInstruction { p with instructions := is } i' = .ok r' ∧
        r.Exchanged r' := by
    intro i i' r hExchanged hInstruction
    refine ⟨{ r with source := i' }, Resolution.resolveInstruction_exchanged (p := p) rfl rfl
      hExchanged hInstruction, i', ?_, rfl⟩
    rw [Resolution.source_of_resolveInstruction hInstruction]
    exact hExchanged
  obtain ⟨rs', hRead', hResult⟩ := hReplaced.mapM_eq_ok hSame hHere hRead
  exact ⟨rs', ⟨rs', hRead', rfl⟩, hResult⟩

end AnchorScript
