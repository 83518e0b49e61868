import AnchorScript.Proofs.Resolution.AccountRecord
import AnchorScript.Proofs.Resolution.DerivationCheck

/-!
# What seed lists denote

A seed list is classified element by element and keeps its order. The list of an address holds no
bump and leaves room for one; the list that signs for an address ends in a bump and holds no other.
-/

namespace AnchorScript

open Outcome

/-- The value is a seed other than a bump, and this is what it denotes. -/
inductive IsSeed (p : Program) (i : Instruction) : Value → SeedSource → Prop
  | literal {pos : SourcePos} {s : Text} : IsSeed p i (.string pos s) (.literal s)
  | key {pos : SourcePos} {account : Text} {asBytes : Bool}
      (hAccount : (i.accountRole? account).isSome = true) :
      IsSeed p i (.key pos account asBytes) (.accountKey account)
  | field {pos : SourcePos} {account field : Text} {asBytes : Bool} {t : ValueType}
      (hType : p.fieldType? i account field = some t) (hForm : t.kind.hasByteForm = true) :
      IsSeed p i (.field pos account field asBytes) (.stateField ⟨account, field⟩ t)
  | argument {pos : SourcePos} {name : Text} {asBytes : Bool} {t : ValueType}
      (hType : i.argType? name = some t) (hForm : t.kind.hasByteForm = true) :
      IsSeed p i (.arg pos name asBytes) (.argument name t)

/-- The value is a bump: a `u8` field, the bump that a constraint finds, or a `u8` variable. -/
inductive IsBump (p : Program) (i : Instruction) (locals : List (Text × ValueType)) :
    Value → BumpSource → Prop
  | stored {pos : SourcePos} {account field : Text} {asBytes : Bool} {t : ValueType}
      (hType : p.fieldType? i account field = some t) (hByte : t.isBump = true) :
      IsBump p i locals (.field pos account field asBytes) (.stored ⟨account, field⟩)
  | computed {pos : SourcePos} {account : Text}
      (hAccount : (i.accountRole? account).isSome = true) :
      IsBump p i locals (.bump pos account) (.computed account)
  | ofVar {pos : SourcePos} {name : Text} {asBytes : Bool} {t : ValueType}
      (hVar : (name, t) ∈ locals) (hByte : t.isBump = true) :
      IsBump p i locals (.var pos name asBytes) (.ofVar name)

/-- The list denotes seeds of which the last is a bump and no other one is. -/
def EndsInBump (p : Program) (i : Instruction) (locals : List (Text × ValueType))
    (vs : List Value) (ss : List SeedSource) : Prop :=
  ∃ front last fronts bump, vs = front ++ [last] ∧ ss = fronts ++ [.bump bump] ∧
    List.Forall₂ (IsSeed p i) front fronts ∧ IsBump p i locals last bump

theorem IsBump.mono {p : Program} {i : Instruction} {locals locals' : List (Text × ValueType)}
    {v : Value} {b : BumpSource} (h : IsBump p i locals v b) (hLocals : locals ⊆ locals') :
    IsBump p i locals' v b := by
  cases h with
  | stored hType hByte => exact .stored hType hByte
  | computed hAccount => exact .computed hAccount
  | ofVar hVar hByte => exact .ofVar (hLocals hVar) hByte

theorem EndsInBump.mono {p : Program} {i : Instruction} {locals locals' : List (Text × ValueType)}
    {vs : List Value} {ss : List SeedSource} (h : EndsInBump p i locals vs ss)
    (hLocals : locals ⊆ locals') : EndsInBump p i locals' vs ss := by
  obtain ⟨front, last, fronts, bump, hvs, hss, hFront, hLast⟩ := h
  exact ⟨front, last, fronts, bump, hvs, hss, hFront, hLast.mono hLocals⟩

namespace Scope

variable {sc : Scope} {env : Surroundings} {about : Text} {use : SeedUse} {isLast : Bool}
  {v : Value} {source : SeedSource}

theorem checkByteForm_ok {t : ValueType} (h : checkByteForm env about v t = .ok ()) :
    t.kind.hasByteForm = true := by
  simp only [checkByteForm, allowed_or_eq_ok_iff] at h
  exact h.1

theorem accountRole?_isSome {i : Instruction} {account : Text} {ref : AccountRef}
    (hRoles : HasRolesOf i sc.accounts) (h : sc.account? account = some ref) :
    (i.accountRole? account).isSome = true := by
  change recordOf? sc.accounts account = some ref at h
  rw [← hRoles account, h]
  rfl

theorem fieldSeed_ok {pos : SourcePos} {account field : Text} {asBytes : Bool}
    (hRoles : HasRolesOf env.instruction sc.accounts)
    (h : sc.fieldSeed env about use isLast v account field = .ok source) :
    IsSeed env.program env.instruction (.field pos account field asBytes) source ∨
      use = .signer ∧ isLast = true ∧ ∃ b, source = .bump b ∧
        IsBump env.program env.instruction sc.locals (.field pos account field asBytes) b := by
  simp only [fieldSeed, bind_eq_ok_iff] at h
  obtain ⟨f, hf, h⟩ := h
  have hType := stateField_ok hRoles hf
  cases use with
  | address =>
    simp only [refused_or_eq_ok_iff, bind_eq_ok_iff, pure_eq_ok_iff] at h
    obtain ⟨_, _, hForm, rfl⟩ := h
    exact .inl (.field hType (checkByteForm_ok hForm))
  | signer =>
    simp only [bind_eq_ok_iff] at h
    obtain ⟨_, _, h⟩ := h
    split at h
    · rename_i hBump
      obtain ⟨hLast, hByte⟩ := Bool.and_eq_true_iff.mp hBump
      cases h
      exact .inr ⟨rfl, hLast, _, rfl, .stored hType hByte⟩
    · simp only [bind_eq_ok_iff, pure_eq_ok_iff] at h
      obtain ⟨_, hForm, rfl⟩ := h
      exact .inl (.field hType (checkByteForm_ok hForm))

theorem bumpSeed_ok {pos : SourcePos} {account : Text}
    (hRoles : HasRolesOf env.instruction sc.accounts)
    (h : sc.bumpSeed env about use isLast v account = .ok source) :
    use = .signer ∧ isLast = true ∧ ∃ b, source = .bump b ∧
      IsBump env.program env.instruction sc.locals (.bump pos account) b := by
  simp only [bumpSeed, refused_or_eq_ok_iff, bind_eq_ok_iff, pure_eq_ok_iff] at h
  obtain ⟨hUse, hLast, _, hDerived, rfl⟩ := h
  refine ⟨?_, by simpa using hLast, _, rfl, .computed ?_⟩
  · cases use with
    | address => exact absurd rfl hUse
    | signer => rfl
  · unfold checkBump at hDerived
    split at hDerived
    · cases hDerived
    · rename_i ref hRef
      exact accountRole?_isSome hRoles hRef

/-- A seed is a bump only at the end of a list that signs. -/
theorem seedSource_ok (hRoles : HasRolesOf env.instruction sc.accounts)
    (h : sc.seedSource env about use isLast v = .ok source) :
    IsSeed env.program env.instruction v source ∨
      use = .signer ∧ isLast = true ∧ ∃ b, source = .bump b ∧
        IsBump env.program env.instruction sc.locals v b := by
  unfold seedSource at h
  split at h
  · simp only [refused_or_eq_ok_iff, Except.ok.injEq] at h
    obtain ⟨_, rfl⟩ := h
    exact .inl .literal
  · split at h
    · rename_i ref hRef
      cases h
      exact .inl (.key (accountRole?_isSome hRoles hRef))
    · cases h
  · split at h
    · rename_i t hType
      simp only [bind_eq_ok_iff, pure_eq_ok_iff] at h
      obtain ⟨_, hForm, rfl⟩ := h
      exact .inl (.argument hType (checkByteForm_ok hForm))
    · cases h
  · exact fieldSeed_ok hRoles h
  · exact .inr (bumpSeed_ok hRoles h)
  · split at h
    · cases h
    · rename_i name _ t hVar
      simp only [allowed_or_eq_ok_iff, Bool.and_eq_true, decide_eq_true_eq, Except.ok.injEq] at h
      obtain ⟨⟨⟨hUse, hLast⟩, hByte⟩, rfl⟩ := h
      obtain ⟨before, after, hLocals, _⟩ := List.lookup_eq_some_iff.mp hVar
      refine .inr ⟨hUse, hLast, _, rfl, .ofVar ?_ hByte⟩
      rw [hLocals]
      exact List.mem_append_right before List.mem_cons_self
  · cases h

theorem seeds_ok {vs : List Value} {ss : List Seed} (h : sc.seeds env about use vs = .ok ss) :
    vs.length ≤ use.limit ∧ sc.seedList env about use vs = .ok ss := by
  unfold seeds at h
  split at h
  · cases h
  · rename_i hDrop
    exact ⟨List.drop_eq_nil_iff.mp hDrop, h⟩

theorem seedList_cons_eq_ok_iff {vs : List Value} {ss : List Seed} :
    sc.seedList env about use (v :: vs) = .ok ss ↔
      ∃ source rest, sc.seedSource env about use vs.isEmpty v = .ok source ∧
        sc.seedList env about use vs = .ok rest ∧ ⟨source, v.pos⟩ :: rest = ss := by
  simp only [seedList, bind_eq_ok_iff, pure_eq_ok_iff]
  constructor
  · rintro ⟨source, hSource, rest, hRest, rfl⟩
    exact ⟨source, rest, hSource, hRest, rfl⟩
  · rintro ⟨source, rest, hSource, hRest, rfl⟩
    exact ⟨source, hSource, rest, hRest, rfl⟩

theorem seedList_address_ok {vs : List Value} {ss : List Seed}
    (hRoles : HasRolesOf env.instruction sc.accounts)
    (h : sc.seedList env about .address vs = .ok ss) :
    List.Forall₂ (IsSeed env.program env.instruction) vs (ss.map (·.source)) := by
  induction vs generalizing ss with
  | nil =>
    cases h
    exact .nil
  | cons v vs ih =>
    obtain ⟨source, rest, hSource, hRest, rfl⟩ := seedList_cons_eq_ok_iff.mp h
    rcases seedSource_ok hRoles hSource with hSeed | ⟨hUse, _⟩
    · exact .cons hSeed (ih hRest)
    · cases hUse

theorem seedList_signer_ok {vs : List Value} {ss : List Seed}
    (hRoles : HasRolesOf env.instruction sc.accounts)
    (h : sc.seedList env about .signer vs = .ok ss)
    (hLast : ss.getLast?.any (·.source.isBump) = true) :
    EndsInBump env.program env.instruction sc.locals vs (ss.map (·.source)) := by
  induction vs generalizing ss with
  | nil =>
    cases h
    cases hLast
  | cons v vs ih =>
    obtain ⟨source, rest, hSource, hRest, rfl⟩ := seedList_cons_eq_ok_iff.mp h
    cases vs with
    | nil =>
      cases hRest
      rcases seedSource_ok hRoles hSource with hSeed | ⟨_, _, b, rfl, hBump⟩
      · cases hSeed <;> cases hLast
      · exact ⟨[], v, [], b, rfl, rfl, .nil, hBump⟩
    | cons w vs =>
      obtain ⟨_, rest', _, _, rfl⟩ := seedList_cons_eq_ok_iff.mp hRest
      rw [List.getLast?_cons_cons] at hLast
      obtain ⟨front, last, fronts, b, hvs, hss, hFront, hBump⟩ := ih hRest hLast
      rcases seedSource_ok hRoles hSource with hSeed | ⟨_, hEmpty, _⟩
      · refine ⟨v :: front, last, source :: fronts, b, ?_, ?_, .cons hSeed hFront, hBump⟩
        · rw [hvs, List.cons_append]
        · rw [List.map_cons, hss, List.cons_append]
      · cases hEmpty

theorem callSeeds_ok {pos : SourcePos} {c : CrossProgramCall} {seeds : Option (List Seed)}
    (hRoles : HasRolesOf env.instruction sc.accounts) (h : sc.callSeeds env pos c = .ok seeds) :
    seeds.isSome = c.signerSeeds.isSome ∧
      ∀ vs ss, c.signerSeeds = some vs → seeds = some ss → vs.length ≤ maxSeeds ∧
        EndsInBump env.program env.instruction sc.locals vs (ss.map (·.source)) := by
  unfold callSeeds at h
  split at h
  · rename_i hNone
    simp only [refused_or_eq_ok_iff, pure_eq_ok_iff] at h
    obtain ⟨_, rfl⟩ := h
    rw [hNone]
    exact ⟨rfl, fun vs ss hvs => by cases hvs⟩
  · rename_i values hValues
    simp only [refused_or_eq_ok_iff, allowed_or_eq_ok_iff, bind_eq_ok_iff, pure_eq_ok_iff] at h
    obtain ⟨_, list, hList, hLast, rfl⟩ := h
    rw [hValues]
    refine ⟨rfl, ?_⟩
    rintro vs ss hvs hss
    cases hvs
    cases hss
    obtain ⟨hLength, hList⟩ := seeds_ok hList
    exact ⟨hLength, seedList_signer_ok hRoles hList hLast⟩

/-- Signer seeds are kept, under the index of their statement. -/
theorem Run.signerSeeds_prefix {index : Nat} {sc' : Scope} {body : List Statement}
    (h : Run env index sc body sc') : sc.signerSeeds <+: sc'.signerSeeds := by
  induction h with
  | nil => exact List.prefix_rfl
  | cons hStep _ ih =>
    refine List.IsPrefix.trans ?_ ih
    cases hStep with
    | call => exact List.prefix_append _ _
    | _ => exact List.prefix_rfl

theorem Run.signerSeeds_lt {index : Nat} {sc' : Scope} {body : List Statement}
    (h : Run env index sc body sc') (hStart : ∀ e ∈ sc.signerSeeds, e.1 < index) :
    ∀ e ∈ sc'.signerSeeds, e.1 < index + body.length := by
  induction h with
  | nil => exact hStart
  | @cons index sc mid sc' s rest hStep _ ih =>
    rw [List.length_cons, show index + (rest.length + 1) = index + 1 + rest.length by omega]
    apply ih
    intro e he
    have hEarlier : e ∈ sc.signerSeeds → e.1 < index + 1 :=
      fun he => Nat.lt_succ_of_lt (hStart e he)
    cases hStep with
    | @call pos c seeds =>
      rcases List.mem_append.mp he with he | he
      · exact hEarlier he
      · cases seeds with
        | none => cases he
        | some ss =>
          rw [List.mem_singleton.mp he]
          exact Nat.lt_succ_self index
    | _ => exact hEarlier he

/-- After a run from the start, the seeds that a statement adds are found under its index. -/
theorem Run.lookup_signerSeeds {sc' : Scope} {before : List Statement} {ss : List Seed}
    {later : List (Nat × List Seed)} (hBefore : Run env 0 sc before sc')
    (hStart : sc.signerSeeds = []) :
    (sc'.signerSeeds ++ (before.length, ss) :: later).lookup before.length = some ss := by
  have hLess := hBefore.signerSeeds_lt (by simp [hStart])
  have hNone : sc'.signerSeeds.lookup before.length = none := by
    refine List.lookup_eq_none_iff.mpr fun e he => ?_
    have := hLess e he
    simp only [bne_iff_ne, ne_eq]
    omega
  rw [List.lookup_append, hNone, Option.none_or, List.lookup_cons_self]

end Scope

namespace Resolution

variable {p : Program} {i : Instruction} {r : ResolvedInstruction}

theorem run_of_resolveInstruction (h : resolveInstruction p i = .ok r) :
    ∃ sc, Scope.Run ⟨p, i⟩ 0 (.initial i) i.body sc ∧ finish i sc = r := by
  obtain ⟨_, sc, hRun, hFinish⟩ := resolveInstruction_eq_ok_iff.mp h
  exact ⟨sc, Scope.run_of_resolveBody hRun, hFinish⟩

theorem source_of_resolveInstruction (h : resolveInstruction p i = .ok r) : r.source = i := by
  obtain ⟨_, _, rfl⟩ := run_of_resolveInstruction h
  rfl

theorem hasRolesOf_of_resolveInstruction (hi : i.DistinctParams)
    (h : resolveInstruction p i = .ok r) : HasRolesOf i r.accounts := by
  obtain ⟨sc, hRun, rfl⟩ := run_of_resolveInstruction h
  exact (hRun.hasRolesOf (.initial hi)).map preserving_finishAccount

theorem origin_finishAccount (a : AccountRef) : (finishAccount a).origin = a.origin := by
  rw [finishAccount]
  split <;> rfl

/-- The origin that a derivation gives its account stands in the record at the end: no other
statement derives the account. -/
theorem exists_origin_of_derive (h : resolveInstruction p i = .ok r) {pos : SourcePos} {d : Derive}
    (hMem : Statement.derive pos d ∈ i.body) :
    ∃ before sc ref seeds o, Scope.Run ⟨p, i⟩ 0 (.initial i) before sc ∧
      sc.account? d.account = some ref ∧ sc.addressSeeds ⟨p, i⟩ d = .ok seeds ∧
      sc.addressSource ⟨p, i⟩ d seeds = .ok o.address ∧
      sc.initialization ⟨p, i⟩ pos ref d = .ok o.init ∧
      ∀ a ∈ r.accounts, a.name = d.account → a.origin = o := by
  obtain ⟨before, after, hBody⟩ := List.append_of_mem hMem
  obtain ⟨last, hRun, rfl⟩ := run_of_resolveInstruction h
  rw [hBody] at hRun
  obtain ⟨sc, mid, hBefore, hStep, hAfter⟩ := hRun.split
  cases hStep with
  | @derive _ _ ref seeds o hRef _ hSeeds _ hAddress hInit =>
    refine ⟨before, sc, ref, seeds, o, hBefore, hRef, hSeeds, hAddress, hInit, ?_⟩
    have hNodup := (checkDerivations_ok (resolveInstruction_eq_ok_iff.mp h).1).1
    have hOther : ∀ d' ∈ derivations after, d'.account ≠ d.account := by
      rw [hBody, derivations, List.filterMap_append, List.filterMap_cons] at hNodup
      simp only [Statement.derivation?, List.map_append, List.map_cons] at hNodup
      have hLater := (List.nodup_cons.mp (List.nodup_append.mp hNodup).2.1).1
      exact fun d' hd' hAccount => hLater (List.mem_map.mpr ⟨d', hd', hAccount⟩)
    have hFinal := hAfter.origin_eq (o := o) hOther (by
      intro b hb hName
      obtain ⟨a, _, rfl⟩ := List.mem_map.mp hb
      rw [Effect.origin_apply, Effect.derive, ← Effect.name_apply _ a, hName]
      simp)
    intro b hb hName
    obtain ⟨a, ha, rfl⟩ := List.mem_map.mp hb
    exact (origin_finishAccount a).trans (hFinal a ha ((preserving_finishAccount a).1 ▸ hName))

/-- The record of an account that is derived from seeds holds what the seeds denote. -/
theorem addressSeeds_of_mem (hi : i.DistinctParams) (h : resolveInstruction p i = .ok r)
    {pos : SourcePos} {d : Derive} (hMem : Statement.derive pos d ∈ i.body)
    (hForm : d.form.isAssociated = false) :
    d.form.seedValues.length < maxSeeds ∧ (i.accountRole? d.account).isSome = true ∧
      ∃ ss, List.Forall₂ (IsSeed p i) d.form.seedValues (ss.map Seed.source) ∧
        ∀ a ∈ r.accounts, a.name = d.account →
          a.isProgramDerived = true ∧ a.address.seeds = ss := by
  obtain ⟨before, sc, ref, ss, o, hBefore, hRef, hSeeds, hAddress, _, hFinal⟩ :=
    exists_origin_of_derive h hMem
  have hRoles := hBefore.hasRolesOf (.initial hi)
  obtain ⟨hLength, hList⟩ := Scope.seeds_ok hSeeds
  obtain ⟨_, hDerived, hSame, _⟩ := Scope.addressSource_ok hAddress
  refine ⟨Nat.lt_succ_of_le hLength, Scope.accountRole?_isSome hRoles hRef, ss,
    Scope.seedList_address_ok hRoles hList, ?_⟩
  intro a ha hName
  have hIs : a.address = o.address := congrArg Origin.address (hFinal a ha hName)
  rw [AccountRef.isProgramDerived, hIs, hDerived, hForm]
  exact ⟨rfl, hSame hForm⟩

/-- The seeds that a call signs with stand under its index. -/
theorem signerSeeds_of_getElem? (hi : i.DistinctParams) (h : resolveInstruction p i = .ok r)
    {pos : SourcePos} {c : CrossProgramCall} {index : Nat} {vs : List Value}
    (hIndex : i.body[index]? = some (.call pos c)) (hSeeds : c.signerSeeds = some vs) :
    vs.length ≤ maxSeeds ∧ ∃ ss, r.seedsAt? index = some ss ∧
      EndsInBump p i r.locals vs (ss.map Seed.source) := by
  obtain ⟨before, after, hBody, rfl⟩ := exists_split_of_getElem? hIndex
  obtain ⟨sc, hRun, rfl⟩ := run_of_resolveInstruction h
  rw [hBody] at hRun
  obtain ⟨sc₁, sc₂, hBefore, hStep, hAfter⟩ := hRun.split
  have hRoles := hBefore.hasRolesOf (.initial hi)
  cases hStep with
  | @call _ _ seeds _ _ _ hCall =>
    obtain ⟨hSome, hMeaning⟩ := Scope.callSeeds_ok hRoles hCall
    obtain ⟨ss, rfl⟩ := Option.isSome_iff_exists.mp (hSome.trans (by rw [hSeeds]; rfl))
    obtain ⟨hLength, hEnds⟩ := hMeaning vs ss hSeeds rfl
    obtain ⟨later, hLater⟩ := hAfter.signerSeeds_prefix
    refine ⟨hLength, ss, ?_, hEnds.mono ?_⟩
    · change sc.signerSeeds.lookup before.length = some ss
      rw [← hLater]
      simp only [Nat.zero_add, Option.map_some, Option.toList_some, List.append_assoc,
        List.singleton_append]
      exact hBefore.lookup_signerSeeds rfl
    · exact hAfter.locals_suffix.subset

end Resolution

end AnchorScript
