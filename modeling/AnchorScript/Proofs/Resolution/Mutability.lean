import AnchorScript.Proofs.Resolution.NamedAccounts

/-!
# Which accounts are writable

An account is marked writable by six kinds of statement, at different times, and the mark is never
taken back. So the mark tells exactly whether some statement of the body writes the account, or, for
a system account, derives it from seeds; the order of the statements has no part in it.
-/

namespace AnchorScript

open Outcome

/-- The payer of a creation: the one that is named, or else the signer. -/
def InitRequest.payer? (request : InitRequest) (signers : List Text) : Option Text :=
  (request.payer.map Prod.fst).or signers.head?

/-- The accounts that a statement writes, among accounts with these signers. -/
def Statement.writes (signers : List Text) : Statement → List Text
  | .derive _ d => match d.init with
    | some request => d.account :: (request.payer? signers).toList
    | none => []
  | .assign _ a => [a.account]
  | .call _ c => c.action.changed.map Prod.fst
  | .bind .. => []
  | .close _ c => [c.account, c.destination]

namespace Scope

variable {sc sc' : Scope} {env : Surroundings} {index : Nat} {s : Statement}
  {body done : List Statement}

theorem payer?_of_payer {ref : AccountRef} {request : InitRequest} {payer : Text}
    (h : sc.payer env ref request = .ok payer) :
    request.payer? (signerNames sc.accounts) = some payer := by
  unfold Scope.payer at h
  split at h
  · rename_i name _ hNamed
    split at h
    · cases h
    · simp only [allowed_or_eq_ok_iff, Except.ok.injEq] at h
      rw [InitRequest.payer?, hNamed, h.2]
      rfl
  · rename_i hOpen
    split at h
    · rename_i name hOnly
      rw [InitRequest.payer?, hOpen, signerNames, hOnly, Except.ok.inj h]
      rfl
    · cases h
    · cases h

theorem writes_derive_eq {pos : SourcePos} {ref : AccountRef} {d : Derive} {o : Origin}
    (h : sc.initialization env pos ref d = .ok o.init) :
    (Effect.derive d.account o).writes =
      (Statement.derive pos d).writes (signerNames sc.accounts) := by
  obtain ⟨hSome, hCreated⟩ := initialization_ok h
  simp only [Effect.derive, Statement.writes]
  cases hInit : o.init with
  | none =>
    rw [hInit, Option.isSome_none, eq_comm, Option.isSome_eq_false_iff, Option.isNone_iff_eq_none]
      at hSome
    rw [hSome]
  | some c =>
    obtain ⟨request, hRequest, _, hPayer⟩ := hCreated c hInit
    simp only [hRequest, payer?_of_payer hPayer, Option.toList_some]

theorem Step.exists_writing_effect (h : Step env index sc s sc') :
    ∃ e : Effect, sc'.accounts = sc.accounts.map e.apply ∧
      e.writes = s.writes (signerNames sc.accounts) := by
  cases h with
  | @derive pos d ref seeds o _ _ _ _ _ hInit =>
    exact ⟨.derive d.account o, rfl, writes_derive_eq hInit⟩
  | @assign pos a => exact ⟨.write [a.account], rfl, rfl⟩
  | @call pos c => exact ⟨.write (c.action.changed.map Prod.fst), rfl, rfl⟩
  | bind => exact ⟨.write [], (congrArg Scope.accounts (affect_write_nil sc)).symm, rfl⟩
  | @close pos c => exact ⟨.close c.account c.destination, rfl, rfl⟩

/-- The records marked writable are those that the statements done have written. -/
def MarksWritten (done : List Statement) (sc : Scope) : Prop :=
  ∀ a ∈ sc.accounts, a.isMutable = true ↔
    ∃ s ∈ done, a.name ∈ s.writes (signerNames sc.accounts)

theorem MarksWritten.initial (i : Instruction) : MarksWritten [] (.initial i) := by
  intro a ha
  obtain ⟨param, _, hParam⟩ := List.mem_filterMap.mp ha
  split at hParam
  · cases hParam
    simp
  · cases hParam

theorem MarksWritten.step (h : MarksWritten done sc) (hStep : Step env index sc s sc') :
    MarksWritten (done ++ [s]) sc' := by
  obtain ⟨e, hAccounts, hWrites⟩ := hStep.exists_writing_effect
  intro b hb
  rw [hAccounts, signerNames_map e.preserving_apply]
  rw [hAccounts] at hb
  obtain ⟨a, ha, rfl⟩ := List.mem_map.mp hb
  rw [Effect.isMutable_apply, Effect.name_apply, Bool.or_eq_true, h a ha, hWrites,
    List.contains_iff_mem]
  constructor
  · rintro (⟨t, ht, hName⟩ | hName)
    · exact ⟨t, List.mem_append_left [s] ht, hName⟩
    · exact ⟨s, List.mem_append_right done List.mem_cons_self, hName⟩
  · rintro ⟨t, ht, hName⟩
    rcases List.mem_append.mp ht with ht | ht
    · exact .inl ⟨t, ht, hName⟩
    · rw [List.mem_singleton.mp ht] at hName
      exact .inr hName

theorem Run.marksWritten (h : Run env index sc body sc') (hStart : MarksWritten [] sc) :
    MarksWritten body sc' :=
  h.induction hStart fun _ _ _ _ _ _ _ hDone hStep => hDone.step hStep

end Scope

theorem derivesFromSeeds_perm {body body' : List Statement} (h : body.Perm body')
    {account : Text} : DerivesFromSeeds body account ↔ DerivesFromSeeds body' account :=
  ⟨fun hDerives => hDerives.mono h.subset, fun hDerives => hDerives.mono h.symm.subset⟩

namespace Resolution

variable {p : Program} {i : Instruction} {r : ResolvedInstruction}

theorem isMutable_finishAccount (a : AccountRef) : (finishAccount a).isMutable = true ↔
    a.isMutable = true ∨ a.role = .systemAccount ∧ a.isProgramDerived = true := by
  rw [finishAccount]
  split
  · rename_i hDerived
    simp only [Bool.and_eq_true, decide_eq_true_eq] at hDerived
    simp [hDerived]
  · rename_i hNot
    simp only [Bool.and_eq_true, decide_eq_true_eq] at hNot
    simp [hNot]

theorem isProgramDerived_finishAccount (a : AccountRef) :
    (finishAccount a).isProgramDerived = a.isProgramDerived :=
  congrArg (·.address.isProgramDerived) (origin_finishAccount a)

theorem isProgramDerived_iff (h : resolveInstruction p i = .ok r) {a : AccountRef}
    (ha : a ∈ r.accounts) : a.isProgramDerived = true ↔ DerivesFromSeeds i.body a.name := by
  constructor
  · intro hDerived
    obtain ⟨sc, hRun, rfl⟩ := run_of_resolveInstruction h
    obtain ⟨b, hb, rfl⟩ := List.mem_map.mp ha
    rw [(preserving_finishAccount b).1]
    refine (hRun.established (.initial i)).derived b hb ?_
    rw [← isProgramDerived_finishAccount]
    exact hDerived
  · rintro ⟨pos, d, hMem, hAccount, hForm⟩
    obtain ⟨_, sc, ref, seeds, o, _, _, _, hAddress, _, hFinal⟩ := exists_origin_of_derive h hMem
    have hIs : a.address = o.address := congrArg Origin.address (hFinal a ha hAccount.symm)
    rw [AccountRef.isProgramDerived, hIs, (Scope.addressSource_ok hAddress).2.1, hForm]
    rfl

theorem payer?_of_derive (h : resolveInstruction p i = .ok r) {pos : SourcePos} {d : Derive}
    {request : InitRequest} (hMem : Statement.derive pos d ∈ i.body)
    (hRequest : d.init = some request) {b : AccountRef} (hb : b ∈ r.accounts)
    (hName : b.name = d.account) :
    ∃ c, b.init = some c ∧ request.payer? (signerNames r.accounts) = some c.payer := by
  obtain ⟨before, sc, ref, seeds, o, hBefore, _, _, _, hInit, hFinal⟩ :=
    exists_origin_of_derive h hMem
  have hIs : b.init = o.init := congrArg Origin.init (hFinal b hb hName)
  obtain ⟨hSome, hCreated⟩ := Scope.initialization_ok hInit
  rw [hRequest, Option.isSome_some] at hSome
  obtain ⟨c, hc⟩ := Option.isSome_iff_exists.mp hSome
  obtain ⟨request', hRequest', _, hPayer⟩ := hCreated c hc
  obtain rfl : request = request' := Option.some.inj (hRequest.symm.trans hRequest')
  obtain ⟨g, hg, hAccounts⟩ := exists_map_initial h
  obtain ⟨g', hg', hAccounts', _⟩ := hBefore.exists_map
  refine ⟨c, hIs.trans hc, ?_⟩
  -- the statement saw the signers of its own scope, which are those of every scope of the run
  rw [← Scope.payer?_of_payer hPayer, hAccounts, hAccounts', signerNames_map hg,
    signerNames_map hg']

/-- What makes a record writable, read off the body alone. -/
theorem isMutable_iff_writes (h : resolveInstruction p i = .ok r) {a : AccountRef}
    (ha : a ∈ r.accounts) : a.isMutable = true ↔
      (∃ s ∈ i.body, a.name ∈ s.writes (signerNames r.accounts)) ∨
        a.role = .systemAccount ∧ DerivesFromSeeds i.body a.name := by
  rw [← isProgramDerived_iff h ha]
  obtain ⟨sc, hRun, rfl⟩ := run_of_resolveInstruction h
  have hMarks : Scope.MarksWritten i.body sc := hRun.marksWritten (.initial i)
  obtain ⟨b, hb, rfl⟩ := List.mem_map.mp ha
  obtain ⟨hName, hRole, _⟩ := preserving_finishAccount b
  have hSigners : signerNames (finish i sc).accounts = signerNames sc.accounts :=
    signerNames_map preserving_finishAccount
  rw [isMutable_finishAccount, hMarks b hb, hName, hRole, isProgramDerived_finishAccount, hSigners]

end Resolution

/-- The accounts that a call takes value from or adds value to, and the mint whose supply it
changes. -/
inductive CallAction.Moves : CallAction → Text → Prop
  | systemSource {source target : Text} : Moves (.systemTransfer source target) source
  | systemTarget {source target : Text} : Moves (.systemTransfer source target) target
  | tokenSource {source target authority : Text} :
      Moves (.tokenTransfer source target authority) source
  | tokenTarget {source target authority : Text} :
      Moves (.tokenTransfer source target authority) target
  | minted {mint target authority : Text} : Moves (.mintTo mint target authority) mint
  | mintTarget {mint target authority : Text} : Moves (.mintTo mint target authority) target
  | burned {mint source authority : Text} : Moves (.burn mint source authority) mint
  | burnSource {mint source authority : Text} : Moves (.burn mint source authority) source

theorem CallAction.mem_changed_iff {action : CallAction} {name : Text} :
    name ∈ action.changed.map Prod.fst ↔ action.Moves name := by
  constructor
  · intro h
    cases action <;>
      simp only [changed, List.map_cons, List.map_nil, List.mem_cons, List.not_mem_nil,
        or_false] at h <;>
      rcases h with rfl | rfl
    · exact .systemSource
    · exact .systemTarget
    · exact .tokenSource
    · exact .tokenTarget
    · exact .minted
    · exact .mintTarget
    · exact .burned
    · exact .burnSource
  · intro h
    cases h <;> simp [changed]

/-- The instruction writes the account, in whichever of its statements. -/
inductive ResolvedInstruction.Writes (i : ResolvedInstruction) (a : AccountRef) : Prop
  | created (h : Creates i.source.body a.name)
  | paid {b : AccountRef} {c : Initialization} (hMem : b ∈ i.accounts) (hInit : b.init = some c)
      (hPayer : c.payer = a.name)
  | assigned {field : Text} (h : WritesField i.source.body a.name field)
  | moved {pos : SourcePos} {c : CrossProgramCall} (hMem : .call pos c ∈ i.source.body)
      (h : c.action.Moves a.name)
  | closed (h : Closes i.source.body a.name)
  | refunded {c : CloseAccount} (hMem : c ∈ closings i.source.body)
      (hDestination : c.destination = a.name)
  | held (hRole : a.role = .systemAccount) (h : DerivesFromSeeds i.source.body a.name)

namespace Resolution

variable {p : Program} {r : ResolvedInstruction} {a : AccountRef}

theorem writes_of_mem (h : resolveInstruction p r.source = .ok r) {s : Statement}
    (hs : s ∈ r.source.body) (hName : a.name ∈ s.writes (signerNames r.accounts)) :
    r.Writes a := by
  cases s with
  | derive pos d =>
    rw [Statement.writes] at hName
    split at hName
    · rename_i request hRequest
      rcases List.mem_cons.mp hName with hName | hName
      · refine .created ⟨d, mem_derivations.mpr ⟨pos, hs⟩, hName.symm, ?_⟩
        rw [hRequest]
        rfl
      · obtain ⟨b, hb⟩ := account?_of_mem_accountNames h hs List.mem_cons_self
        obtain ⟨c, hInit, hPayer⟩ := payer?_of_derive h hs hRequest (mem_of_recordOf?_eq_some hb)
          (name_of_recordOf?_eq_some hb)
        rw [hPayer, Option.toList_some] at hName
        exact .paid (mem_of_recordOf?_eq_some hb) hInit (List.mem_singleton.mp hName).symm
    · cases hName
  | assign pos s => exact .assigned ⟨pos, s, hs, (List.mem_singleton.mp hName).symm, rfl⟩
  | call pos c => exact .moved hs (CallAction.mem_changed_iff.mp hName)
  | bind => cases hName
  | close pos c =>
    have hMem : c ∈ closings r.source.body := mem_closings.mpr ⟨pos, hs⟩
    rcases List.mem_cons.mp hName with hName | hName
    · exact .closed ⟨c, hMem, hName.symm⟩
    · exact .refunded hMem (List.mem_singleton.mp hName).symm

theorem exists_writes_of_created (h : Creates r.source.body a.name) :
    ∃ s ∈ r.source.body, a.name ∈ s.writes (signerNames r.accounts) := by
  obtain ⟨d, hd, hAccount, hInit⟩ := h
  obtain ⟨pos, hs⟩ := mem_derivations.mp hd
  obtain ⟨request, hRequest⟩ := Option.isSome_iff_exists.mp hInit
  refine ⟨_, hs, ?_⟩
  simp [Statement.writes, hRequest, hAccount]

theorem exists_writes_of_paid (h : resolveInstruction p r.source = .ok r) {b : AccountRef}
    {c : Initialization} (hb : b ∈ r.accounts) (hInit : b.init = some c)
    (hPayer : c.payer = a.name) :
    ∃ s ∈ r.source.body, a.name ∈ s.writes (signerNames r.accounts) := by
  have hCreates : Creates r.source.body b.name := by
    rw [← (tells_of_resolveInstruction h).created b hb, AccountRef.isInitialized, hInit]
    rfl
  obtain ⟨d, hd, hAccount, hSome⟩ := hCreates
  obtain ⟨pos, hs⟩ := mem_derivations.mp hd
  obtain ⟨request, hRequest⟩ := Option.isSome_iff_exists.mp hSome
  obtain ⟨c', hInit', hAsked⟩ := payer?_of_derive h hs hRequest hb hAccount.symm
  obtain rfl : c = c' := Option.some.inj (hInit.symm.trans hInit')
  refine ⟨_, hs, ?_⟩
  simp [Statement.writes, hRequest, hAsked, hPayer]

theorem isMutable_iff (h : resolveInstruction p r.source = .ok r) (ha : a ∈ r.accounts) :
    a.isMutable = true ↔ r.Writes a := by
  rw [isMutable_iff_writes h ha]
  constructor
  · rintro (⟨s, hs, hName⟩ | ⟨hRole, hDerives⟩)
    · exact writes_of_mem h hs hName
    · exact .held hRole hDerives
  · intro hWrites
    cases hWrites with
    | created hCreates => exact .inl (exists_writes_of_created hCreates)
    | paid hMem hInit hPayer => exact .inl (exists_writes_of_paid h hMem hInit hPayer)
    | assigned hAssigned =>
      obtain ⟨pos, s, hs, hAccount, _⟩ := hAssigned
      exact .inl ⟨_, hs, List.mem_singleton.mpr hAccount.symm⟩
    | moved hMem hMoves => exact .inl ⟨_, hMem, CallAction.mem_changed_iff.mpr hMoves⟩
    | closed hCloses =>
      obtain ⟨c, hc, hAccount⟩ := hCloses
      obtain ⟨pos, hs⟩ := mem_closings.mp hc
      exact .inl ⟨_, hs, List.mem_cons.mpr (.inl hAccount.symm)⟩
    | refunded hMem hDestination =>
      obtain ⟨pos, hs⟩ := mem_closings.mp hMem
      exact .inl ⟨_, hs, List.mem_cons_of_mem _ (List.mem_singleton.mpr hDestination.symm)⟩
    | held hRole hDerives => exact .inr ⟨hRole, hDerives⟩

/-- The marks depend on the parameters and on which statements there are, not on their order. -/
theorem marks_eq_of_perm {p' : Program} {i i' : Instruction} {r r' : ResolvedInstruction}
    (h : resolveInstruction p i = .ok r) (h' : resolveInstruction p' i' = .ok r')
    (hParams : i.params = i'.params) (hPerm : i.body.Perm i'.body) :
    r.accounts.map (fun a => (a.name, a.isMutable)) =
      r'.accounts.map (fun a => (a.name, a.isMutable)) := by
  obtain ⟨g, hg, hAccounts⟩ := exists_map_initial h
  obtain ⟨g', hg', hAccounts'⟩ := exists_map_initial h'
  have hInitial : (Scope.initial i').accounts = (Scope.initial i).accounts := by
    rw [Scope.initial, Scope.initial, hParams]
  rw [hInitial] at hAccounts'
  have hSigners : signerNames r.accounts = signerNames r'.accounts := by
    rw [hAccounts, hAccounts', signerNames_map hg, signerNames_map hg']
  have hMarks : ∀ a ∈ (Scope.initial i).accounts, (g a).isMutable = (g' a).isMutable := by
    intro a ha
    have hMem : g a ∈ r.accounts := hAccounts ▸ List.mem_map_of_mem ha
    have hMem' : g' a ∈ r'.accounts := hAccounts' ▸ List.mem_map_of_mem ha
    rw [Bool.eq_iff_iff, isMutable_iff_writes h hMem, isMutable_iff_writes h' hMem', hSigners,
      (hg a).1, (hg' a).1, (hg a).2.1, (hg' a).2.1, derivesFromSeeds_perm hPerm]
    simp only [hPerm.mem_iff]
  rw [hAccounts, hAccounts', List.map_map, List.map_map]
  refine List.map_congr_left fun a ha => ?_
  simp only [Function.comp_apply, (hg a).1, (hg' a).1, hMarks a ha]

end Resolution

/-- An account of a resolved program is writable exactly if its instruction writes it, and so
another order of the statements, where it resolves too, makes the same accounts writable. -/
theorem Program.isMutable_exact {p : Program} {r : ResolvedProgram} (h : p.resolve = .ok r) :
    ∀ i ∈ r.instructions, (∀ a ∈ i.accounts, a.isMutable = true ↔ i.Writes a) ∧
      ∀ p' r', Program.resolve p' = .ok r' → ∀ i' ∈ r'.instructions,
        i.source.params = i'.source.params → i.source.body.Perm i'.source.body →
          i.accounts.map (fun a => (a.name, a.isMutable)) =
            i'.accounts.map (fun a => (a.name, a.isMutable)) := by
  intro i hi
  obtain ⟨_, hResolved⟩ := Program.resolved_of_mem h hi
  refine ⟨fun a ha => Resolution.isMutable_iff hResolved ha, ?_⟩
  intro p' r' h' i' hi' hParams hPerm
  obtain ⟨_, hResolved'⟩ := Program.resolved_of_mem h' hi'
  exact Resolution.marks_eq_of_perm hResolved hResolved' hParams hPerm

/-- A program with this body, which has an account for every way of being written and one that is
left alone. -/
def settlingProgram (body : List Statement) : Program :=
  { file := "settle.ts", name := "Settle", programId := []
    states := [{ name := "Ledger", pos := ⟨1, 1⟩, fields := [⟨"total", .u64, ⟨1, 1⟩⟩] }]
    instructions := [{
      name := "settle", returns := none, pos := ⟨2, 1⟩
      params := [⟨"owner", .account .signer, ⟨2, 1⟩⟩,
        ⟨"ledger", .account (.state "Ledger"), ⟨2, 2⟩⟩, ⟨"old", .account (.state "Ledger"), ⟨2, 3⟩⟩,
        ⟨"vault", .account .systemAccount, ⟨2, 4⟩⟩, ⟨"sink", .account .systemAccount, ⟨2, 5⟩⟩,
        ⟨"idle", .account .systemAccount, ⟨2, 6⟩⟩]
      body }] }

def settlingBody : List Statement :=
  [.derive ⟨3, 1⟩ ⟨"ledger", .seeds [.string ⟨3, 2⟩ "ledger"], some ⟨none⟩⟩,
    .assign ⟨4, 1⟩ ⟨"ledger", "total", .int ⟨4, 2⟩ "5"⟩,
    .call ⟨5, 1⟩ ⟨.systemTransfer "owner" "sink", .int ⟨5, 2⟩ "1", none⟩,
    .close ⟨6, 1⟩ ⟨"old", "sink"⟩,
    .derive ⟨7, 1⟩ ⟨"vault", .seeds [.string ⟨7, 2⟩ "vault"], none⟩]

theorem settlingProgram_isMutable_exact :
    ∃ r r', (settlingProgram settlingBody).resolve = .ok r ∧
      (settlingProgram settlingBody.reverse).resolve = .ok r' ∧
      ∃ i ∈ r.instructions, ∃ i' ∈ r'.instructions,
        (i.accounts.filter (·.isMutable)).map (·.name) =
          ["owner", "ledger", "old", "vault", "sink"] ∧
        (∀ a ∈ i.accounts, a.isMutable = true ↔ i.Writes a) ∧
        i.accounts.map (fun a => (a.name, a.isMutable)) =
          i'.accounts.map (fun a => (a.name, a.isMutable)) := by
  obtain ⟨r, hr, hMarks⟩ := exists_ok_of_any (x := (settlingProgram settlingBody).resolve)
    (fun r => r.instructions.any fun i => (i.accounts.filter (·.isMutable)).map (·.name) ==
      ["owner", "ledger", "old", "vault", "sink"]) (by decide)
  obtain ⟨r', hr', hSome⟩ :=
    exists_ok_of_any (x := (settlingProgram settlingBody.reverse).resolve)
      (fun r => r.instructions.any fun _ => true) (by decide)
  obtain ⟨i, hi, hMarks⟩ := List.any_eq_true.mp hMarks
  obtain ⟨i', hi', _⟩ := List.any_eq_true.mp hSome
  obtain ⟨hExact, hOrder⟩ := Program.isMutable_exact hr i hi
  have hSource := List.mem_singleton.mp (Program.resolved_of_mem hr hi).1
  have hSource' := List.mem_singleton.mp (Program.resolved_of_mem hr' hi').1
  refine ⟨r, r', hr, hr', i, hi, i', hi', by simpa using hMarks, hExact, ?_⟩
  refine hOrder _ r' hr' i' hi' ?_ ?_
  · rw [hSource, hSource']
  · rw [hSource, hSource']
    exact (List.reverse_perm settlingBody).symm

end AnchorScript
