import AnchorScript.Proofs.Resolution.Closing
import AnchorScript.Proofs.Resolution.Reads

/-!
# Definition before use

What a statement reads is established by the statements before it: a variable is declared, a bump
belongs to an account that is derived from seeds, and a field of an account that the instruction
creates is written, whichever statement creates the account. Derivations are no exception for
variables and bumps, and read no field of a created account at all.
-/

namespace AnchorScript

open Outcome

def DeclaresVariable (done : List Statement) (name : Text) : Prop :=
  ∃ pos l, Statement.bind pos l ∈ done ∧ l.name = name

def DerivesFromSeeds (done : List Statement) (account : Text) : Prop :=
  ∃ pos d, Statement.derive pos d ∈ done ∧ d.account = account ∧ d.form.isAssociated = false

def WritesField (done : List Statement) (account field : Text) : Prop :=
  ∃ pos a, Statement.assign pos a ∈ done ∧ a.account = account ∧ a.field = field

/-- What the statement with this index reads is established by the statements before it. -/
structure ReadsEstablished (body : List Statement) (index : Nat) (s : Statement) : Prop where
  declared : ∀ pos name asBytes, Value.var pos name asBytes ∈ s.reads →
    DeclaresVariable (body.take index) name
  derived : ∀ pos account, Value.bump pos account ∈ s.reads →
    DerivesFromSeeds (body.take index) account
  written : ∀ pos account field asBytes, Value.field pos account field asBytes ∈ s.reads →
    Creates body account → s.derivation? = none ∧ WritesField (body.take index) account field

section Monotone

variable {done done' : List Statement}

theorem DeclaresVariable.mono {name : Text} (h : DeclaresVariable done name) (hDone : done ⊆ done') :
    DeclaresVariable done' name := by
  obtain ⟨pos, l, hMem, hName⟩ := h
  exact ⟨pos, l, hDone hMem, hName⟩

theorem DerivesFromSeeds.mono {account : Text} (h : DerivesFromSeeds done account)
    (hDone : done ⊆ done') : DerivesFromSeeds done' account := by
  obtain ⟨pos, d, hMem, hDerives⟩ := h
  exact ⟨pos, d, hDone hMem, hDerives⟩

theorem WritesField.mono {account field : Text} (h : WritesField done account field)
    (hDone : done ⊆ done') : WritesField done' account field := by
  obtain ⟨pos, a, hMem, hWrites⟩ := h
  exact ⟨pos, a, hDone hMem, hWrites⟩

end Monotone

namespace Scope

/-- A record that a statement does not derive keeps its origin. -/
theorem Step.origin_kept {env : Surroundings} {index : Nat} {sc sc' : Scope} {s : Statement}
    (h : Step env index sc s sc') {b : AccountRef} (hb : b ∈ sc'.accounts)
    (hOther : ∀ d, s.derivation? = some d → d.account ≠ b.name) :
    ∃ a ∈ sc.accounts, a.name = b.name ∧ a.origin = b.origin := by
  obtain ⟨e, hAccounts, hOrigin⟩ := h.exists_effect
  rw [hAccounts] at hb
  obtain ⟨a, ha, rfl⟩ := List.mem_map.mp hb
  refine ⟨a, ha, rfl, ?_⟩
  rw [Effect.origin_apply, hOrigin a.name hOther, Option.getD_none]

/-- All that the scope holds was put there by the statements done. -/
structure Established (done : List Statement) (sc : Scope) : Prop where
  locals : ∀ l ∈ sc.locals, DeclaresVariable done l.1
  derived : ∀ a ∈ sc.accounts, a.isProgramDerived = true → DerivesFromSeeds done a.name
  written : ∀ ref ∈ sc.written, WritesField done ref.account ref.field

namespace Established

variable {env : Surroundings} {index : Nat} {sc sc' : Scope} {s : Statement}
  {done : List Statement}

theorem initial (i : Instruction) : Established [] (.initial i) := by
  refine ⟨by simp [Scope.initial], ?_, by simp [Scope.initial]⟩
  intro a ha hDerived
  obtain ⟨param, _, hParam⟩ := List.mem_filterMap.mp ha
  split at hParam
  · cases hParam
    cases hDerived
  · cases hParam

theorem locals_step (h : Established done sc) (hStep : Step env index sc s sc') :
    ∀ l ∈ sc'.locals, DeclaresVariable (done ++ [s]) l.1 := by
  have hEarlier : ∀ l ∈ sc.locals, DeclaresVariable (done ++ [s]) l.1 :=
    fun l hl => (h.locals l hl).mono (List.subset_append_left done [s])
  cases hStep with
  | @bind pos b =>
    refine List.forall_mem_cons.mpr ⟨⟨pos, b, ?_, rfl⟩, hEarlier⟩
    exact List.mem_append_right done List.mem_cons_self
  | _ => exact hEarlier

theorem written_step (h : Established done sc) (hStep : Step env index sc s sc') :
    ∀ ref ∈ sc'.written, WritesField (done ++ [s]) ref.account ref.field := by
  have hEarlier : ∀ ref ∈ sc.written, WritesField (done ++ [s]) ref.account ref.field :=
    fun ref hRef => (h.written ref hRef).mono (List.subset_append_left done [s])
  cases hStep with
  | @assign pos a =>
    refine List.forall_mem_cons.mpr ⟨⟨pos, a, ?_, rfl, rfl⟩, hEarlier⟩
    exact List.mem_append_right done List.mem_cons_self
  | _ => exact hEarlier

theorem derived_step (h : Established done sc) (hStep : Step env index sc s sc') :
    ∀ a ∈ sc'.accounts, a.isProgramDerived = true → DerivesFromSeeds (done ++ [s]) a.name := by
  intro b hb hDerived
  by_cases hOther : ∀ d, s.derivation? = some d → d.account ≠ b.name
  · obtain ⟨a, ha, hName, hOrigin⟩ := hStep.origin_kept hb hOther
    have hAddress : a.address = b.address := congrArg Origin.address hOrigin
    rw [← hName]
    refine (h.derived a ha ?_).mono (List.subset_append_left done [s])
    rw [AccountRef.isProgramDerived, hAddress]
    exact hDerived
  · push Not at hOther
    obtain ⟨d, hDerivation, hAccount⟩ := hOther
    cases hStep with
    | @derive pos _ ref seeds o hRef hForm hSeeds hToken hAddress hInit =>
      cases hDerivation
      refine ⟨pos, d, List.mem_append_right done List.mem_cons_self, hAccount, ?_⟩
      obtain ⟨a, _, rfl⟩ := List.mem_map.mp hb
      have hOrigin : ((Effect.derive d.account o).apply a).origin = o := by
        rw [Effect.name_apply] at hAccount
        simp [Effect.derive, hAccount]
      have hIs : ((Effect.derive d.account o).apply a).address = o.address :=
        congrArg Origin.address hOrigin
      rw [AccountRef.isProgramDerived, hIs, (addressSource_ok hAddress).2.1] at hDerived
      simpa using hDerived
    | _ => cases hDerivation

theorem declares_of_varType? (h : Established done sc) {name : Text} {t : ValueType}
    (hType : sc.varType? name = some t) : DeclaresVariable done name := by
  obtain ⟨front, back, hLocals, _⟩ := List.lookup_eq_some_iff.mp hType
  refine h.locals (name, t) ?_
  rw [hLocals]
  exact List.mem_append_right front List.mem_cons_self

theorem step (h : Established done sc) (hStep : Step env index sc s sc') :
    Established (done ++ [s]) sc' :=
  ⟨h.locals_step hStep, h.derived_step hStep, h.written_step hStep⟩

end Established

theorem Run.established {env : Surroundings} {index : Nat} {sc sc' : Scope} {body : List Statement}
    (h : Run env index sc body sc') (hStart : Established [] sc) : Established body sc' :=
  h.induction hStart fun _ _ _ _ _ _ _ hDone hStep => hDone.step hStep

end Scope

/-- An account that some derivation creates counts as created from the start. -/
theorem Surroundings.initializes_of_creates {env : Surroundings} {account : Text}
    (hUnique : ∀ d ∈ derivations env.instruction.body, ∀ d' ∈ derivations env.instruction.body,
      d.account = d'.account → d = d')
    (h : Creates env.instruction.body account) : env.initializes account = true := by
  obtain ⟨d, hd, hAccount, hInit⟩ := h
  by_contra hNot
  rw [env.init_eq_none_of_not_initializes hUnique (by simpa using hNot) hd hAccount] at hInit
  cases hInit

theorem Resolution.readsEstablished {p : Program} {i : Instruction} {r : ResolvedInstruction}
    (h : resolveInstruction p i = .ok r) {index : Nat} {s : Statement}
    (hIndex : i.body[index]? = some s) : ReadsEstablished i.body index s := by
  obtain ⟨before, after, hBody, rfl⟩ := exists_split_of_getElem? hIndex
  obtain ⟨sc, hRun, _⟩ := run_of_resolveInstruction h
  have hTake : i.body.take before.length = before := by
    rw [hBody, List.take_left]
  rw [hBody] at hRun
  obtain ⟨sc₁, sc₂, hBefore, hStep, _⟩ := hRun.split
  have hEstablished : Scope.Established before sc₁ := hBefore.established (.initial i)
  have hCreated {account : Text} (hCreates : Creates i.body account) :
      Surroundings.initializes ⟨p, i⟩ account = true :=
    Surroundings.initializes_of_creates (fun d hd d' hd' => derivation_unique h hd hd') hCreates
  constructor
  · intro pos name asBytes hRead
    rw [hTake]
    cases hStep.readable _ hRead with
    | var hType => exact hEstablished.declares_of_varType? hType
  · intro pos account hRead
    rw [hTake]
    cases hStep.readable _ hRead with
    | bump hRef hDerived =>
      rw [← name_of_recordOf?_eq_some hRef]
      exact hEstablished.derived _ (mem_of_recordOf?_eq_some hRef) hDerived
  · intro pos account field asBytes hRead hCreates
    rw [hTake]
    cases hStep.readable _ hRead with
    | field hField hWritten =>
      refine ⟨?_, hEstablished.written _ (hWritten (hCreated hCreates))⟩
      cases s with
      | derive dpos d =>
        have hExisting := (hStep.readable_derive _ hRead).2 pos account field asBytes rfl
        rw [hCreated hCreates] at hExisting
        cases hExisting
      | _ => rfl

/-- In a resolved program every statement reads only what the statements before it establish. -/
theorem Program.reads_established {p : Program} {r : ResolvedProgram} (h : p.resolve = .ok r) :
    ∀ i ∈ p.instructions, ∀ index s, i.body[index]? = some s →
      ReadsEstablished i.body index s := by
  obtain ⟨_, hInstructions⟩ := Program.resolve_eq_ok_iff.mp h
  intro i hi index s hIndex
  obtain ⟨ri, _, hResolved⟩ := exists_of_mem_left hInstructions hi
  exact Resolution.readsEstablished hResolved hIndex

/-- A program that creates an account, keeps its bump in a variable and in a field, and reads the
field back. -/
def bumpKeepingProgram : Program :=
  { file := "keep.ts", name := "Keep", programId := []
    states := [{ name := "Vault", pos := ⟨1, 1⟩
                 fields := [⟨"bump", .u8, ⟨1, 1⟩⟩, ⟨"copy", .u8, ⟨1, 2⟩⟩] }]
    instructions := [{
      name := "run", returns := none, pos := ⟨2, 1⟩
      params := [⟨"p", .account .signer, ⟨2, 1⟩⟩, ⟨"s", .account (.state "Vault"), ⟨2, 2⟩⟩]
      body := [
        .derive ⟨3, 1⟩ ⟨"s", .seeds [.string ⟨3, 2⟩ "s"], some ⟨none⟩⟩,
        .bind ⟨4, 1⟩ ⟨"b", false, none, .bump ⟨4, 2⟩ "s"⟩,
        .assign ⟨5, 1⟩ ⟨"s", "bump", .var ⟨5, 2⟩ "b" false⟩,
        .assign ⟨6, 1⟩ ⟨"s", "copy", .paren ⟨6, 2⟩ (.field ⟨6, 3⟩ "s" "bump" false)⟩] }] }

theorem bumpKeepingProgram_reads_established : ∃ r, bumpKeepingProgram.resolve = .ok r ∧
    ∀ i ∈ bumpKeepingProgram.instructions, Creates i.body "s" ∧
      ∀ index s, i.body[index]? = some s → ReadsEstablished i.body index s := by
  obtain ⟨r, hr, _⟩ := exists_ok_of_any (x := bumpKeepingProgram.resolve)
    (fun r => r.instructions.length == 1) (by decide)
  refine ⟨r, hr, fun i hi => ⟨?_, Program.reads_established hr i hi⟩⟩
  rw [List.mem_singleton.mp hi]
  exact ⟨_, List.mem_cons_self, rfl, rfl⟩

end AnchorScript
