import AnchorScript.Proofs.Resolution.DerivationCheck

/-!
# Accounts that are created and closed

A closing is refused where the account is already created, and nothing else keeps the two apart. So
an account ends up both created and closed exactly if its closing stands before the derivation that
creates it.
-/

namespace AnchorScript

open Outcome

def Statement.closing? : Statement → Option CloseAccount
  | .close _ c => some c
  | _ => none

def closings (body : List Statement) : List CloseAccount := body.filterMap Statement.closing?

theorem mem_closings {body : List Statement} {c : CloseAccount} :
    c ∈ closings body ↔ ∃ pos, Statement.close pos c ∈ body := by
  rw [closings, List.mem_filterMap]
  constructor
  · rintro ⟨s, hs, hc⟩
    cases s <;> simp only [Statement.closing?, Option.some.injEq, reduceCtorEq] at hc
    subst hc
    exact ⟨_, hs⟩
  · rintro ⟨pos, hs⟩
    exact ⟨_, hs, rfl⟩

/-- A derivation among the statements creates the account. -/
def Creates (body : List Statement) (account : Text) : Prop :=
  ∃ d ∈ derivations body, d.account = account ∧ d.init.isSome = true

def Closes (body : List Statement) (account : Text) : Prop :=
  ∃ c ∈ closings body, c.account = account

/-- The account is closed, and created by a later statement. -/
def ClosesThenCreates (body : List Statement) (account : Text) : Prop :=
  ∃ before pos c after, body = before ++ .close pos c :: after ∧ c.account = account ∧
    Creates after account

/-- The account is created, and closed by a later statement. -/
def CreatesThenCloses (body : List Statement) (account : Text) : Prop :=
  ∃ before pos c after, body = before ++ .close pos c :: after ∧ c.account = account ∧
    Creates before account

theorem creates_append {l l' : List Statement} {account : Text} :
    Creates (l ++ l') account ↔ Creates l account ∨ Creates l' account := by
  simp only [Creates, derivations, List.filterMap_append, List.mem_append]
  constructor
  · rintro ⟨d, hd | hd, hCreates⟩
    · exact .inl ⟨d, hd, hCreates⟩
    · exact .inr ⟨d, hd, hCreates⟩
  · rintro (⟨d, hd, hCreates⟩ | ⟨d, hd, hCreates⟩)
    · exact ⟨d, .inl hd, hCreates⟩
    · exact ⟨d, .inr hd, hCreates⟩

theorem closes_append {l l' : List Statement} {account : Text} :
    Closes (l ++ l') account ↔ Closes l account ∨ Closes l' account := by
  simp only [Closes, closings, List.filterMap_append, List.mem_append]
  constructor
  · rintro ⟨c, hc | hc, hAccount⟩
    · exact .inl ⟨c, hc, hAccount⟩
    · exact .inr ⟨c, hc, hAccount⟩
  · rintro (⟨c, hc, hAccount⟩ | ⟨c, hc, hAccount⟩)
    · exact ⟨c, .inl hc, hAccount⟩
    · exact ⟨c, .inr hc, hAccount⟩

theorem creates_derive {pos : SourcePos} {d : Derive} {account : Text} :
    Creates [.derive pos d] account ↔ d.account = account ∧ d.init.isSome = true := by
  simp [Creates, derivations, Statement.derivation?]

theorem closes_close {pos : SourcePos} {c : CloseAccount} {account : Text} :
    Closes [.close pos c] account ↔ c.account = account := by
  simp [Closes, closings, Statement.closing?]

/-- The closing that closes an account splits the body. -/
theorem exists_split_of_closes {body : List Statement} {account : Text} (h : Closes body account) :
    ∃ before pos c after, body = before ++ .close pos c :: after ∧ c.account = account := by
  obtain ⟨c, hc, hAccount⟩ := h
  obtain ⟨pos, hs⟩ := mem_closings.mp hc
  obtain ⟨before, after, rfl⟩ := List.append_of_mem hs
  exact ⟨before, pos, c, after, rfl, hAccount⟩

/-- A closing in a body that grew by one statement is an earlier one, or that statement. -/
theorem split_append_singleton {done before after : List Statement} {s t : Statement}
    (h : done ++ [s] = before ++ t :: after) :
    (∃ after', done = before ++ t :: after' ∧ after = after' ++ [s]) ∨
      (done = before ∧ s = t ∧ after = []) := by
  rcases List.eq_nil_or_concat after with rfl | ⟨after', u, rfl⟩
  · obtain ⟨hDone, hLast⟩ := List.append_inj' h rfl
    exact .inr ⟨hDone, List.singleton_inj.mp hLast, rfl⟩
  · rw [List.concat_eq_append, ← List.cons_append, ← List.append_assoc] at h
    obtain ⟨hDone, hLast⟩ := List.append_inj' h rfl
    rw [List.singleton_inj.mp hLast]
    exact .inl ⟨after', hDone, List.concat_eq_append⟩

/-- The records tell which accounts the statements done have created and closed, and no closing
among them comes after the creation of its account. -/
structure Tells (done : List Statement) (accounts : List AccountRef) : Prop where
  created : ∀ a ∈ accounts, a.isInitialized = true ↔ Creates done a.name
  closed : ∀ a ∈ accounts, a.closeTo.isSome = true ↔ Closes done a.name
  order : ∀ before pos c after, done = before ++ .close pos c :: after →
    ¬Creates before c.account

namespace Tells

theorem initial (i : Instruction) : Tells [] (Scope.initial i).accounts := by
  have hBlank : ∀ a ∈ (Scope.initial i).accounts, a.init = none ∧ a.closeTo = none := by
    intro a ha
    obtain ⟨param, _, hParam⟩ := List.mem_filterMap.mp ha
    split at hParam
    · cases hParam
      exact ⟨rfl, rfl⟩
    · cases hParam
  constructor
  · intro a ha
    simp [AccountRef.isInitialized, hBlank a ha, Creates, derivations]
  · intro a ha
    simp [hBlank a ha, Closes, closings]
  · intro before pos c after h
    simp at h

variable {done : List Statement} {accounts : List AccountRef} {s : Statement}

/-- One more statement, whose effect on a record is what the statement says. -/
theorem extend {e : Effect} (h : Tells done accounts)
    (hCreated : ∀ a ∈ accounts, (e.apply a).isInitialized = true ↔
      a.isInitialized = true ∨ Creates [s] a.name)
    (hClosed : ∀ a ∈ accounts, (e.apply a).closeTo.isSome = true ↔
      a.closeTo.isSome = true ∨ Closes [s] a.name)
    (hLast : ∀ pos c, s = .close pos c → ¬Creates done c.account) :
    Tells (done ++ [s]) (accounts.map e.apply) := by
  constructor
  · intro b hb
    obtain ⟨a, ha, rfl⟩ := List.mem_map.mp hb
    rw [hCreated a ha, h.created a ha, Effect.name_apply, creates_append]
  · intro b hb
    obtain ⟨a, ha, rfl⟩ := List.mem_map.mp hb
    rw [hClosed a ha, h.closed a ha, Effect.name_apply, closes_append]
  · intro before pos c after hSplit
    rcases split_append_singleton hSplit with ⟨after', hDone, _⟩ | ⟨rfl, hSame, _⟩
    · exact h.order before pos c after' hDone
    · exact hLast pos c hSame

/-- A statement that neither derives nor closes an account. -/
theorem extend_write (names : List Text) (h : Tells done accounts)
    (hDerives : s.derivation? = none) (hCloses : s.closing? = none) :
    Tells (done ++ [s]) (accounts.map (Effect.write names).apply) := by
  refine h.extend ?_ ?_ ?_
  · intro a _
    simp [AccountRef.isInitialized, Effect.write, Effect.apply, AccountRef.withOrigin,
      AccountRef.origin, Creates, derivations, hDerives]
  · intro a _
    simp [Effect.write, Closes, closings, hCloses]
  · rintro pos c rfl
    cases hCloses

theorem step {env : Surroundings} {index : Nat} {sc sc' : Scope}
    (hUnique : ∀ d ∈ derivations (done ++ [s]), ∀ d' ∈ derivations (done ++ [s]),
      d.account = d'.account → d = d')
    (h : Tells done sc.accounts) (hStep : Scope.Step env index sc s sc') :
    Tells (done ++ [s]) sc'.accounts := by
  cases hStep with
  | @derive pos d ref seeds o hRef hForm hSeeds hToken hAddress hInit =>
    have hSome : o.init.isSome = d.init.isSome := (Scope.initialization_ok hInit).1
    refine h.extend ?_ ?_ (fun _ _ hClose => by cases hClose)
    · intro a ha
      rw [creates_derive]
      by_cases hName : a.name = d.account
      · have hInitialized : ((Effect.derive d.account o).apply a).isInitialized = d.init.isSome := by
          rw [← hSome]
          simp [AccountRef.isInitialized, Effect.apply, Effect.derive, hName, AccountRef.withOrigin]
        rw [hInitialized]
        refine ⟨fun hd => .inr ⟨hName.symm, hd⟩, ?_⟩
        rintro (hBefore | ⟨_, hd⟩)
        · obtain ⟨d', hd', hAccount, hInit'⟩ := (h.created a ha).mp hBefore
          rw [derivations, List.filterMap_append] at hUnique
          rw [← hUnique d' (List.mem_append_left _ hd') d
            (List.mem_append_right _ List.mem_cons_self) (hAccount.trans hName)]
          exact hInit'
        · exact hd
      · simp [AccountRef.isInitialized, Effect.apply, Effect.derive, hName, AccountRef.withOrigin,
          AccountRef.origin, Ne.symm hName]
    · intro a _
      simp [Effect.derive, Closes, closings, Statement.closing?]
  | @assign pos a => exact h.extend_write [a.account] rfl rfl
  | @call pos c => exact h.extend_write (c.action.changed.map Prod.fst) rfl rfl
  | @bind pos l =>
    have hSame : sc.accounts.map (Effect.write []).apply = sc.accounts :=
      congrArg Scope.accounts (Scope.affect_write_nil sc)
    have hWrite := h.extend_write (s := .bind pos l) [] rfl rfl
    rw [hSame] at hWrite
    exact hWrite
  | @close pos c ref hRef hState hInit hOpen hDestination =>
    refine h.extend ?_ ?_ ?_
    · intro a _
      simp [AccountRef.isInitialized, Effect.close, Effect.apply, AccountRef.withOrigin,
        AccountRef.origin, Creates, derivations, Statement.derivation?]
    · intro a _
      rw [closes_close]
      by_cases hName : a.name = c.account
      · simp [Effect.close, hName]
      · simp [Effect.close, hName, Ne.symm hName]
    · rintro _ _ hSame hCreates
      cases hSame
      rw [← name_of_recordOf?_eq_some hRef,
        ← h.created ref (mem_of_recordOf?_eq_some hRef), hInit] at hCreates
      cases hCreates

end Tells

namespace Resolution

/-- The records of a resolved instruction tell what its body creates and closes. -/
theorem tells_of_resolveInstruction {p : Program} {i : Instruction} {r : ResolvedInstruction}
    (h : resolveInstruction p i = .ok r) : Tells i.body r.accounts := by
  obtain ⟨_, sc, hRun, rfl⟩ := resolveInstruction_eq_ok_iff.mp h
  have hTells : Tells i.body sc.accounts := by
    refine (Scope.run_of_resolveBody hRun).induction (P := fun done sc => Tells done sc.accounts)
      (.initial i) ?_
    intro before s after _ sc₁ sc₂ hBody hBefore hStep
    refine hBefore.step ?_ hStep
    have hMem : ∀ d ∈ derivations (before ++ [s]), d ∈ derivations i.body := by
      intro d hd
      rw [hBody, List.append_cons, derivations, List.filterMap_append]
      exact List.mem_append_left _ hd
    exact fun d hd d' hd' => derivation_unique h (hMem d hd) (hMem d' hd')
  have hKept : ∀ a, (finishAccount a).name = a.name ∧ (finishAccount a).init = a.init ∧
      (finishAccount a).closeTo = a.closeTo := by
    intro a
    rw [finishAccount]
    split <;> exact ⟨rfl, rfl, rfl⟩
  constructor
  · intro b hb
    obtain ⟨a, ha, rfl⟩ := List.mem_map.mp hb
    rw [AccountRef.isInitialized, (hKept a).2.1, (hKept a).1]
    exact hTells.created a ha
  · intro b hb
    obtain ⟨a, ha, rfl⟩ := List.mem_map.mp hb
    rw [(hKept a).2.2, (hKept a).1]
    exact hTells.closed a ha
  · exact hTells.order

end Resolution

theorem Tells.both_iff {body : List Statement} {accounts : List AccountRef}
    (h : Tells body accounts) {a : AccountRef} (ha : a ∈ accounts) :
    (a.isInitialized = true ∧ a.closeTo.isSome = true) ↔ ClosesThenCreates body a.name := by
  rw [h.created a ha, h.closed a ha]
  constructor
  · rintro ⟨hCreates, hCloses⟩
    obtain ⟨before, pos, c, after, rfl, hAccount⟩ := exists_split_of_closes hCloses
    refine ⟨before, pos, c, after, rfl, hAccount, ?_⟩
    have hNotBefore := h.order before pos c after rfl
    rw [hAccount] at hNotBefore
    rw [List.append_cons, creates_append, creates_append] at hCreates
    rcases hCreates with (hBefore | hHere) | hAfter
    · exact absurd hBefore hNotBefore
    · simp [Creates, derivations, Statement.derivation?] at hHere
    · exact hAfter
  · rintro ⟨before, pos, c, after, rfl, hAccount, hAfter⟩
    rw [List.append_cons, creates_append, closes_append, closes_append, closes_close]
    exact ⟨.inr hAfter, .inl (.inr hAccount)⟩

/-- In a resolved program no account is created and then closed, but an account can be both: exactly
if its closing stands before the derivation that creates it. -/
theorem Program.created_and_closed_iff {p : Program} {r : ResolvedProgram} (h : p.resolve = .ok r) :
    ∀ i ∈ r.instructions, (∀ account, ¬CreatesThenCloses i.source.body account) ∧
      ∀ a ∈ i.accounts, (a.isInitialized = true ∧ a.closeTo.isSome = true) ↔
        ClosesThenCreates i.source.body a.name := by
  obtain ⟨_, hInstructions⟩ := Program.resolve_eq_ok_iff.mp h
  intro i hi
  obtain ⟨source, _, hResolved⟩ := exists_of_mem_right hInstructions hi
  have hTells := Resolution.tells_of_resolveInstruction hResolved
  obtain ⟨_, sc, _, rfl⟩ := Resolution.resolveInstruction_eq_ok_iff.mp hResolved
  refine ⟨?_, fun a ha => hTells.both_iff ha⟩
  rintro account ⟨before, pos, c, after, hBody, rfl, hCreates⟩
  exact hTells.order before pos c after hBody hCreates

/-- A program that closes an account and then creates it. -/
def reopeningProgram : Program :=
  { file := "reopen.ts", name := "Reopen", programId := []
    states := [{ name := "Vault", pos := ⟨1, 1⟩, fields := [⟨"n", .u64, ⟨1, 1⟩⟩] }]
    instructions := [{
      name := "run", returns := none, pos := ⟨2, 1⟩
      params := [⟨"p", .account .signer, ⟨2, 1⟩⟩, ⟨"s", .account (.state "Vault"), ⟨2, 2⟩⟩]
      body := [
        .close ⟨3, 1⟩ ⟨"s", "p"⟩,
        .derive ⟨4, 1⟩ ⟨"s", .seeds [.string ⟨4, 2⟩ "s"], some ⟨none⟩⟩] }] }

theorem reopeningProgram_created_and_closed : ∃ r, reopeningProgram.resolve = .ok r ∧
    ∃ i ∈ r.instructions, ∃ a ∈ i.accounts, a.isInitialized = true ∧ a.closeTo.isSome = true ∧
      ClosesThenCreates i.source.body a.name := by
  obtain ⟨r, hr, hBoth⟩ := exists_ok_of_any (x := reopeningProgram.resolve)
    (fun r => r.instructions.any fun i =>
      i.accounts.any fun a => a.isInitialized && a.closeTo.isSome) (by decide)
  obtain ⟨i, hi, hBoth⟩ := List.any_eq_true.mp hBoth
  obtain ⟨a, ha, hBoth⟩ := List.any_eq_true.mp hBoth
  obtain ⟨hCreated, hClosed⟩ := Bool.and_eq_true_iff.mp hBoth
  refine ⟨r, hr, i, hi, a, ha, hCreated, hClosed, ?_⟩
  exact ((Program.created_and_closed_iff hr i hi).2 a ha).mp ⟨hCreated, hClosed⟩

end AnchorScript
