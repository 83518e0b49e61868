import AnchorScript.Proofs.Workspace.Incremental
import AnchorScript.Proofs.Workspace.Pool

/-!
# One worker

A build that goes through its sources one after the other is among the builds that several workers
may come to. With one worker there is no other.
-/

namespace AnchorScript

open FileTree Outcome

/-- A file that was just emptied gets its text as if it had been written at once. -/
theorem FileTree.overwrite_of_write {t t₁ t₂ : FileTree} {p d : Text} (h : t.write p [] = .ok t₁)
    (hWrite : t.write p d = .ok t₂) : t₁.overwrite p d = .ok t₂ := by
  have hRead := read_of_write h
  obtain ⟨_, _, _, _, _, rfl⟩ := write_eq_ok hWrite
  rw [overwrite, hRead]
  change t₁.write p (d ++ List.drop d.length []) = _
  rw [List.drop_nil, List.append_nil, write_of_read hRead]
  obtain ⟨_, _, _, _, _, rfl⟩ := write_eq_ok h
  rw [put_put]

namespace Workspace

open AnchorScript.Path

/-- How a source ends. -/
def Stage.ofResult : Except WorkspaceError (BuildResult × Option Artifact) → Stage
  | .ok b => built b
  | .error e => failed e

/-- What a source comes to if it goes on alone. -/
def Stage.Reaches (c : Config) (m : Manifest) (force : Bool) (p : Text) :
    FileTree × Stage → FileTree × Stage → Prop :=
  Relation.ReflTransGen fun x y => x.2.advance c m force false p x.1 = some y

section Alone

variable {c : Config} {m : Manifest} {force : Bool} {p : Text} {t t' : FileTree}

theorem reaches_saving (b : BuildResult × Option Artifact) {files : List (Text × Text)}
    {res : Except WorkspaceError Unit}
    (h : Work.outcome (files.forM fun f => writeBelow f.1 f.2) t = (res, t')) :
    Stage.Reaches c m force p (t, .saving b files) (t', .ofResult (res.map fun _ => b)) := by
  induction files generalizing t with
  | nil =>
    cases h
    exact .refl
  | cons f files ih =>
    obtain ⟨path, text⟩ := f
    change Work.outcome (writeBelow path text >>= fun _ => files.forM fun f => writeBelow f.1 f.2) t =
      (res, t') at h
    rw [Work.outcome_bind, writeBelow, Work.outcome_bind, Work.outcome_change] at h
    change Stage.Reaches c m force p (t, .creating b path text files) _
    cases hMake : t.makeDirectories (parent path) with
    | error e =>
      simp only [hMake] at h
      cases h
      exact .single (by rw [Stage.advance, hMake]; rfl)
    | ok t₁ =>
      simp only [hMake, Work.outcome_change] at h
      refine .head (b := (t₁, .opening b path text files)) (by rw [Stage.advance, hMake]) ?_
      rcases write_congr t₁ path text [] with ⟨e, hError, hError'⟩ | ⟨t₂, t₂', hWrite, hOpen⟩
      · simp only [hError] at h
        cases h
        exact .single (by rw [Stage.advance, hError']; rfl)
      · simp only [hWrite] at h
        refine .head (b := (t₂', .writing b path text files)) (by rw [Stage.advance, hOpen]) ?_
        refine .head (b := (t₂, Stage.saving b files)) ?_ (ih h)
        rw [Stage.advance, overwrite_of_write hOpen hWrite]

theorem reaches_compiled {src : Text} {res : Except WorkspaceError (BuildResult × Option Artifact)}
    (h : (compileSource c (target c p) src).outcome t = (res, t')) :
    Stage.Reaches c m force p (t, .compiled c p src) (t', .ofResult res) := by
  have hSource : (target c p).source = p := rfl
  rw [compileSource, hSource] at h
  unfold Stage.compiled
  cases hCompile : compile c.options p src with
  | error d =>
    rw [hCompile] at h
    cases h
    exact .refl
  | ok out =>
    rw [hCompile] at h
    dsimp only at h
    have hAll : Work.outcome ((filesOf (target c p) out).forM (fun f => writeBelow f.1 f.2) >>=
        fun _ => pure ({ target c p with program := out.program.name }, some (Artifact.ofOutput p
          (target c p).output (target c p).interface src c.options out))) t = (res, t') := by
      rw [← h, filesOf]
      cases out.interface <;> simp [List.forM, hSource]
    rcases Work.outcome_bind_eq hAll with ⟨_, t₁, hFiles, hDone⟩ | ⟨e, hFiles, rfl⟩
    · cases hDone
      exact reaches_saving _ hFiles
    · exact reaches_saving _ hFiles

/-- A current record is found to be so. -/
theorem reaches_skipped {src : Text} {a : Artifact}
    (h : isCurrent c t (target c p) src a = true) :
    Stage.Reaches c m force p (t, .comparing src a)
      (t, .built ({ target c p with program := a.program, isSkipped := true }, none)) := by
  obtain ⟨_, output, hOutput, hFiles⟩ := isCurrent_iff.mp h
  rcases hFiles with ⟨hPath, hUpToDate⟩ | ⟨hPath, text, hText, hUpToDate⟩
  · refine .single ?_
    simp [Stage.advance, hOutput, hPath, Stage.compared, hUpToDate]
  · refine .head (b := (t, Stage.comparingInterface src a output)) ?_ (.single ?_)
    · simp [Stage.advance, hOutput, hPath]
    · simp [Stage.advance, hText, Stage.compared, hUpToDate]

/-- A record that is not current is found not to be so. -/
theorem reaches_recompiled {src : Text} {a : Artifact}
    (hSame : a.interface = (target c p).interface)
    (h : isCurrent c t (target c p) src a ≠ true) :
    Stage.Reaches c m force p (t, .comparing src a) (t, .compiled c p src) := by
  rw [ne_eq, isCurrent_iff] at h
  cases hOutput : t.read (target c p).output with
  | error e => exact .single (by rw [Stage.advance, hOutput])
  | ok output =>
    by_cases hPath : (target c p).interface = []
    · have hStale : a.isUpToDate c.options src output none = false := by
        by_contra hUpToDate
        exact h ⟨hSame, output, hOutput, .inl ⟨hPath, by simpa using hUpToDate⟩⟩
      refine .single ?_
      simp [Stage.advance, hOutput, hPath, Stage.compared, hStale]
    · refine .head (b := (t, Stage.comparingInterface src a output)) ?_ (.single ?_)
      · simp [Stage.advance, hOutput, hPath]
      · cases hText : t.read (target c p).interface with
        | error e => rw [Stage.advance, hText]
        | ok text =>
          have hStale : a.isUpToDate c.options src output (some text) = false := by
            by_contra hUpToDate
            exact h ⟨hSame, output, hOutput, .inr ⟨hPath, text, hText, by simpa using hUpToDate⟩⟩
          simp [Stage.advance, hText, Stage.compared, hStale]

/-- Building a source alone is what it comes to if it goes on alone. -/
theorem reaches_of_buildSource {res : Except WorkspaceError (BuildResult × Option Artifact)}
    (h : (buildSource c m force p).outcome t = (res, t')) :
    Stage.Reaches c m force p (t, .unread) (t', .ofResult res) := by
  rcases buildSource_outcome h with ⟨e, hRead, rfl, rfl⟩ | ⟨src, hRead, hRest⟩
  · exact .single (by rw [Stage.advance, hRead]; rfl)
  have hCompared {a : Artifact} (hFound : m.lookup p = some a) (hForce : force = false)
      (hSame : a.interface = (target c p).interface) :
      Stage.advance c m force false p t .unread = some (t, .comparing src a) := by
    simp [Stage.advance, hRead, hFound, hForce, hSame]
  rcases hRest with ⟨a, ⟨hForce, hFound, hCurrent⟩, rfl, rfl⟩ | ⟨hOther, hCompile⟩
  · exact .head (hCompared hFound hForce (isCurrent_iff.mp hCurrent).1) (reaches_skipped hCurrent)
  · by_cases hRecord : ∃ a, m.lookup p = some a ∧ force = false ∧
        a.interface = (target c p).interface
    · obtain ⟨a, hFound, hForce, hSame⟩ := hRecord
      exact .head (hCompared hFound hForce hSame) ((reaches_recompiled hSame fun hCurrent =>
        hOther a ⟨hForce, hFound, hCurrent⟩).trans (reaches_compiled hCompile))
    · refine .head ?_ (reaches_compiled hCompile)
      simp only [not_exists, not_and] at hRecord
      cases hFound : m.lookup p with
      | none => simp [Stage.advance, hRead, hFound]
      | some a =>
        have hDiffers := hRecord a hFound
        simp only [Stage.advance, hRead, hFound]
        rw [if_neg (by simpa using hDiffers)]

end Alone

namespace Pool

variable {c : Config} {m : Manifest} {force cancelled : Bool} {t t' : FileTree}
  {before after : List (Text × Stage)} {p : Text} {s s' : Stage}

/-- What has ended has no further step. -/
theorem advance_eq_none (h : s.hasEnded = true) {stopped : Bool} :
    s.advance c m force stopped p t = none := by
  cases s with
  | built | failed => rfl
  | _ => cases h

/-- A source goes on alone in a build in which nothing has failed. -/
theorem next_of_reaches (h : Stage.Reaches c m force p (t, s) (t', s')) (hs : s.fault? = none) :
    Relation.ReflTransGen (Next c m force false) ⟨t, before ++ (p, s) :: after, none⟩
      ⟨t', before ++ (p, s') :: after, s'.fault?⟩ := by
  generalize hStart : (t, s) = x at h
  generalize hEnd : (t', s') = y at h
  induction h using Relation.ReflTransGen.head_induction_on generalizing t s with
  | refl =>
    cases hStart.trans hEnd.symm
    exact hs ▸ .refl
  | @head x y' hStep hRest ih =>
    obtain ⟨t₁, s₁⟩ := y'
    subst hStart
    refine .head (.advance hStep) ?_
    cases hFault : s₁.fault? with
    | none => exact ih hFault rfl
    | some e =>
      -- a source that failed goes no further
      have hEnded : s₁.hasEnded = true := by simp [Stage.hasEnded, hFault]
      rcases Relation.ReflTransGen.cases_head hRest with hSame | ⟨z, hMore, _⟩
      · cases hSame.trans hEnd.symm
        exact hFault ▸ .refl
      · rw [advance_eq_none hEnded] at hMore
        cases hMore

/-- A source starts when none runs. -/
theorem start_of_idle {fault : Option WorkspaceError} {qs : List Text}
    (hLimit : c.workspace.parallelism ≠ 0) (hDone : ∀ u ∈ before, u.2.hasEnded = true) :
    Next c m force cancelled ⟨t, before ++ (p, Stage.queued) :: qs.map (·, Stage.queued), fault⟩
      ⟨t, before ++ (p, Stage.begun) :: qs.map (·, Stage.queued), fault⟩ := by
  have hRest : ∀ u ∈ before, u.2.isQueued = false ∧ u.2.isRunning = false := by
    intro u hu
    have hEnded := hDone u hu
    cases hStage : u.2 with
    | built | failed => exact ⟨rfl, rfl⟩
    | _ =>
      rw [hStage] at hEnded
      cases hEnded
  refine .start (fun u hu => (hRest u hu).1) ?_
  have hNone : (before ++ (p, Stage.queued) :: qs.map (·, Stage.queued)).countP
      (·.2.isRunning) = 0 := by
    refine List.countP_eq_zero.mpr (List.forall_mem_append.mpr ⟨fun u hu => ?_, ?_⟩)
    · simp [(hRest u hu).2]
    · refine List.forall_mem_cons.mpr ⟨nofun, fun u hu => ?_⟩
      obtain ⟨q, _, rfl⟩ := List.mem_map.mp hu
      exact nofun
  rw [hasRoom, hNone]
  exact lt_or_gt_of_ne hLimit

/-- After a failure, or if the build is cancelled, the sources that wait end at once. -/
theorem drained {e : WorkspaceError} {qs : List Text} (hLimit : c.workspace.parallelism ≠ 0)
    (hDone : ∀ u ∈ before, u.2.hasEnded = true) :
    ∃ sources, Relation.ReflTransGen (Next c m force cancelled)
      ⟨t, before ++ qs.map (·, Stage.queued), some e⟩ ⟨t, sources, some e⟩ ∧
      ∀ u ∈ sources, u.2.hasEnded = true := by
  induction qs generalizing before with
  | nil => exact ⟨before, by simpa using .refl, hDone⟩
  | cons q qs ih =>
    have hNext : ∀ u ∈ before ++ [(q, Stage.failed .cancelled)], u.2.hasEnded = true :=
      List.forall_mem_append.mpr ⟨hDone, List.forall_mem_singleton.mpr rfl⟩
    obtain ⟨sources, hSteps, hEnded⟩ := ih hNext
    rw [List.append_assoc, List.singleton_append] at hSteps
    refine ⟨sources, .head (start_of_idle hLimit hDone) (.head ?_ hSteps), hEnded⟩
    exact .advance (u := .failed .cancelled) (by simp [Stage.advance])

/-- Once a source fails the build ends with that failure. -/
theorem ends_of_failed {pool : Pool} {e : WorkspaceError} {qs : List Text}
    (hLimit : c.workspace.parallelism ≠ 0) (hDone : ∀ u ∈ before, u.2.hasEnded = true)
    (h : Relation.ReflTransGen (Next c m force cancelled) pool
      ⟨t, before ++ (p, Stage.failed e) :: qs.map (·, Stage.queued), some e⟩) :
    ∃ sources fault, Relation.ReflTransGen (Next c m force cancelled) pool ⟨t, sources, fault⟩ ∧
      (∀ u ∈ sources, u.2.hasEnded = true) ∧ fault = some e := by
  have hHere : ∀ u ∈ before ++ [(p, Stage.failed e)], u.2.hasEnded = true :=
    List.forall_mem_append.mpr ⟨hDone, List.forall_mem_singleton.mpr rfl⟩
  obtain ⟨sources, hSteps, hEnded⟩ : ∃ sources, Relation.ReflTransGen (Next c m force cancelled)
      ⟨t, (before ++ [(p, Stage.failed e)]) ++ qs.map (·, Stage.queued), some e⟩
      ⟨t, sources, some e⟩ ∧
      ∀ u ∈ sources, u.2.hasEnded = true := drained hLimit hHere
  rw [List.append_assoc, List.singleton_append] at hSteps
  exact ⟨sources, some e, h.trans hSteps, hEnded, rfl⟩

/-- A pool that has ended gives this result. -/
def Gives (pool : Pool) : Except WorkspaceError (List (BuildResult × Option Artifact)) → Prop
  | .error e => pool.fault = some e
  | .ok bs => pool.fault = none ∧ pool.built = bs

/-- The pool after a build of sources one after the other. -/
theorem reaches_of_buildAll {qs : List Text}
    {res : Except WorkspaceError (List (BuildResult × Option Artifact))}
    (hLimit : c.workspace.parallelism ≠ 0) (hDone : ∀ u ∈ before, u.2.hasEnded = true)
    (h : (buildAll c m force cancelled qs).outcome t = (res, t')) :
    ∃ sources fault, Relation.ReflTransGen (Next c m force cancelled)
      ⟨t, before ++ qs.map (·, Stage.queued), none⟩ ⟨t', sources, fault⟩ ∧
      hasEnded ⟨t', sources, fault⟩ ∧
      Gives ⟨t', sources, fault⟩ (res.map (before.filterMap (·.2.built?) ++ ·)) := by
  induction qs generalizing t t' before res with
  | nil =>
    cases h
    exact ⟨before, none, by simpa using .refl, hDone, rfl, (List.append_nil _).symm⟩
  | cons q qs ih =>
    rw [buildAll_cons] at h
    have hStart : Next c m force cancelled
        ⟨t, before ++ (q, Stage.queued) :: qs.map (·, Stage.queued), none⟩
        ⟨t, before ++ (q, Stage.begun) :: qs.map (·, Stage.queued), none⟩ :=
      start_of_idle hLimit hDone
    cases cancelled with
    | true =>
      rw [if_pos rfl] at h
      cases h
      exact ends_of_failed hLimit hDone
        (.head hStart (.single (.advance (u := .failed .cancelled) rfl)))
    | false =>
      rw [if_neg Bool.false_ne_true] at h
      have hBegin := Relation.ReflTransGen.tail (.single hStart) (.advance (u := .unread) rfl)
      rcases hFirst : (buildSource c m force q).outcome t with ⟨res₁, t₁⟩
      rw [hFirst] at h
      have hBuilt : Relation.ReflTransGen (Next c m force false)
          ⟨t, before ++ (q, Stage.unread) :: qs.map (·, Stage.queued), none⟩
          ⟨t₁, before ++ (q, Stage.ofResult res₁) :: qs.map (·, Stage.queued),
            (Stage.ofResult res₁).fault?⟩ :=
        next_of_reaches (reaches_of_buildSource hFirst) rfl
      cases res₁ with
      | error e =>
        cases h
        exact ends_of_failed hLimit hDone (hBegin.trans hBuilt)
      | ok b =>
        dsimp only at h
        have hNext : ∀ u ∈ before ++ [(q, Stage.built b)], u.2.hasEnded = true :=
          List.forall_mem_append.mpr ⟨hDone, List.forall_mem_singleton.mpr rfl⟩
        rcases hRest : (buildAll c m force false qs).outcome t₁ with ⟨res', t₂⟩
        rw [hRest] at h
        obtain ⟨sources, fault, hSteps, hEnded, hResult⟩ := ih hNext hRest
        rw [List.append_assoc, List.singleton_append] at hSteps
        have hAll := hBegin.trans (hBuilt.trans hSteps)
        cases res' with
        | error e =>
          cases h
          exact ⟨sources, fault, hAll, hEnded, hResult⟩
        | ok bs =>
          cases h
          refine ⟨sources, fault, hAll, hEnded, hResult.1, hResult.2.trans ?_⟩
          rw [List.filterMap_append]
          exact List.append_assoc _ [b] bs

section OneAtATime

theorem isRunning_of_advance {stopped : Bool} (h : s.advance c m force stopped p t = some (t', s')) :
    s.isRunning = true := by
  cases s with
  | queued | built | failed => cases h
  | _ => rfl

/-- The first place of a list with a property is where it is split. -/
theorem split_unique {α : Type} {P : α → Prop} {as bs cs ds : List α} {x y : α}
    (h : as ++ x :: bs = cs ++ y :: ds) (hx : P x) (hy : P y) (has : ∀ a ∈ as, ¬P a)
    (hcs : ∀ a ∈ cs, ¬P a) : as = cs ∧ x = y ∧ bs = ds := by
  induction as generalizing cs with
  | nil =>
    cases cs with
    | nil => simpa using h
    | cons c cs =>
      exact absurd hx ((List.cons.inj h).1 ▸ hcs c List.mem_cons_self)
  | cons a as ih =>
    cases cs with
    | nil =>
      exact absurd hy ((List.cons.inj h).1 ▸ has a List.mem_cons_self)
    | cons c cs =>
      obtain ⟨rfl, hRest⟩ := List.cons.inj h
      obtain ⟨rfl, hSame⟩ := ih hRest (List.forall_mem_cons.mp has).2 (List.forall_mem_cons.mp hcs).2
      exact ⟨rfl, hSame⟩

/-- At most one source runs. -/
def OneRuns (pool : Pool) : Prop := pool.sources.countP (·.2.isRunning) ≤ 1

theorem oneRuns_initial (t : FileTree) (ps : List Text) : OneRuns (.initial t ps) := by
  have hNone : (initial t ps).sources.countP (·.2.isRunning) = 0 := by
    refine List.countP_eq_zero.mpr fun u hu => ?_
    obtain ⟨p, _, rfl⟩ := List.mem_map.mp hu
    exact nofun
  exact hNone.trans_le zero_le_one

theorem not_running_of_oneRuns (h : (before ++ (p, s) :: after).countP (·.2.isRunning) ≤ 1)
    (hs : s.isRunning = true) : ∀ u ∈ before, ¬u.2.isRunning = true := by
  rw [List.countP_append, List.countP_cons_of_pos (by exact hs)] at h
  exact List.countP_eq_zero.mp (by omega)

theorem OneRuns.next {pool pool' : Pool} (hLimit : c.workspace.parallelism = 1) (h : OneRuns pool)
    (hNext : Next c m force cancelled pool pool') : OneRuns pool' := by
  unfold OneRuns at h ⊢
  cases hNext with
  | @start t before after p fault _ hRoom =>
    rw [hasRoom, hLimit] at hRoom
    have hNone : (before ++ (p, Stage.queued) :: after).countP (·.2.isRunning) = 0 := by omega
    rw [List.countP_append, List.countP_cons_of_neg (by exact nofun)] at hNone
    rw [List.countP_append, List.countP_cons_of_pos (by rfl)]
    omega
  | advance hAdvance =>
    have hRuns := isRunning_of_advance hAdvance
    simp only [List.countP_append, List.countP_cons, hRuns, if_true] at h ⊢
    split <;> omega

/-- With one worker there is at most one step. -/
theorem next_unique {pool pool₁ pool₂ : Pool} (hLimit : c.workspace.parallelism = 1)
    (hOne : OneRuns pool) (h₁ : Next c m force cancelled pool pool₁)
    (h₂ : Next c m force cancelled pool pool₂) : pool₁ = pool₂ := by
  -- a source only starts when none runs
  have hIdle {t t' : FileTree} {before after before' after' : List (Text × Stage)} {p q : Text}
      {s s' : Stage} {stopped : Bool} (hRoom : hasRoom c (before ++ (p, Stage.queued) :: after))
      (hSame : before ++ (p, Stage.queued) :: after = before' ++ (q, s) :: after')
      (hAdvance : s.advance c m force stopped q t = some (t', s')) : False := by
    have hHere := isRunning_of_advance hAdvance
    rw [hSame, hasRoom, hLimit] at hRoom
    simp only [List.countP_append, List.countP_cons, hHere, if_true] at hRoom
    omega
  generalize hPool : pool = pool' at h₂
  cases h₁ with
  | start hOrder hRoom =>
    cases h₂ with
    | start hOrder' =>
      obtain ⟨rfl, hSources, rfl⟩ := Pool.mk.inj hPool
      obtain ⟨rfl, hSame, rfl⟩ := split_unique (P := fun u => u.2.isQueued = true) hSources rfl rfl
        (fun u hu => by simp [hOrder u hu]) (fun u hu => by simp [hOrder' u hu])
      cases hSame
      rfl
    | advance hAdvance => exact (hIdle hRoom (Pool.mk.inj hPool).2.1 hAdvance).elim
  | advance hAdvance =>
    cases h₂ with
    | start _ hRoom => exact (hIdle hRoom (Pool.mk.inj hPool).2.1.symm hAdvance).elim
    | advance hAdvance' =>
      obtain ⟨rfl, hSources, rfl⟩ := Pool.mk.inj hPool
      have hHere := isRunning_of_advance hAdvance
      have hHere' := isRunning_of_advance hAdvance'
      obtain ⟨rfl, hSame, rfl⟩ := split_unique (P := fun u => u.2.isRunning = true) hSources hHere
        hHere' (not_running_of_oneRuns hOne hHere)
        (not_running_of_oneRuns (hSources ▸ hOne) hHere')
      cases hSame
      cases hAdvance.symm.trans hAdvance'
      rfl

/-- With one worker a build ends in one way. -/
theorem ended_unique {pool pool₁ pool₂ : Pool} (hLimit : c.workspace.parallelism = 1)
    (hOne : OneRuns pool) (h₁ : Relation.ReflTransGen (Next c m force cancelled) pool pool₁)
    (h₂ : Relation.ReflTransGen (Next c m force cancelled) pool pool₂)
    (hEnded₁ : pool₁.hasEnded) (hEnded₂ : pool₂.hasEnded) : pool₁ = pool₂ := by
  have hLast {x y : Pool} (hEnded : x.hasEnded) (h : Next c m force cancelled x y) : False := by
    cases h with
    | start => cases hEnded _ (List.mem_append_right _ List.mem_cons_self)
    | advance hAdvance =>
      rw [advance_eq_none (hEnded _ (List.mem_append_right _ List.mem_cons_self))] at hAdvance
      cases hAdvance
  induction h₁ using Relation.ReflTransGen.head_induction_on with
  | refl =>
    rcases Relation.ReflTransGen.cases_head h₂ with hSame | ⟨_, hStep, _⟩
    · exact hSame
    · exact (hLast hEnded₁ hStep).elim
  | head hStep _ ih =>
    rcases Relation.ReflTransGen.cases_head h₂ with rfl | ⟨_, hStep', hRest⟩
    · exact (hLast hEnded₂ hStep).elim
    · cases next_unique hLimit hOne hStep hStep'
      exact ih (hOne.next hLimit hStep) hRest

end OneAtATime

end Pool

section Build

variable {c : Config} {force cancelled : Bool} {t t' : FileTree}
  {res : Except WorkspaceError (List BuildResult)}

/-- A build that takes its sources one after the other is one of those that workers may come to. -/
theorem buildsTo_build (hLimit : c.workspace.parallelism ≠ 0)
    (h : (build c force cancelled).outcome t = (res, t')) : BuildsTo c force cancelled t res t' := by
  rw [build_outcome] at h
  cases hDiscover : discover c t with
  | error e =>
    rw [hDiscover] at h
    cases h
    exact .undiscovered hDiscover
  | ok ps =>
  cases hLoad : loadManifest c t with
  | error e =>
    simp only [hDiscover, hLoad] at h
    cases h
    exact .unloaded hDiscover hLoad
  | ok m =>
  simp only [hDiscover, hLoad] at h
  rcases hAll : (buildAll c m force cancelled ps).outcome t with ⟨built, t₁⟩
  rw [hAll] at h
  have hNone : ∀ u ∈ ([] : List (Text × Stage)), u.2.hasEnded = true := List.forall_mem_nil _
  obtain ⟨sources, fault, hSteps, hEnded, hGives⟩ := Pool.reaches_of_buildAll hLimit hNone hAll
  cases built with
  | error e =>
    cases h
    exact .failed hDiscover hLoad hSteps hEnded hGives
  | ok bs =>
    obtain ⟨hFault, hBuilt⟩ := hGives
    change _ = bs at hBuilt
    rcases hSave : (saveManifest c (updated m bs)).outcome t₁ with ⟨saved, t₂⟩
    simp only [hSave] at h
    rw [← hBuilt] at hSave
    have hEnds := BuildsTo.saved hDiscover hLoad hSteps hEnded hFault hSave
    rw [hBuilt] at hEnds
    cases saved with
    | error e =>
      cases h
      exact hEnds
    | ok =>
      cases h
      exact hEnds

/-- With one worker a build comes to one result. -/
theorem buildsTo_unique (hLimit : c.workspace.parallelism = 1) {t₁ t₂ : FileTree}
    {res₁ res₂ : Except WorkspaceError (List BuildResult)}
    (h₁ : BuildsTo c force cancelled t res₁ t₁) (h₂ : BuildsTo c force cancelled t res₂ t₂) :
    res₁ = res₂ ∧ t₁ = t₂ := by
  have hPool {ps ps' : List Text} {m m' : Manifest} {pool₁ pool₂ : Pool}
      (hDiscover : discover c t = .ok ps) (hDiscover' : discover c t = .ok ps')
      (hLoad : loadManifest c t = .ok m) (hLoad' : loadManifest c t = .ok m')
      (hSteps : Relation.ReflTransGen (Pool.Next c m force cancelled) (.initial t ps) pool₁)
      (hSteps' : Relation.ReflTransGen (Pool.Next c m' force cancelled) (.initial t ps') pool₂)
      (hEnded : pool₁.hasEnded) (hEnded' : pool₂.hasEnded) : m = m' ∧ pool₁ = pool₂ := by
    cases hDiscover.symm.trans hDiscover'
    cases hLoad.symm.trans hLoad'
    exact ⟨rfl, Pool.ended_unique hLimit (Pool.oneRuns_initial t ps) hSteps hSteps' hEnded hEnded'⟩
  cases h₁ with
  | undiscovered hDiscover =>
    cases h₂ with
    | undiscovered hDiscover' =>
      cases hDiscover.symm.trans hDiscover'
      exact ⟨rfl, rfl⟩
    | unloaded hDiscover' | failed hDiscover' | saved hDiscover' =>
      cases hDiscover.symm.trans hDiscover'
  | unloaded hDiscover hLoad =>
    cases h₂ with
    | undiscovered hDiscover' => cases hDiscover.symm.trans hDiscover'
    | unloaded hDiscover' hLoad' =>
      cases hLoad.symm.trans hLoad'
      exact ⟨rfl, rfl⟩
    | failed _ hLoad' | saved _ hLoad' => cases hLoad.symm.trans hLoad'
  | failed hDiscover hLoad hSteps hEnded hFault =>
    cases h₂ with
    | undiscovered hDiscover' => cases hDiscover.symm.trans hDiscover'
    | unloaded _ hLoad' => cases hLoad.symm.trans hLoad'
    | failed hDiscover' hLoad' hSteps' hEnded' hFault' =>
      obtain ⟨-, rfl⟩ := hPool hDiscover hDiscover' hLoad hLoad' hSteps hSteps' hEnded hEnded'
      cases hFault.symm.trans hFault'
      exact ⟨rfl, rfl⟩
    | saved hDiscover' hLoad' hSteps' hEnded' hFault' =>
      obtain ⟨-, rfl⟩ := hPool hDiscover hDiscover' hLoad hLoad' hSteps hSteps' hEnded hEnded'
      cases hFault.symm.trans hFault'
  | saved hDiscover hLoad hSteps hEnded hFault hSave =>
    cases h₂ with
    | undiscovered hDiscover' => cases hDiscover.symm.trans hDiscover'
    | unloaded _ hLoad' => cases hLoad.symm.trans hLoad'
    | failed hDiscover' hLoad' hSteps' hEnded' hFault' =>
      obtain ⟨-, rfl⟩ := hPool hDiscover hDiscover' hLoad hLoad' hSteps hSteps' hEnded hEnded'
      cases hFault.symm.trans hFault'
    | saved hDiscover' hLoad' hSteps' hEnded' _ hSave' =>
      obtain ⟨rfl, rfl⟩ := hPool hDiscover hDiscover' hLoad hLoad' hSteps hSteps' hEnded hEnded'
      cases hSave.symm.trans hSave'
      exact ⟨rfl, rfl⟩

/-- With one worker a build takes its sources one after the other. -/
theorem buildsTo_iff_of_one (hLimit : c.workspace.parallelism = 1) :
    BuildsTo c force cancelled t res t' ↔ (build c force cancelled).outcome t = (res, t') := by
  refine ⟨fun h => ?_, buildsTo_build (by omega)⟩
  rcases hBuild : (build c force cancelled).outcome t with ⟨res', t''⟩
  obtain ⟨rfl, rfl⟩ := buildsTo_unique hLimit h (buildsTo_build (by omega) hBuild)
  rfl

end Build

end Workspace

end AnchorScript
