import AnchorScript.Proofs.FileTree.Writes
import AnchorScript.Workspace.Build

/-!
# What a build does to the tree

A build reads its sources, compiles them and writes their outputs and the manifest. None of its
writes goes to a source, so every source is compiled as it was when the build began, and the tree
after a build, successful or not, is the tree before it after some of these writes.
-/

namespace AnchorScript

namespace Work

variable {α β ε : Type}

/-- The result of work and the tree it leaves. -/
def outcome (x : Work α) (t : FileTree) : Except WorkspaceError α × FileTree := x.run.run t

@[simp] theorem outcome_pure (a : α) (t : FileTree) :
    (pure a : Work α).outcome t = (.ok a, t) := rfl

theorem outcome_bind (x : Work α) (f : α → Work β) (t : FileTree) :
    (x >>= f).outcome t = match x.outcome t with
      | (.ok a, t') => (f a).outcome t'
      | (.error e, t') => (.error e, t') := by
  change (match x.run.run t with
    | (r, t') => (ExceptT.bindCont f r).run t') = _
  rw [outcome]
  generalize x.run.run t = o
  obtain ⟨r, t'⟩ := o
  cases r with
  | ok a => rfl
  | error e => rfl

@[simp] theorem outcome_get (t : FileTree) : (get : Work FileTree).outcome t = (.ok t, t) := rfl

@[simp] theorem outcome_examine (wrap : ε → WorkspaceError) (f : FileTree → Except ε α)
    (t : FileTree) : (Workspace.examine wrap f).outcome t = ((f t).mapError wrap, t) := by
  rw [Workspace.examine, outcome_bind, outcome_get]
  dsimp only
  cases f t with
  | ok a => rfl
  | error e => rfl

@[simp] theorem outcome_change (wrap : ε → WorkspaceError) (f : FileTree → Except ε FileTree)
    (t : FileTree) : (Workspace.change wrap f).outcome t = match f t with
      | .ok t' => (.ok (), t')
      | .error e => (.error (wrap e), t) := by
  rw [Workspace.change, outcome_bind, outcome_examine]
  cases f t with
  | ok t' => rfl
  | error e => rfl

theorem outcome_bind_eq {x : Work α} {f : α → Work β} {t t' : FileTree}
    {r : Except WorkspaceError β} (h : (x >>= f).outcome t = (r, t')) :
    (∃ a t₁, x.outcome t = (.ok a, t₁) ∧ (f a).outcome t₁ = (r, t')) ∨
      ∃ e, x.outcome t = (.error e, t') ∧ r = .error e := by
  rw [outcome_bind] at h
  split at h
  · rename_i a t₁ hFirst
    exact .inl ⟨a, t₁, hFirst, h⟩
  · rename_i e t₁ hFirst
    cases h
    exact .inr ⟨e, hFirst, rfl⟩

end Work

namespace Path

/-- The last name at this place has this ending. -/
def EndsIn (e : Text) (q : List Text) : Prop := ∃ dir s, q = dir ++ [s ++ e]

theorem EndsIn.suffix_or_suffix {e e' : Text} {q : List Text} (h : EndsIn e q) (h' : EndsIn e' q) :
    e <:+ e' ∨ e' <:+ e := by
  obtain ⟨dir, s, rfl⟩ := h
  obtain ⟨dir', s', hSame⟩ := h'
  have hName : s ++ e = s' ++ e' := by
    simpa using (List.append_inj' hSame rfl).2
  exact List.suffix_or_suffix_of_suffix ⟨s, rfl⟩ ⟨s', hName.symm⟩

end Path

namespace Workspace

open FileTree AnchorScript.Path

section Targets

variable {c : Config} {p : Text}

theorem slash_not_mem_of_isSource (h : isSource p = true) : slash ∉ stem p := by
  have hEnding : Text.ofString ".ts" <:+ p := by
    rw [isSource, Bool.and_eq_true] at h
    exact List.isSuffixOf_iff_suffix.mp h.1
  exact slash_not_mem_stem (by decide) (by decide) hEnding

theorem endsIn_of_isSource (h : isSource p = true) : EndsIn ".ts" (place p) := by
  have hEnding : Text.ofString ".ts" <:+ p := by
    rw [isSource, Bool.and_eq_true] at h
    exact List.isSuffixOf_iff_suffix.mp h.1
  obtain ⟨s, _, _, hPlace⟩ := exists_name_of_suffix (by decide) (by decide) hEnding
  exact ⟨_, s, hPlace⟩

theorem isName_output (h : isSource p = true) : Path.IsName (stem p ++ ".rs") :=
  isName_append (slash_not_mem_of_isSource h) (by decide) (by decide)

theorem isName_interface (h : isSource p = true) : Path.IsName (stem p ++ ".json") :=
  isName_append (slash_not_mem_of_isSource h) (by decide) (by decide)

theorem isTame_output (h : isSource p = true) : IsTame (target c p).output :=
  isTame_join _ (isName_output h).1

theorem place_output (h : isSource p = true) :
    place (target c p).output = place (path c c.workspace.outputDir) ++ [stem p ++ ".rs"] :=
  place_join _ (isName_output h)

theorem place_output_ne_nil (h : isSource p = true) : place (target c p).output ≠ [] := by
  rw [place_output h]
  exact List.append_ne_nil_of_right_ne_nil _ (List.cons_ne_nil _ _)

theorem isTame_interface (h : isSource p = true) (hEmit : c.compiler.emitInterface = true) :
    IsTame (target c p).interface := by
  rw [target, if_pos hEmit]
  exact isTame_join _ (isName_interface h).1

theorem place_interface (h : isSource p = true) (hEmit : c.compiler.emitInterface = true) :
    place (target c p).interface =
      place (path c c.workspace.interfaceDir) ++ [stem p ++ ".json"] := by
  rw [target, if_pos hEmit]
  exact place_join _ (isName_interface h)

theorem place_interface_ne_nil (h : isSource p = true) (hEmit : c.compiler.emitInterface = true) :
    place (target c p).interface ≠ [] := by
  rw [place_interface h hEmit]
  exact List.append_ne_nil_of_right_ne_nil _ (List.cons_ne_nil _ _)

theorem place_manifestPath (c : Config) : place (manifestPath c) =
    place (path c c.workspace.outputDir) ++ [Text.ofString "build-manifest.json"] :=
  place_join _ ⟨by decide, by decide, by decide, by decide⟩

theorem place_manifestPath_ne_nil (c : Config) : place (manifestPath c) ≠ [] := by
  rw [place_manifestPath]
  exact List.append_ne_nil_of_right_ne_nil _ (List.cons_ne_nil _ _)

theorem isTame_manifestPath (c : Config) : IsTame (manifestPath c) := isTame_join _ (by decide)

end Targets

/-- The writes of a compiled source. -/
def writes (r : BuildResult) (out : CompileOutput) : List (List Text × Text) :=
  (place r.output, out.rust) :: out.interface.toList.map (place r.interface, ·)

theorem writeBelow_outcome {p d : Text} {t t' : FileTree} {r : Except WorkspaceError Unit}
    (h : (writeBelow p d).outcome t = (r, t')) :
    (r = .ok () ∧ After t [(place p, d)] t') ∨ ∃ e, r = .error e ∧ After t [] t' := by
  rw [writeBelow, Work.outcome_bind, Work.outcome_change] at h
  split at h
  · rename_i u t₁ hMade
    split at hMade
    · rename_i t₂ hDirectories
      cases hMade
      rw [Work.outcome_change] at h
      split at h
      · rename_i t₃ hWrite
        cases h
        exact .inl ⟨rfl, (after_makeDirectories hDirectories).trans (after_write hWrite)⟩
      · cases h
        exact .inr ⟨_, rfl, after_makeDirectories hDirectories⟩
    · cases hMade
  · rename_i e t₁ hMade
    split at hMade
    · cases hMade
    · cases hMade
      cases h
      exact .inr ⟨_, rfl, .refl _⟩

theorem compileSource_outcome {c : Config} {r : BuildResult} {src : Text} {t t' : FileTree}
    {res : Except WorkspaceError (BuildResult × Option Artifact)}
    (h : (compileSource c r src).outcome t = (res, t')) :
    (∃ d, compile c.options r.source src = .error d ∧
      res = .ok ({ r with failure := some d }, none) ∧ t' = t) ∨
    ∃ out, compile c.options r.source src = .ok out ∧
      ((res = .ok ({ r with program := out.program.name },
          some (Artifact.ofOutput r.source r.output r.interface src c.options out)) ∧
        After t (writes r out) t') ∨
      ∃ e ws, res = .error e ∧ ws <+: writes r out ∧ After t ws t') := by
  rw [compileSource] at h
  split at h
  · rename_i d hCompile
    cases h
    exact .inl ⟨d, hCompile, rfl, rfl⟩
  · rename_i out hCompile
    refine .inr ⟨out, hCompile, ?_⟩
    rcases Work.outcome_bind_eq h with ⟨_, t₁, hRust, hRest⟩ | ⟨e, hRust, rfl⟩
    · rcases writeBelow_outcome hRust with ⟨_, hRust⟩ | ⟨_, hError, _⟩
      · cases hInterface : out.interface with
        | none =>
          rw [hInterface] at hRest
          dsimp only at hRest
          rw [Work.outcome_pure] at hRest
          cases hRest
          refine .inl ⟨rfl, ?_⟩
          rw [writes, hInterface]
          exact hRust
        | some text =>
          rw [hInterface] at hRest
          dsimp only at hRest
          rcases Work.outcome_bind_eq hRest with ⟨_, t₂, hText, hDone⟩ | ⟨e, hText, rfl⟩
          · rcases writeBelow_outcome hText with ⟨_, hText⟩ | ⟨_, hError, _⟩
            · cases hDone
              refine .inl ⟨rfl, ?_⟩
              rw [writes, hInterface]
              exact hRust.trans hText
            · cases hError
          · rcases writeBelow_outcome hText with ⟨hOk, _⟩ | ⟨_, _, hText⟩
            · cases hOk
            · exact .inr ⟨e, [(place r.output, out.rust)], rfl, ⟨_, rfl⟩, hRust.trans hText⟩
      · cases hError
    · rcases writeBelow_outcome hRust with ⟨hOk, _⟩ | ⟨_, _, hRust⟩
      · cases hOk
      · exact .inr ⟨e, [], rfl, List.nil_prefix, hRust⟩

/-- A source is skipped when its record is current, unless the build is forced. -/
def Skips (c : Config) (m : Manifest) (force : Bool) (t : FileTree) (p src : Text) (a : Artifact) :
    Prop :=
  force = false ∧ m.lookup p = some a ∧ isCurrent c t (target c p) src a = true

theorem buildSource_outcome {c : Config} {m : Manifest} {force : Bool} {p : Text} {t t' : FileTree}
    {res : Except WorkspaceError (BuildResult × Option Artifact)}
    (h : (buildSource c m force p).outcome t = (res, t')) :
    (∃ e, t.read p = .error e ∧ res = .error (.read p e) ∧ t' = t) ∨
    ∃ src, t.read p = .ok src ∧
      ((∃ a, Skips c m force t p src a ∧
          res = .ok ({ target c p with program := a.program, isSkipped := true }, none) ∧ t' = t) ∨
        (∀ a, ¬Skips c m force t p src a) ∧
          (compileSource c (target c p) src).outcome t = (res, t')) := by
  rw [buildSource, Work.outcome_bind, Work.outcome_examine] at h
  cases hRead : t.read p with
  | error e =>
    rw [hRead] at h
    cases h
    exact .inl ⟨e, rfl, rfl, rfl⟩
  | ok src =>
    rw [hRead] at h
    refine .inr ⟨src, rfl, ?_⟩
    change ((get : Work FileTree) >>= _).outcome t = (res, t') at h
    rw [Work.outcome_bind, Work.outcome_get] at h
    dsimp only at h
    cases hFound : m.lookup p with
    | none =>
      rw [hFound] at h
      refine .inr ⟨?_, h⟩
      rintro a ⟨_, hSome, _⟩
      rw [hFound] at hSome
      cases hSome
    | some a =>
      rw [hFound] at h
      dsimp only at h
      split at h
      · rename_i hSkip
        rw [Bool.and_eq_true, Bool.not_eq_true'] at hSkip
        cases h
        exact .inl ⟨a, ⟨hSkip.1, hFound, hSkip.2⟩, rfl, rfl⟩
      · rename_i hSkip
        refine .inr ⟨?_, h⟩
        rintro b ⟨hForce, hSome, hCurrent⟩
        rw [hFound] at hSome
        cases hSome
        exact hSkip (by simp [hForce, hCurrent])

/-- The source at this path, as the tree has it, compiles with this outcome. -/
def Compiles (c : Config) (t : FileTree) (p : Text) (out : CompileOutput) : Prop :=
  ∃ src, t.view? (place p) = some (some src) ∧ compile c.options p src = .ok out

/-- A write of what one of these sources compiles to. -/
def Permitted (c : Config) (t : FileTree) (ps : List Text) (w : List Text × Text) : Prop :=
  ∃ p ∈ ps, ∃ out, Compiles c t p out ∧ w ∈ writes (target c p) out

/-- What building one source gives and writes. -/
structure Step where
  result : BuildResult
  record : Option Artifact := none
  writes : List (List Text × Text) := []

/-- The steps that a build may take at a source, by what the source was when the build began. -/
inductive Built (c : Config) (m : Manifest) (force : Bool) (t : FileTree) (p : Text) : Step → Prop
  | refused {src : Text} {d : Diagnostic} (hSource : t.view? (place p) = some (some src))
      (hCompile : compile c.options p src = .error d) :
      Built c m force t p { result := { target c p with failure := some d } }
  | compiled {src : Text} {out : CompileOutput} (hSource : t.view? (place p) = some (some src))
      (hCompile : compile c.options p src = .ok out) :
      Built c m force t p
        { result := { target c p with program := out.program.name }
          record := Artifact.ofOutput p (target c p).output (target c p).interface src c.options out
          writes := writes (target c p) out }
  | skipped {a : Artifact} (hForce : force = false) (hFound : m.lookup p = some a) :
      Built c m force t p
        { result := { target c p with program := a.program, isSkipped := true } }

theorem emitInterface_of_compile {o : CompileOptions} {name src : Text} {out : CompileOutput}
    (h : compile o name src = .ok out) : out.interface.isSome = o.emitInterface := by
  simp only [compile, Outcome.bind_eq_ok_iff, Outcome.pure_eq_ok_iff] at h
  obtain ⟨_, _, _, _, rfl⟩ := h
  dsimp only
  split
  · rename_i hEmit
    rw [hEmit]
    rfl
  · rename_i hEmit
    simp [hEmit]

theorem emits_of_compile {c : Config} {name src text : Text} {out : CompileOutput}
    (h : compile c.options name src = .ok out) (hText : out.interface = some text) :
    c.compiler.emitInterface = true := by
  have hSome := emitInterface_of_compile h
  rw [hText] at hSome
  exact hSome.symm

section Sources

variable {c : Config} {m : Manifest} {force : Bool} {t t₁ t₂ : FileTree} {ps : List Text}
  {ws : List (List Text × Text)}

/-- A build writes crates and descriptions. -/
theorem Permitted.endsIn (hps : ∀ p ∈ ps, isSource p = true) {w : List Text × Text}
    (h : Permitted c t ps w) : EndsIn ".rs" w.1 ∨ EndsIn ".json" w.1 := by
  obtain ⟨p, hp, out, ⟨src, _, hCompile⟩, hw⟩ := h
  rcases List.mem_cons.mp hw with rfl | hw
  · exact .inl ⟨_, _, place_output (hps p hp)⟩
  · obtain ⟨text, hText, rfl⟩ := List.mem_map.mp hw
    have hEmit := emits_of_compile hCompile (Option.mem_toList.mp hText)
    exact .inr ⟨_, _, place_interface (hps p hp) hEmit⟩

theorem lastWrite?_source (hps : ∀ p ∈ ps, isSource p = true) (hws : ∀ w ∈ ws, Permitted c t ps w)
    {p : Text} (hp : isSource p = true) : lastWrite? (place p) ws = none := by
  cases hLast : lastWrite? (place p) ws with
  | none => rfl
  | some d =>
    have hSource := endsIn_of_isSource hp
    rcases (hws _ (mem_of_lastWrite? hLast)).endsIn hps with hRust | hJson
    · exact absurd (hRust.suffix_or_suffix hSource) (by decide)
    · exact absurd (hJson.suffix_or_suffix hSource) (by decide)

/-- Sources are read as they were when the build began. -/
theorem source_of_read (hps : ∀ p ∈ ps, isSource p = true) (hAfter : After t ws t₁)
    (hws : ∀ w ∈ ws, Permitted c t ps w) {p src : Text} (hp : p ∈ ps) (h : t₁.read p = .ok src) :
    t.view? (place p) = some (some src) :=
  (hAfter.view?_eq_file_iff (lastWrite?_source hps hws (hps p hp))).mp (view?_of_read h)

/-- Building a source when only outputs of sources have been written writes such outputs only. -/
theorem built_of_buildSource (hps : ∀ p ∈ ps, isSource p = true) (hAfter : After t ws t₁)
    (hws : ∀ w ∈ ws, Permitted c t ps w) {p : Text} (hp : p ∈ ps)
    {res : Except WorkspaceError (BuildResult × Option Artifact)}
    (h : (buildSource c m force p).outcome t₁ = (res, t₂)) :
    ∃ ws', After t₁ ws' t₂ ∧ (∀ w ∈ ws', Permitted c t ps w) ∧
      ∀ b, res = .ok b → Built c m force t p ⟨b.1, b.2, ws'⟩ := by
  rcases buildSource_outcome h with ⟨e, _, rfl, rfl⟩ | ⟨src, hRead, hRest⟩
  · exact ⟨[], .refl _, by simp, fun b hb => by cases hb⟩
  · have hSource := source_of_read hps hAfter hws hp hRead
    rcases hRest with ⟨a, ⟨hForce, hFound, _⟩, rfl, rfl⟩ | ⟨_, hCompile⟩
    · refine ⟨[], .refl _, by simp, ?_⟩
      rintro b ⟨⟩
      exact .skipped hForce hFound
    · rcases compileSource_outcome hCompile with ⟨d, hError, rfl, rfl⟩ | ⟨out, hOk, hWritten⟩
      · refine ⟨[], .refl _, by simp, ?_⟩
        rintro b ⟨⟩
        exact .refused hSource hError
      · have hPermitted : ∀ w ∈ writes (target c p) out, Permitted c t ps w :=
          fun w hw => ⟨p, hp, out, ⟨src, hSource, hOk⟩, hw⟩
        rcases hWritten with ⟨rfl, hAll⟩ | ⟨e, ws', rfl, hSome, hPart⟩
        · refine ⟨_, hAll, hPermitted, ?_⟩
          rintro b ⟨⟩
          exact .compiled hSource hOk
        · exact ⟨ws', hPart, fun w hw => hPermitted w (hSome.subset hw), fun b hb => by cases hb⟩

end Sources

/-- Builds these sources against one manifest, in order. -/
def buildAll (c : Config) (m : Manifest) (force cancelled : Bool) (ps : List Text) :
    Work (List (BuildResult × Option Artifact)) :=
  ps.mapM fun p => do
    if cancelled then throw .cancelled
    buildSource c m force p

theorem buildAll_cons (c : Config) (m : Manifest) (force cancelled : Bool) (p : Text)
    (ps : List Text) (t : FileTree) :
    (buildAll c m force cancelled (p :: ps)).outcome t =
      if cancelled then (.error .cancelled, t)
      else match (buildSource c m force p).outcome t with
        | (.error e, t₁) => (.error e, t₁)
        | (.ok b, t₁) => match (buildAll c m force cancelled ps).outcome t₁ with
          | (.error e, t₂) => (.error e, t₂)
          | (.ok bs, t₂) => (.ok (b :: bs), t₂) := by
  cases cancelled with
  | true =>
    rw [buildAll, List.mapM_cons, Work.outcome_bind]
    rfl
  | false =>
    have hAll : ∀ qs, buildAll c m force false qs = qs.mapM (buildSource c m force) := by
      intro qs
      simp only [buildAll, Bool.false_eq_true, if_false]
    rw [hAll, hAll, List.mapM_cons, Work.outcome_bind, if_neg Bool.false_ne_true]
    generalize (buildSource c m force p).outcome t = o
    obtain ⟨e | b, t₁⟩ := o
    · rfl
    · dsimp only
      rw [Work.outcome_bind]
      generalize Work.outcome _ t₁ = o
      obtain ⟨e | bs, t₂⟩ := o
      · rfl
      · rfl

/-- What building all sources gives: the writes before an error, if one occurs, and else what each
source gives and writes. -/
theorem buildAll_outcome {c : Config} {m : Manifest} {force cancelled : Bool} {t t₁ t₂ : FileTree}
    {ps qs : List Text} {ws : List (List Text × Text)} (hps : ∀ p ∈ ps, isSource p = true)
    (hqs : ∀ p ∈ qs, p ∈ ps) (hAfter : After t ws t₁) (hws : ∀ w ∈ ws, Permitted c t ps w)
    {res : Except WorkspaceError (List (BuildResult × Option Artifact))}
    (h : (buildAll c m force cancelled qs).outcome t₁ = (res, t₂)) :
    ∃ ws', After t₁ ws' t₂ ∧ (∀ w ∈ ws', Permitted c t ps w) ∧ ∀ bs, res = .ok bs →
      ∃ steps : List Step, bs = steps.map (fun s => (s.result, s.record)) ∧
        ws' = steps.flatMap (·.writes) ∧ List.Forall₂ (Built c m force t) qs steps := by
  induction qs generalizing t₁ ws res with
  | nil =>
    cases h
    refine ⟨[], .refl _, by simp, ?_⟩
    rintro bs ⟨⟩
    exact ⟨[], rfl, rfl, .nil⟩
  | cons p qs ih =>
    obtain ⟨hp, hqs⟩ := List.forall_mem_cons.mp hqs
    rw [buildAll_cons] at h
    split at h
    · cases h
      exact ⟨[], .refl _, by simp, fun bs hbs => by cases hbs⟩
    split at h
    · rename_i e t' hFirst
      cases h
      obtain ⟨ws₁, hAfter₁, hws₁, _⟩ := built_of_buildSource hps hAfter hws hp hFirst
      exact ⟨ws₁, hAfter₁, hws₁, fun bs hbs => by cases hbs⟩
    · rename_i b t' hFirst
      obtain ⟨ws₁, hAfter₁, hws₁, hBuilt⟩ := built_of_buildSource hps hAfter hws hp hFirst
      have hws' : ∀ w ∈ ws ++ ws₁, Permitted c t ps w :=
        List.forall_mem_append.mpr ⟨hws, hws₁⟩
      split at h
      · rename_i e t'' hRest
        cases h
        obtain ⟨ws₂, hAfter₂, hws₂, _⟩ := ih hqs (hAfter.trans hAfter₁) hws' hRest
        exact ⟨ws₁ ++ ws₂, hAfter₁.trans hAfter₂, List.forall_mem_append.mpr ⟨hws₁, hws₂⟩,
          fun bs hbs => by cases hbs⟩
      · rename_i bs t'' hRest
        cases h
        obtain ⟨ws₂, hAfter₂, hws₂, hAll⟩ := ih hqs (hAfter.trans hAfter₁) hws' hRest
        refine ⟨ws₁ ++ ws₂, hAfter₁.trans hAfter₂, List.forall_mem_append.mpr ⟨hws₁, hws₂⟩, ?_⟩
        rintro _ ⟨⟩
        obtain ⟨steps, rfl, rfl, hSteps⟩ := hAll bs rfl
        exact ⟨⟨b.1, b.2, ws₁⟩ :: steps, rfl, rfl, .cons (hBuilt b rfl) hSteps⟩

mutual

theorem isSource_of_mem_sourcesAt {q p name : Text} {t : FileTree} (h : q ∈ sourcesAt p name t) :
    isSource q = true := by
  cases t with
  | file d =>
    rw [sourcesAt] at h
    split at h
    · rename_i hp
      exact List.mem_singleton.mp h ▸ hp
    · cases h
  | directory es =>
    rw [sourcesAt] at h
    split at h
    · cases h
    · exact isSource_of_mem_sourcesBelow h

theorem isSource_of_mem_sourcesBelow {q p : Text} {es : List (Text × FileTree)}
    (h : q ∈ sourcesBelow p es) : isSource q = true := by
  cases es with
  | nil => cases h
  | cons e es =>
    obtain ⟨n, t⟩ := e
    rw [sourcesBelow, List.mem_append] at h
    rcases h with h | h
    · exact isSource_of_mem_sourcesAt h
    · exact isSource_of_mem_sourcesBelow h

end

theorem isSource_of_discover {c : Config} {t : FileTree} {ps : List Text}
    (h : discover c t = .ok ps) : ∀ p ∈ ps, isSource p = true := by
  rw [discover] at h
  split at h
  · cases h
  · rename_i u hFound
    cases h
    intro p hp
    rw [List.mem_mergeSort] at hp
    cases u with
    | file d =>
      rw [sourcesOf] at hp
      split at hp
      · rename_i hSource
        exact List.mem_singleton.mp hp ▸ hSource
      · cases hp
    | directory es =>
      rw [sourcesOf] at hp
      split at hp
      · cases hp
      · exact isSource_of_mem_sourcesBelow hp

/-- What building all sources of a workspace gives. -/
theorem buildAll_steps {c : Config} {m : Manifest} {force cancelled : Bool} {t t' : FileTree}
    {ps : List Text} (hDiscover : discover c t = .ok ps)
    {res : Except WorkspaceError (List (BuildResult × Option Artifact))}
    (h : (buildAll c m force cancelled ps).outcome t = (res, t')) :
    ∃ ws, After t ws t' ∧ (∀ w ∈ ws, Permitted c t ps w) ∧ ∀ bs, res = .ok bs →
      ∃ steps : List Step, bs = steps.map (fun s => (s.result, s.record)) ∧
        ws = steps.flatMap (·.writes) ∧ List.Forall₂ (Built c m force t) ps steps :=
  buildAll_outcome (isSource_of_discover hDiscover) (fun _ hp => hp) (.refl t)
    (List.forall_mem_nil _) h

theorem saveManifest_outcome (c : Config) (m : Manifest) (t : FileTree) :
    (saveManifest c m).outcome t = match m.encode with
      | .error e => (.error (.encodeManifest e), t)
      | .ok text => (writeBelow (manifestPath c) text).outcome t := by
  rw [saveManifest]
  cases m.encode with
  | error e => rfl
  | ok text => rfl

/-- The manifest after a build. -/
def updated (m : Manifest) (bs : List (BuildResult × Option Artifact)) : Manifest :=
  (bs.filterMap (·.2)).foldl Manifest.put m

theorem build_outcome (c : Config) (force cancelled : Bool) (t : FileTree) :
    (build c force cancelled).outcome t = match discover c t with
      | .error e => (.error e, t)
      | .ok ps => match loadManifest c t with
        | .error e => (.error e, t)
        | .ok m => match (buildAll c m force cancelled ps).outcome t with
          | (.error e, t₁) => (.error e, t₁)
          | (.ok bs, t₁) => match (saveManifest c (updated m bs)).outcome t₁ with
            | (.error e, t₂) => (.error e, t₂)
            | (.ok _, t₂) => (.ok (bs.map (·.1)), t₂) := by
  rw [build, Work.outcome_bind, Work.outcome_examine]
  cases discover c t with
  | error e => rfl
  | ok ps =>
    change (buildSources c force cancelled ps).outcome t = _
    rw [buildSources, Work.outcome_bind, Work.outcome_examine]
    cases loadManifest c t with
    | error e => rfl
    | ok m =>
      change (buildAll c m force cancelled ps >>= fun bs =>
        saveManifest c (updated m bs) >>= fun _ => pure (bs.map (·.1))).outcome t = _
      rw [Work.outcome_bind]
      dsimp only
      generalize (buildAll c m force cancelled ps).outcome t = o
      obtain ⟨e | bs, t₁⟩ := o
      · rfl
      · dsimp only
        rw [Work.outcome_bind]
        generalize (saveManifest c (updated m bs)).outcome t₁ = o
        obtain ⟨e | _, t₂⟩ := o
        · rfl
        · rfl

/-- What a build may come to: an error before anything is written, an error after some outputs are
written, or all outputs written and the manifest after them. -/
theorem build_cases {c : Config} {force cancelled : Bool} {t t' : FileTree}
    {res : Except WorkspaceError (List BuildResult)}
    (h : (build c force cancelled).outcome t = (res, t')) :
    (∃ e, res = .error e ∧ t' = t) ∨
    ∃ ps m, discover c t = .ok ps ∧ loadManifest c t = .ok m ∧
      ((∃ e ws, res = .error e ∧ (∀ w ∈ ws, Permitted c t ps w) ∧ After t ws t') ∨
      ∃ (steps : List Step) (text : Text), List.Forall₂ (Built c m force t) ps steps ∧
        (updated m (steps.map fun s => (s.result, s.record))).encode = .ok text ∧
        res = .ok (steps.map (·.result)) ∧
        After t (steps.flatMap (·.writes) ++ [(place (manifestPath c), text)]) t') := by
  rw [build_outcome] at h
  split at h
  · cases h
    exact .inl ⟨_, rfl, rfl⟩
  rename_i ps hDiscover
  split at h
  · cases h
    exact .inl ⟨_, rfl, rfl⟩
  rename_i m hLoad
  refine .inr ⟨ps, m, hDiscover, hLoad, ?_⟩
  split at h
  · rename_i e t₁ hAll
    cases h
    obtain ⟨ws, hAfter, hws, _⟩ := buildAll_steps hDiscover hAll
    exact .inl ⟨e, ws, rfl, hws, hAfter⟩
  · rename_i bs t₁ hAll
    obtain ⟨ws, hAfter, hws, hSteps⟩ := buildAll_steps hDiscover hAll
    obtain ⟨steps, rfl, rfl, hBuilt⟩ := hSteps bs rfl
    rw [saveManifest_outcome] at h
    cases hEncode : (updated m (steps.map fun s => (s.result, s.record))).encode with
    | error e =>
      rw [hEncode] at h
      cases h
      exact .inl ⟨_, _, rfl, hws, hAfter⟩
    | ok text =>
      rw [hEncode] at h
      dsimp only at h
      split at h
      · rename_i e t₂ hWrite
        cases h
        rcases writeBelow_outcome hWrite with ⟨hOk, _⟩ | ⟨_, _, hNone⟩
        · cases hOk
        · refine .inl ⟨e, _, rfl, hws, ?_⟩
          simpa using hAfter.trans hNone
      · rename_i t₂ hWrite
        cases h
        rcases writeBelow_outcome hWrite with ⟨_, hSaved⟩ | ⟨_, hError, _⟩
        · exact .inr ⟨steps, text, hBuilt, hEncode, by simp, hAfter.trans hSaved⟩
        · cases hError

theorem Built.permitted {c : Config} {m : Manifest} {force : Bool} {t : FileTree} {p : Text}
    {s : Step} (h : Built c m force t p s) {ps : List Text} (hp : p ∈ ps) :
    ∀ w ∈ s.writes, Permitted c t ps w := by
  cases h with
  | refused => simp
  | compiled hSource hCompile => exact fun w hw => ⟨p, hp, _, ⟨_, hSource, hCompile⟩, hw⟩
  | skipped => simp

theorem permitted_of_steps {c : Config} {m : Manifest} {force : Bool} {t : FileTree}
    {ps : List Text} {steps : List Step} (h : List.Forall₂ (Built c m force t) ps steps) :
    ∀ w ∈ steps.flatMap (·.writes), Permitted c t ps w := by
  intro w hw
  obtain ⟨s, hs, hw⟩ := List.mem_flatMap.mp hw
  obtain ⟨p, hp, hStep⟩ := Outcome.exists_of_mem_right h hs
  exact hStep.permitted hp w hw

end Workspace

end AnchorScript
