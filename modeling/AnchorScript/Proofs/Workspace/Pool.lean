import AnchorScript.Proofs.Workspace.Runs
import AnchorScript.Workspace.Pool

/-!
# What several workers leave

Steps of different sources come in any order, and sources of one stem write the same files. What
stands at an output is then a mixture of texts, unless all that is written there is one text: then,
once it was written or found there, it stands there except while someone rewrites it.
-/

namespace AnchorScript

open FileTree

theorem FileTree.overwrite_eq_ok {t t' : FileTree} {p d : Text} (h : t.overwrite p d = .ok t') :
    ∃ found, t.view? (Path.place p) = some (some found) ∧
      t.write p (d ++ found.drop d.length) = .ok t' := by
  obtain ⟨found, hRead, hWrite⟩ := Outcome.bind_eq_ok_iff.mp h
  exact ⟨found, view?_of_read hRead, hWrite⟩

namespace Workspace

open AnchorScript.Path

section Texts

variable {c : Config} {t : FileTree} {ps : List Text}

theorem writes_eq (r : BuildResult) (out : CompileOutput) :
    writes r out = (filesOf r out).map fun f => (place f.1, f.2) := by
  rw [writes, filesOf, List.map_cons, List.map_map]
  rfl

theorem permitted_of_mem_filesOf {p src : Text} {out : CompileOutput} (hp : p ∈ ps)
    (hSource : t.view? (place p) = some (some src)) (hCompile : compile c.options p src = .ok out)
    {f : Text × Text} (hf : f ∈ filesOf (target c p) out) : Permitted c t ps (place f.1, f.2) := by
  refine ⟨p, hp, out, ⟨src, hSource, hCompile⟩, ?_⟩
  rw [writes_eq]
  exact List.mem_map_of_mem hf

/-- All that the sources write to this place is one text. -/
def Agreed (c : Config) (t : FileTree) (ps : List Text) (q : List Text) : Prop :=
  ∀ d d', Permitted c t ps (q, d) → Permitted c t ps (q, d') → d = d'

/-- A file is written empty, or with a text and what may be left of another. -/
def Rough (c : Config) (t : FileTree) (ps : List Text) (w : List Text × Text) : Prop :=
  ∃ d, Permitted c t ps (w.1, d) ∧
    (w.2 = [] ∨ ∃ rest, w.2 = d ++ rest ∧ (Agreed c t ps w.1 → rest = []))

theorem Rough.eq_or_permitted {w : List Text × Text} (h : Rough c t ps w)
    (hAgreed : Agreed c t ps w.1) : w.2 = [] ∨ Permitted c t ps w := by
  obtain ⟨q, text⟩ := w
  obtain ⟨d, hPermitted, hEmpty | ⟨rest, hText, hRest⟩⟩ := h
  · exact .inl hEmpty
  · rw [hRest hAgreed, List.append_nil] at hText
    obtain rfl : text = d := hText
    exact .inr hPermitted

end Texts

/-- The place of the file that is open. -/
def Stage.opened? : Stage → Option (List Text)
  | writing _ path _ _ => some (place path)
  | _ => none

/-- The record that a source is compared with. -/
structure Recorded (c : Config) (m : Manifest) (force : Bool) (t : FileTree) (p src : Text)
    (a : Artifact) : Prop where
  source : t.view? (place p) = some (some src)
  unforced : force = false
  found : m.lookup p = some a
  interface : a.interface = (target c p).interface

/-- A source that is compiled, with the files that are still to be written. -/
def Saves (c : Config) (t : FileTree) (saw : List Text → Text → Prop) (p : Text)
    (b : BuildResult × Option Artifact) (files : List (Text × Text)) : Prop :=
  ∃ src out written, t.view? (place p) = some (some src) ∧ compile c.options p src = .ok out ∧
    b = ({ target c p with program := out.program.name },
      some (Artifact.ofOutput p (target c p).output (target c p).interface src c.options out)) ∧
    filesOf (target c p) out = written ++ files ∧ ∀ f ∈ written, saw (place f.1) f.2

/-- What is known of a source at a stage, by what it was when the build began, and by what was seen
at its outputs. -/
inductive Stage.Valid (c : Config) (m : Manifest) (force : Bool) (t : FileTree)
    (saw : List Text → Text → Prop) (p : Text) : Stage → Prop
  | queued : Valid c m force t saw p .queued
  | begun : Valid c m force t saw p .begun
  | unread : Valid c m force t saw p .unread
  | failed {e : WorkspaceError} : Valid c m force t saw p (.failed e)
  | comparing {src : Text} {a : Artifact} (h : Recorded c m force t p src a) :
      Valid c m force t saw p (.comparing src a)
  | comparingInterface {src output : Text} {a : Artifact} (h : Recorded c m force t p src a)
      (hPath : (target c p).interface ≠ []) (hOutput : saw (place (target c p).output) output) :
      Valid c m force t saw p (.comparingInterface src a output)
  | creating {b : BuildResult × Option Artifact} {path text : Text} {files : List (Text × Text)}
      (h : Saves c t saw p b ((path, text) :: files)) :
      Valid c m force t saw p (.creating b path text files)
  | opening {b : BuildResult × Option Artifact} {path text : Text} {files : List (Text × Text)}
      (h : Saves c t saw p b ((path, text) :: files)) :
      Valid c m force t saw p (.opening b path text files)
  | writing {b : BuildResult × Option Artifact} {path text : Text} {files : List (Text × Text)}
      (h : Saves c t saw p b ((path, text) :: files)) :
      Valid c m force t saw p (.writing b path text files)
  | saved {b : BuildResult × Option Artifact} (h : Saves c t saw p b []) :
      Valid c m force t saw p (.built b)
  | refused {src : Text} {d : Diagnostic} (hSource : t.view? (place p) = some (some src))
      (hCompile : compile c.options p src = .error d) :
      Valid c m force t saw p (.built ({ target c p with failure := some d }, none))
  | skipped {src output : Text} {a : Artifact} {interface : Option Text}
      (h : Recorded c m force t p src a)
      (hCurrent : a.isUpToDate c.options src output interface = true)
      (hOutput : saw (place (target c p).output) output)
      (hInterface : ∀ text ∈ interface, saw (place (target c p).interface) text) :
      Valid c m force t saw p
        (.built ({ target c p with program := a.program, isSkipped := true }, none))

/-- The steps that a source can take. -/
inductive Advance (c : Config) (m : Manifest) (force : Bool) (p : Text) :
    FileTree → Stage → FileTree → Stage → Prop
  | proceeded {t : FileTree} : Advance c m force p t .begun t .unread
  | recorded {t : FileTree} {src : Text} {a : Artifact} (hRead : t.read p = .ok src)
      (hForce : force = false) (hFound : m.lookup p = some a)
      (hSame : a.interface = (target c p).interface) :
      Advance c m force p t .unread t (.comparing src a)
  | unrecorded {t : FileTree} {src : Text} (hRead : t.read p = .ok src) :
      Advance c m force p t .unread t (.compiled c p src)
  | noOutput {t : FileTree} {src : Text} {a : Artifact} :
      Advance c m force p t (.comparing src a) t (.compiled c p src)
  | output {t : FileTree} {src output : Text} {a : Artifact}
      (hRead : t.read (target c p).output = .ok output) (hPath : (target c p).interface ≠ []) :
      Advance c m force p t (.comparing src a) t (.comparingInterface src a output)
  | onlyOutput {t : FileTree} {src output : Text} {a : Artifact}
      (hRead : t.read (target c p).output = .ok output) :
      Advance c m force p t (.comparing src a) t (.compared c p src a output none)
  | noInterface {t : FileTree} {src output : Text} {a : Artifact} :
      Advance c m force p t (.comparingInterface src a output) t (.compiled c p src)
  | interface {t : FileTree} {src output text : Text} {a : Artifact}
      (hRead : t.read (target c p).interface = .ok text) :
      Advance c m force p t (.comparingInterface src a output) t
        (.compared c p src a output (some text))
  | created {t t' : FileTree} {b : BuildResult × Option Artifact} {path text : Text}
      {files : List (Text × Text)} (hMake : t.makeDirectories (parent path) = .ok t') :
      Advance c m force p t (.creating b path text files) t' (.opening b path text files)
  | opened {t t' : FileTree} {b : BuildResult × Option Artifact} {path text : Text}
      {files : List (Text × Text)} (hWrite : t.write path [] = .ok t') :
      Advance c m force p t (.opening b path text files) t' (.writing b path text files)
  | written {t t' : FileTree} {b : BuildResult × Option Artifact} {path text : Text}
      {files : List (Text × Text)} (hWrite : t.overwrite path text = .ok t') :
      Advance c m force p t (.writing b path text files) t' (.saving b files)
  | refused {t : FileTree} {s : Stage} {e : WorkspaceError} :
      Advance c m force p t s t (.failed e)

theorem advance_of_advance {c : Config} {m : Manifest} {force stopped : Bool} {p : Text}
    {t t' : FileTree} {s s' : Stage} (h : s.advance c m force stopped p t = some (t', s')) :
    Advance c m force p t s t' s' := by
  cases s with
  | queued | built | failed => cases h
  | begun =>
    cases h
    cases stopped with
    | true => exact .refused
    | false => exact .proceeded
  | unread =>
    rw [Stage.advance, Option.some.injEq, Prod.mk.injEq] at h
    obtain ⟨rfl, h⟩ := h
    split at h
    · cases h
      exact .refused
    · rename_i src hRead
      split at h
      · rename_i a hFound
        split at h
        · rename_i hCompared
          simp only [Bool.and_eq_true, Bool.not_eq_true', decide_eq_true_eq] at hCompared
          cases h
          exact .recorded hRead hCompared.1 hFound hCompared.2
        · cases h
          exact .unrecorded hRead
      · cases h
        exact .unrecorded hRead
  | comparing src a =>
    rw [Stage.advance, Option.some.injEq, Prod.mk.injEq] at h
    obtain ⟨rfl, h⟩ := h
    split at h
    · cases h
      exact .noOutput
    · rename_i output hRead
      split at h
      · cases h
        exact .onlyOutput hRead
      · rename_i hPath
        cases h
        exact .output hRead (by simpa using hPath)
  | comparingInterface src a output =>
    rw [Stage.advance, Option.some.injEq, Prod.mk.injEq] at h
    obtain ⟨rfl, h⟩ := h
    split at h
    · cases h
      exact .noInterface
    · rename_i text hRead
      cases h
      exact .interface hRead
  | creating b path text files =>
    rw [Stage.advance, Option.some.injEq] at h
    split at h
    · cases h
      exact .refused
    · rename_i hMake
      cases h
      exact .created hMake
  | opening b path text files =>
    rw [Stage.advance, Option.some.injEq] at h
    split at h
    · cases h
      exact .refused
    · rename_i hWrite
      cases h
      exact .opened hWrite
  | writing b path text files =>
    rw [Stage.advance, Option.some.injEq] at h
    split at h
    · cases h
      exact .refused
    · rename_i hWrite
      cases h
      exact .written hWrite

section Valid

variable {c : Config} {m : Manifest} {force : Bool} {t t₁ t₂ : FileTree} {ps : List Text}
  {p src : Text} {s s' : Stage} {saw saw' : List Text → Text → Prop}

theorem Saves.mono {b : BuildResult × Option Artifact} {files : List (Text × Text)}
    (h : Saves c t saw p b files) (hMono : ∀ q d, saw q d → saw' q d) :
    Saves c t saw' p b files := by
  obtain ⟨src, out, written, hSource, hCompile, hb, hFiles, hSaw⟩ := h
  exact ⟨src, out, written, hSource, hCompile, hb, hFiles, fun f hf => hMono _ _ (hSaw f hf)⟩

theorem Stage.Valid.mono (h : s.Valid c m force t saw p) (hMono : ∀ q d, saw q d → saw' q d) :
    s.Valid c m force t saw' p := by
  cases h with
  | queued => exact .queued
  | begun => exact .begun
  | unread => exact .unread
  | failed => exact .failed
  | comparing h => exact .comparing h
  | comparingInterface h hPath hOutput => exact .comparingInterface h hPath (hMono _ _ hOutput)
  | creating h => exact .creating (h.mono hMono)
  | opening h => exact .opening (h.mono hMono)
  | writing h => exact .writing (h.mono hMono)
  | saved h => exact .saved (h.mono hMono)
  | refused hSource hCompile => exact .refused hSource hCompile
  | skipped h hCurrent hOutput hInterface =>
    exact .skipped h hCurrent (hMono _ _ hOutput) fun text hText => hMono _ _ (hInterface text hText)

theorem valid_saving {b : BuildResult × Option Artifact} {files : List (Text × Text)}
    (h : Saves c t saw p b files) : (Stage.saving b files).Valid c m force t saw p := by
  cases files with
  | nil => exact .saved h
  | cons => exact .creating h

theorem valid_compiled (hSource : t.view? (place p) = some (some src)) :
    (Stage.compiled c p src).Valid c m force t saw p := by
  unfold Stage.compiled
  split
  · rename_i hCompile
    exact .refused hSource hCompile
  · rename_i out hCompile
    exact valid_saving ⟨src, out, [], hSource, hCompile, rfl, rfl, List.forall_mem_nil _⟩

theorem valid_compared {a : Artifact} {output : Text} {interface : Option Text}
    (h : Recorded c m force t p src a) (hOutput : saw (place (target c p).output) output)
    (hInterface : ∀ text ∈ interface, saw (place (target c p).interface) text) :
    (Stage.compared c p src a output interface).Valid c m force t saw p := by
  unfold Stage.compared
  split
  · rename_i hCurrent
    exact .skipped h hCurrent hOutput hInterface
  · exact valid_compiled h.source

/-- A step keeps what is known of its source, with what is read and written by it. -/
theorem Stage.Valid.advance (h : s.Valid c m force t saw p)
    (hStep : Advance c m force p t₁ s t₂ s') (hMono : ∀ q d, saw q d → saw' q d)
    (hSource : ∀ src, t₁.read p = .ok src → t.view? (place p) = some (some src))
    (hRead : ∀ path d, path = (target c p).output ∨ path = (target c p).interface →
      t₂.read path = .ok d → saw' (place path) d)
    (hWritten : ∀ b path text files, s = .writing b path text files → s'.fault? = none →
      saw' (place path) text) : s'.Valid c m force t saw' p := by
  cases hStep with
  | proceeded => exact .unread
  | recorded hText hForce hFound hSame =>
    exact .comparing ⟨hSource _ hText, hForce, hFound, hSame⟩
  | unrecorded hText => exact valid_compiled (hSource _ hText)
  | noOutput =>
    cases h with
    | comparing h => exact valid_compiled h.source
  | output hText hPath =>
    cases h with
    | comparing h => exact .comparingInterface h hPath (hRead _ _ (.inl rfl) hText)
  | onlyOutput hText =>
    cases h with
    | comparing h => exact valid_compared h (hRead _ _ (.inl rfl) hText) nofun
  | noInterface =>
    cases h with
    | comparingInterface h => exact valid_compiled h.source
  | interface hText =>
    cases h with
    | comparingInterface h _ hOutput =>
      refine valid_compared h (hMono _ _ hOutput) ?_
      rintro _ ⟨⟩
      exact hRead _ _ (.inr rfl) hText
  | created =>
    cases h with
    | creating h => exact .opening (h.mono hMono)
  | opened =>
    cases h with
    | opening h => exact .writing (h.mono hMono)
  | written =>
    rename_i b path text files _
    cases h with
    | writing h =>
      obtain ⟨src, out, written, hSource, hCompile, hb, hFiles, hSaw⟩ := h
      refine valid_saving ⟨src, out, written ++ [(path, text)], hSource, hCompile, hb, ?_, ?_⟩
      · rw [hFiles, List.append_assoc, List.singleton_append]
      · refine List.forall_mem_append.mpr ⟨fun f hf => hMono _ _ (hSaw f hf), ?_⟩
        refine List.forall_mem_singleton.mpr (hWritten b path text files rfl ?_)
        cases files <;> rfl
  | refused => exact .failed

theorem opened?_saving (b : BuildResult × Option Artifact) (files : List (Text × Text)) :
    (Stage.saving b files).opened? = none := by
  cases files <;> rfl

theorem opened?_compiled (c : Config) (p src : Text) : (Stage.compiled c p src).opened? = none := by
  unfold Stage.compiled
  split
  · rfl
  · exact opened?_saving _ _

theorem opened?_compared (c : Config) (p src : Text) (a : Artifact) (output : Text)
    (interface : Option Text) : (Stage.compared c p src a output interface).opened? = none := by
  unfold Stage.compared
  split
  · rfl
  · exact opened?_compiled _ _ _

/-- What a step does to the files: nothing but new directories, or a file is opened, or an open one
gets its text. -/
inductive Effect (c : Config) (t : FileTree) (ps : List Text) (t₁ t₂ : FileTree) (s s' : Stage) :
    Prop
  | quiet (hAfter : After t₁ [] t₂) (hClosed : s.opened? = none ∨ s'.fault?.isSome = true)
      (hNext : s'.opened? = none)
  | opened {path text : Text} (hAfter : After t₁ [(place path, [])] t₂) (hClosed : s.opened? = none)
      (hNext : s'.opened? = some (place path)) (hPermitted : Permitted c t ps (place path, text))
  | written {path text rest : Text} (hAfter : After t₁ [(place path, text ++ rest)] t₂)
      (hOpen : s.opened? = some (place path)) (hNext : s'.opened? = none)
      (hPermitted : Permitted c t ps (place path, text)) 
      (hRest : Agreed c t ps (place path) → rest = [])

theorem Saves.permitted {b : BuildResult × Option Artifact} {path text : Text}
    {files : List (Text × Text)} (h : Saves c t saw p b ((path, text) :: files)) (hp : p ∈ ps) :
    Permitted c t ps (place path, text) := by
  obtain ⟨src, out, written, hSource, hCompile, _, hFiles, _⟩ := h
  refine permitted_of_mem_filesOf (f := (path, text)) hp hSource hCompile ?_
  rw [hFiles]
  exact List.mem_append_right _ List.mem_cons_self

theorem effect_of_advance (hp : p ∈ ps) (h : s.Valid c m force t saw p)
    (hStep : Advance c m force p t₁ s t₂ s')
    (hOpened : ∀ q, Agreed c t ps q → s.opened? = some q → ∀ d, t₁.view? q = some (some d) →
      d = [] ∨ Permitted c t ps (q, d)) :
    Effect c t ps t₁ t₂ s s' := by
  cases hStep with
  | proceeded => exact .quiet (.refl _) (.inl rfl) rfl
  | recorded => exact .quiet (.refl _) (.inl rfl) rfl
  | output => exact .quiet (.refl _) (.inl rfl) rfl
  | unrecorded => exact .quiet (.refl _) (.inl rfl) (opened?_compiled _ _ _)
  | noOutput => exact .quiet (.refl _) (.inl rfl) (opened?_compiled _ _ _)
  | noInterface => exact .quiet (.refl _) (.inl rfl) (opened?_compiled _ _ _)
  | onlyOutput => exact .quiet (.refl _) (.inl rfl) (opened?_compared _ _ _ _ _ _)
  | interface => exact .quiet (.refl _) (.inl rfl) (opened?_compared _ _ _ _ _ _)
  | created hMake => exact .quiet (after_makeDirectories hMake) (.inl rfl) rfl
  | opened hWrite =>
    cases h with
    | opening h => exact .opened (after_write hWrite) rfl rfl (h.permitted hp)
  | written hWrite =>
    rename_i b path text files
    cases h with
    | writing h =>
      obtain ⟨found, hFound, hWrite⟩ := overwrite_eq_ok hWrite
      refine .written (after_write hWrite) rfl (opened?_saving _ _) (h.permitted hp) fun hAgreed => ?_
      rcases hOpened _ hAgreed rfl found hFound with rfl | hOther
      · exact List.drop_nil
      · rw [hAgreed _ _ hOther (h.permitted hp)]
        exact List.drop_length
  | refused => exact .quiet (.refl _) (.inr rfl) rfl

theorem Effect.touched (hEffect : Effect c t ps t₁ t₂ s s') :
    ∃ ws, After t₁ ws t₂ ∧ ∀ w ∈ ws, Rough c t ps w := by
  cases hEffect with
  | quiet hAfter => exact ⟨_, hAfter, List.forall_mem_nil _⟩
  | opened hAfter _ _ hPermitted =>
    exact ⟨_, hAfter, List.forall_mem_singleton.mpr ⟨_, hPermitted, .inl rfl⟩⟩
  | written hAfter _ _ hPermitted hRest =>
    exact ⟨_, hAfter, List.forall_mem_singleton.mpr ⟨_, hPermitted, .inr ⟨_, rfl, hRest⟩⟩⟩

theorem view?_of_after_single {q : List Text} {x d : Text} (h : After t₁ [(q, x)] t₂)
    (hView : t₂.view? q = some (some d)) : d = x := by
  rw [h.view?_of_lastWrite? (lastWrite?_concat_self q [] x)] at hView
  exact (Option.some.inj (Option.some.inj hView)).symm

theorem view?_iff_of_after_single {q r : List Text} {x d : Text} (h : After t₁ [(r, x)] t₂)
    (hNe : q ≠ r) : t₂.view? q = some (some d) ↔ t₁.view? q = some (some d) :=
  h.view?_eq_file_iff (lastWrite?_concat_of_ne hNe [] x)

/-- What stands at an output after a step was put there by it or was there before, in a file that
the step did not open. -/
theorem Effect.view?_cases (hEffect : Effect c t ps t₁ t₂ s s') {q : List Text}
    (hAgreed : Agreed c t ps q) {d : Text} (hView : t₂.view? q = some (some d)) :
    d = [] ∨ Permitted c t ps (q, d) ∨ s'.opened? ≠ some q ∧ t₁.view? q = some (some d) := by
  cases hEffect with
  | quiet hAfter _ hNext =>
    exact .inr (.inr ⟨by simp [hNext], (hAfter.view?_eq_file_iff rfl).mp hView⟩)
  | @opened path text hAfter _ hNext =>
    by_cases hSame : q = place path
    · subst hSame
      exact .inl (view?_of_after_single hAfter hView)
    · refine .inr (.inr ⟨?_, (view?_iff_of_after_single hAfter hSame).mp hView⟩)
      rw [hNext]
      exact fun hPlace => hSame (Option.some.inj hPlace).symm
  | @written path text rest hAfter _ hNext hPermitted hRest =>
    by_cases hSame : q = place path
    · subst hSame
      rw [view?_of_after_single hAfter hView, hRest hAgreed, List.append_nil]
      exact .inr (.inl hPermitted)
    · exact .inr (.inr ⟨by simp [hNext], (view?_iff_of_after_single hAfter hSame).mp hView⟩)

/-- After a step that does not fail, a text that stood at an output stands there, or the file is
open. -/
theorem Effect.kept (hEffect : Effect c t ps t₁ t₂ s s') {q : List Text}
    (hAgreed : Agreed c t ps q) {d : Text} (hPermitted : Permitted c t ps (q, d))
    (hView : t₁.view? q = some (some d)) : t₂.view? q = some (some d) ∨ s'.opened? = some q := by
  cases hEffect with
  | quiet hAfter => exact .inl ((hAfter.view?_eq_file_iff rfl).mpr hView)
  | @opened path text hAfter _ hNext =>
    by_cases hSame : q = place path
    · exact .inr (hSame ▸ hNext)
    · exact .inl ((view?_iff_of_after_single hAfter hSame).mpr hView)
  | @written path text rest hAfter _ _ hHere hRest =>
    by_cases hSame : q = place path
    · subst hSame
      rw [hRest hAgreed, List.append_nil, hAgreed _ _ hHere hPermitted] at hAfter
      exact .inl (hAfter.view?_of_lastWrite? (lastWrite?_concat_self _ [] d))
    · exact .inl ((view?_iff_of_after_single hAfter hSame).mpr hView)

/-- A file that was open has its text after the step of its source, if that does not fail. -/
theorem Effect.closed (hEffect : Effect c t ps t₁ t₂ s s') {q : List Text}
    (hAgreed : Agreed c t ps q) {d : Text} (hPermitted : Permitted c t ps (q, d))
    (hOpen : s.opened? = some q) (hDone : s'.fault? = none) : t₂.view? q = some (some d) := by
  cases hEffect with
  | quiet _ hClosed =>
    rcases hClosed with hClosed | hFailed
    · cases hOpen.symm.trans hClosed
    · rw [hDone] at hFailed
      cases hFailed
  | opened _ hClosed => cases hOpen.symm.trans hClosed
  | written hAfter hHere _ hText hRest =>
    obtain rfl := Option.some.inj (hOpen.symm.trans hHere)
    rw [hRest hAgreed, List.append_nil, hAgreed _ _ hText hPermitted] at hAfter
    exact hAfter.view?_of_lastWrite? (lastWrite?_concat_self _ [] d)

end Valid

/-- As long as the build goes well and all that is written to a place is one text, this text, once it
was seen there, stands there except while the file is rewritten. -/
def Saw (c : Config) (t : FileTree) (ps : List Text) (pool : Pool) (q : List Text) (d : Text) :
    Prop :=
  pool.fault = none → Agreed c t ps q →
    (d = [] ∨ t.view? q = some (some d) ∨ Permitted c t ps (q, d)) ∧
      (Permitted c t ps (q, d) →
        pool.tree.view? q = some (some d) ∨ ∃ s ∈ pool.sources, s.2.opened? = some q)

/-- What holds at all times of a build that began with this tree and these sources. -/
structure Pool.Inv (c : Config) (m : Manifest) (force : Bool) (t : FileTree) (ps : List Text)
    (pool : Pool) : Prop where
  names : pool.sources.map (·.1) = ps
  touched : ∃ ws, After t ws pool.tree ∧ ∀ w ∈ ws, Rough c t ps w
  valid : ∀ s ∈ pool.sources, s.2.Valid c m force t (Saw c t ps pool) s.1
  opened : ∀ q, Agreed c t ps q → ∀ s ∈ pool.sources, s.2.opened? = some q →
    ∀ d, pool.tree.view? q = some (some d) → d = [] ∨ Permitted c t ps (q, d)
  faults : ∀ s ∈ pool.sources, s.2.fault?.isSome = true → pool.fault ≠ none

namespace Pool

variable {c : Config} {m : Manifest} {force : Bool} {t t₁ t₂ : FileTree} {ps : List Text}
  {before after : List (Text × Stage)} {p : Text} {s s' : Stage} {fault : Option WorkspaceError}

section Replace

theorem mem_replaced {u : Text × Stage} (h : u ∈ before ++ (p, s') :: after) :
    u = (p, s') ∨ u ∈ before ++ (p, s) :: after := by
  simp only [List.mem_append, List.mem_cons] at h ⊢
  tauto

theorem saw_replaced (hEffect : Effect c t ps t₁ t₂ s s') {q : List Text} {d : Text}
    (h : Saw c t ps ⟨t₁, before ++ (p, s) :: after, fault⟩ q d) :
    Saw c t ps ⟨t₂, before ++ (p, s') :: after, fault.or s'.fault?⟩ q d := by
  intro hFault hAgreed
  obtain ⟨hFault, hDone⟩ := Option.or_eq_none_iff.mp hFault
  obtain ⟨hOrigin, hStands⟩ := h hFault hAgreed
  refine ⟨hOrigin, fun hPermitted => ?_⟩
  have hHere : (p, s') ∈ before ++ (p, s') :: after := List.mem_append_right _ List.mem_cons_self
  rcases hStands hPermitted with hView | ⟨u, hu, hOpen⟩
  · exact (hEffect.kept hAgreed hPermitted hView).imp_right fun hOpen => ⟨_, hHere, hOpen⟩
  · rcases mem_replaced hu with rfl | hu
    · exact .inl (hEffect.closed hAgreed hPermitted hOpen hDone)
    · exact .inr ⟨u, hu, hOpen⟩

/-- A text that stands at an output was seen there. -/
theorem saw_of_view? {pool : Pool} (hTouched : ∃ ws, After t ws pool.tree ∧ ∀ w ∈ ws, Rough c t ps w)
    {q : List Text} {d : Text} (hView : pool.tree.view? q = some (some d)) :
    Saw c t ps pool q d := by
  obtain ⟨ws, hAfter, hws⟩ := hTouched
  refine fun _ hAgreed => ⟨?_, fun _ => .inl hView⟩
  rcases hAfter.written_or_kept hView with hWritten | hKept
  · exact ((hws _ hWritten).eq_or_permitted hAgreed).imp_right .inr
  · exact .inr (.inl hKept)

theorem touched_replaced {t₀ : FileTree} (h : ∃ ws, After t ws t₀ ∧ ∀ w ∈ ws, Rough c t ps w)
    (hEffect : Effect c t ps t₀ t₂ s s') : ∃ ws, After t ws t₂ ∧ ∀ w ∈ ws, Rough c t ps w := by
  obtain ⟨ws, hAfter, hws⟩ := h
  obtain ⟨ws', hAfter', hws'⟩ := hEffect.touched
  exact ⟨ws ++ ws', hAfter.trans hAfter', List.forall_mem_append.mpr ⟨hws, hws'⟩⟩

/-- The invariant is kept when one source goes on with such an effect, if the new stage is valid. -/
theorem Inv.replace (h : Inv c m force t ps ⟨t₁, before ++ (p, s) :: after, fault⟩)
    (hEffect : Effect c t ps t₁ t₂ s s')
    (hValid : s'.Valid c m force t
      (Saw c t ps ⟨t₂, before ++ (p, s') :: after, fault.or s'.fault?⟩) p) :
    Inv c m force t ps ⟨t₂, before ++ (p, s') :: after, fault.or s'.fault?⟩ := by
  constructor
  · have hNames := h.names
    simp only [List.map_append, List.map_cons] at hNames ⊢
    exact hNames
  · exact touched_replaced h.touched hEffect
  · intro u hu
    rcases mem_replaced hu with rfl | hu
    · exact hValid
    · exact (h.valid u hu).mono fun q d => saw_replaced hEffect
  · intro q hAgreed u hu hOpen d hView
    rcases hEffect.view?_cases hAgreed hView with hEmpty | hPermitted | ⟨hClosed, hBefore⟩
    · exact .inl hEmpty
    · exact .inr hPermitted
    · rcases mem_replaced hu with rfl | hu
      · exact absurd hOpen hClosed
      · exact h.opened q hAgreed u hu hOpen d hBefore
  · intro u hu hFailed hNone
    obtain ⟨hFault, hDone⟩ := Option.or_eq_none_iff.mp hNone
    rcases mem_replaced hu with rfl | hu
    · rw [hDone] at hFailed
      cases hFailed
    · exact h.faults u hu hFailed hFault

/-- Sources are read as they were when the build began. -/
theorem source_of_rough {t₀ : FileTree} (hps : ∀ p ∈ ps, isSource p = true)
    (h : ∃ ws, After t ws t₀ ∧ ∀ w ∈ ws, Rough c t ps w) (hp : p ∈ ps) {src : Text} :
    t₀.view? (place p) = some (some src) ↔ t.view? (place p) = some (some src) := by
  obtain ⟨ws, hAfter, hws⟩ := h
  refine hAfter.view?_eq_file_iff ?_
  cases hLast : lastWrite? (place p) ws with
  | none => rfl
  | some d =>
    obtain ⟨text, hPermitted, _⟩ := hws _ (mem_of_lastWrite? hLast)
    have hSource := endsIn_of_isSource (hps p hp)
    rcases hPermitted.endsIn hps with hRust | hJson
    · exact absurd (hRust.suffix_or_suffix hSource) (by decide)
    · exact absurd (hJson.suffix_or_suffix hSource) (by decide)

theorem Inv.initial : Inv c m force t ps (.initial t ps) := by
  have hQueued : ∀ s ∈ (Pool.initial t ps).sources, s.2 = .queued := by
    rintro s hs
    obtain ⟨p, _, rfl⟩ := List.mem_map.mp hs
    rfl
  constructor
  · exact List.map_map.trans (List.map_id ps)
  · exact ⟨[], .refl t, List.forall_mem_nil _⟩
  · intro s hs
    rw [hQueued s hs]
    exact .queued
  · intro q _ s hs hOpen
    rw [hQueued s hs] at hOpen
    cases hOpen
  · intro s hs hFailed
    rw [hQueued s hs] at hFailed
    cases hFailed

/-- Every step keeps the invariant. -/
theorem Inv.next {cancelled : Bool} {pool pool' : Pool} (hps : ∀ p ∈ ps, isSource p = true)
    (h : Inv c m force t ps pool) (hStep : Next c m force cancelled pool pool') :
    Inv c m force t ps pool' := by
  cases hStep with
  | @start t₁ before after p fault =>
    have hNext : Inv c m force t ps ⟨t₁, before ++ (p, .begun) :: after,
        fault.or (Stage.fault? .begun)⟩ := h.replace (.quiet (.refl t₁) (.inl rfl) rfl) .begun
    have hNone : fault.or (Stage.fault? .begun) = fault := Option.or_none
    rwa [hNone] at hNext
  | @advance t₁ t₂ before after p s s' fault hAdvance =>
    have hHere : (p, s) ∈ before ++ (p, s) :: after := List.mem_append_right _ List.mem_cons_self
    have hp : p ∈ ps := h.names ▸ List.mem_map_of_mem hHere
    have hMoves := advance_of_advance hAdvance
    have hValid := h.valid _ hHere
    have hEffect := effect_of_advance hp hValid hMoves fun q hAgreed => h.opened q hAgreed _ hHere
    refine h.replace hEffect (hValid.advance hMoves (fun q d => saw_replaced hEffect) ?_ ?_ ?_)
    · exact fun src hRead => (source_of_rough hps h.touched hp).mp (view?_of_read hRead)
    · exact fun path d _ hRead =>
        saw_of_view? (touched_replaced h.touched hEffect) (view?_of_read hRead)
    · rintro b path text files rfl hDone _ hAgreed
      have hPermitted : Permitted c t ps (place path, text) := by
        cases hValid with
        | writing hSaves => exact hSaves.permitted hp
      exact ⟨.inr (.inr hPermitted), fun _ => .inl (hEffect.closed hAgreed hPermitted rfl hDone)⟩

theorem Inv.run {cancelled : Bool} {pool : Pool} (hps : ∀ p ∈ ps, isSource p = true)
    (hSteps : Relation.ReflTransGen (Next c m force cancelled) (.initial t ps) pool) :
    Inv c m force t ps pool := by
  induction hSteps with
  | refl => exact .initial
  | tail _ hStep ih => exact ih.next hps hStep

theorem forall₂_filterMap {α β : Type} {R : α → β → Prop} {f : α → Option β} {as : List α}
    (h : ∀ a ∈ as, ∃ b, f a = some b ∧ R a b) : List.Forall₂ R as (as.filterMap f) := by
  induction as with
  | nil => exact .nil
  | cons a as ih =>
    obtain ⟨⟨b, hb, hR⟩, hRest⟩ := List.forall_mem_cons.mp h
    rw [List.filterMap_cons_some hb]
    exact .cons hR (ih hRest)

section Ended

variable {pool : Pool} (h : Inv c m force t ps pool) (hEnded : pool.hasEnded)
  (hFault : pool.fault = none)

include h hEnded hFault

theorem Inv.exists_built {u : Text × Stage} (hu : u ∈ pool.sources) : ∃ b, u.2 = .built b := by
  have hStage := hEnded u hu
  cases hEq : u.2 with
  | built b => exact ⟨b, rfl⟩
  | failed e => exact absurd hFault (h.faults u hu (by rw [hEq]; rfl))
  | _ =>
    rw [hEq] at hStage
    cases hStage

theorem Inv.valid_built : List.Forall₂
    (fun p b => (Stage.built b).Valid c m force t (Saw c t ps pool) p) ps pool.built := by
  have hAll : List.Forall₂
      (fun (u : Text × Stage) b => (Stage.built b).Valid c m force t (Saw c t ps pool) u.1)
      pool.sources pool.built := by
    refine forall₂_filterMap fun u hu => ?_
    obtain ⟨b, hb⟩ := h.exists_built hEnded hFault hu
    exact ⟨b, by rw [hb]; rfl, hb ▸ h.valid u hu⟩
  have hMapped : List.Forall₂
      (fun p b => (Stage.built b).Valid c m force t (Saw c t ps pool) p)
      (pool.sources.map (·.1)) pool.built := List.forall₂_map_left_iff.mpr hAll
  rwa [h.names] at hMapped

/-- In the end the texts that were seen stand there, if the outputs agree. -/
theorem Inv.stands {q : List Text} {d : Text} (hAgreed : Agreed c t ps q)
    (hSaw : Saw c t ps pool q d) (hPermitted : Permitted c t ps (q, d)) :
    pool.tree.view? q = some (some d) := by
  refine ((hSaw hFault hAgreed).2 hPermitted).resolve_right ?_
  rintro ⟨u, hu, hOpen⟩
  obtain ⟨b, hb⟩ := h.exists_built hEnded hFault hu
  rw [hb] at hOpen
  cases hOpen

end Ended

end Replace

end Pool

theorem built_of_valid {c : Config} {m : Manifest} {force : Bool} {t : FileTree} {p : Text}
    {saw : List Text → Text → Prop} {b : BuildResult × Option Artifact}
    (h : (Stage.built b).Valid c m force t saw p) :
    ∃ s, Built c m force t p s ∧ b = (s.result, s.record) := by
  cases h with
  | saved h =>
    obtain ⟨src, out, _, hSource, hCompile, rfl, _⟩ := h
    exact ⟨_, .compiled hSource hCompile, rfl⟩
  | refused hSource hCompile => exact ⟨_, .refused hSource hCompile, rfl⟩
  | skipped h => exact ⟨_, .skipped h.unforced h.found, rfl⟩

theorem exists_steps_of_valid {c : Config} {m : Manifest} {force : Bool} {t : FileTree}
    {ps : List Text} {saw : List Text → Text → Prop} {bs : List (BuildResult × Option Artifact)}
    (h : List.Forall₂ (fun p b => (Stage.built b).Valid c m force t saw p) ps bs) :
    ∃ steps : List Step, List.Forall₂ (Built c m force t) ps steps ∧
      bs = steps.map fun s => (s.result, s.record) := by
  induction h with
  | nil => exact ⟨[], .nil, rfl⟩
  | cons hHere _ ih =>
    obtain ⟨s, hBuilt, rfl⟩ := built_of_valid hHere
    obtain ⟨steps, hSteps, rfl⟩ := ih
    exact ⟨s :: steps, .cons hBuilt hSteps, rfl⟩

/-- What a build with several workers may come to. -/
theorem buildsTo_cases {c : Config} {force cancelled : Bool} {t t' : FileTree}
    {res : Except WorkspaceError (List BuildResult)} (h : BuildsTo c force cancelled t res t') :
    (∃ e, res = .error e ∧ t' = t) ∨
    ∃ (ps : List Text) (m : Manifest) (pool : Pool), discover c t = .ok ps ∧
      loadManifest c t = .ok m ∧ pool.Inv c m force t ps ∧
      ((∃ e, res = .error e ∧ After pool.tree [] t') ∨
      pool.hasEnded ∧ pool.fault = none ∧ ∃ (steps : List Step) (text : Text),
        List.Forall₂ (Built c m force t) ps steps ∧
        pool.built = steps.map (fun s => (s.result, s.record)) ∧
        (updated m (steps.map fun s => (s.result, s.record))).encode = .ok text ∧
        res = .ok (steps.map (·.result)) ∧ After pool.tree [(place (manifestPath c), text)] t') := by
  cases h with
  | undiscovered => exact .inl ⟨_, rfl, rfl⟩
  | unloaded => exact .inl ⟨_, rfl, rfl⟩
  | @failed ps m pool e hDiscover hLoad hSteps =>
    have hInv := Pool.Inv.run (isSource_of_discover hDiscover) hSteps
    exact .inr ⟨ps, m, pool, hDiscover, hLoad, hInv, .inl ⟨e, rfl, .refl _⟩⟩
  | @saved ps m pool res t' hDiscover hLoad hSteps hEnded hFault hSave =>
    have hInv := Pool.Inv.run (isSource_of_discover hDiscover) hSteps
    refine .inr ⟨ps, m, pool, hDiscover, hLoad, hInv, ?_⟩
    obtain ⟨steps, hBuilt, hResults⟩ := exists_steps_of_valid (hInv.valid_built hEnded hFault)
    rw [hResults] at hSave ⊢
    change (saveManifest c (updated m (steps.map fun s => (s.result, s.record)))).outcome
      pool.tree = (res, t') at hSave
    rw [saveManifest_outcome] at hSave
    cases hEncode : (updated m (steps.map fun s => (s.result, s.record))).encode with
    | error e =>
      rw [hEncode] at hSave
      cases hSave
      exact .inl ⟨_, rfl, .refl _⟩
    | ok text =>
      rw [hEncode] at hSave
      rcases writeBelow_outcome hSave with ⟨rfl, hSaved⟩ | ⟨e, rfl, hNone⟩
      · refine .inr ⟨hEnded, hFault, steps, text, hBuilt, rfl, hEncode, ?_, hSaved⟩
        simp [Except.map]
      · exact .inl ⟨e, rfl, hNone⟩

end Workspace

end AnchorScript
