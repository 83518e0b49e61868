import AnchorScript.Proofs.Workspace.OneWorker

/-!
# What is on disk after a build

The outputs of a source are named by its stem alone. So sources with one stem in different
directories share their outputs, and only if they compile to the same texts do these remain for sure,
whatever several workers do first. With one worker the texts that remain are those of the last one
that compiles. The manifest is written after all outputs, over a description that has its name.
-/

namespace AnchorScript.Workspace

open Artifact FileTree AnchorScript.Path Outcome

/-- The last result without failure whose source has this stem. -/
def lastWith? (rs : List BuildResult) (s : Text) : Option BuildResult :=
  rs.reverse.find? fun r => r.failure.isNone && stem r.source = s

/-- Where a result says, there is what its source compiles to. -/
def OnDisk (c : Config) (t : FileTree) (r : BuildResult) : Prop :=
  ∃ out, Compiles c t r.source out ∧ t.read r.output = .ok out.rust ∧
    (r.interface ≠ [] → ∃ text, out.interface = some text ∧ t.read r.interface = .ok text)

/-- One of these results did not fail, and its outputs are named like those of another. -/
structure Shares (rs : List BuildResult) (r r' : BuildResult) : Prop where
  mem : r' ∈ rs
  unfailed : r'.failure = none
  stem_eq : stem r'.source = stem r.source

/-- Two sources compile to the same texts. -/
def Alike (c : Config) (t : FileTree) (p p' : Text) : Prop :=
  ∀ out out', Compiles c t p out → Compiles c t p' out' →
    out'.rust = out.rust ∧ out'.interface = out.interface

/-- A build that ended well, with the pool that it came to. -/
structure Finished (c : Config) (m : Manifest) (force : Bool) (t : FileTree) (ps : List Text)
    (pool : Pool) (rs : List BuildResult) (t' : FileTree) : Prop where
  discovered : discover c t = .ok ps
  loaded : loadManifest c t = .ok m
  inv : pool.Inv c m force t ps
  ended : pool.hasEnded
  unfailed : pool.fault = none
  results : rs = pool.built.map (·.1)
  saved : ∃ as, After pool.tree [(place (manifestPath c), Manifest.fileText m.version as)] t'

theorem lastWith?_cons (r : BuildResult) (rs : List BuildResult) (s : Text) :
    lastWith? (r :: rs) s = (lastWith? rs s).or
      (if r.failure = none ∧ stem r.source = s then some r else none) := by
  rw [lastWith?, lastWith?, List.reverse_cons, List.find?_append, List.find?_singleton]
  simp

theorem exists_lastWith? {rs : List BuildResult} {r : BuildResult} (hr : r ∈ rs)
    (h : r.failure = none) : ∃ last, lastWith? rs (stem r.source) = some last := by
  rw [← Option.isSome_iff_exists, lastWith?, List.find?_isSome]
  exact ⟨r, List.mem_reverse.mpr hr, by simp [h]⟩

section Writes

variable {c : Config} {p p' : Text} {src : Text} {out : CompileOutput}

theorem output_ne_interface (hp : isSource p = true) (hp' : isSource p' = true)
    (hEmit : c.compiler.emitInterface = true) :
    place (target c p).output ≠ place (target c p').interface := by
  intro hSame
  have hRust : EndsIn ".rs" (place (target c p).output) := ⟨_, _, place_output hp⟩
  have hJson : EndsIn ".json" (place (target c p).output) :=
    ⟨_, _, hSame.trans (place_interface hp' hEmit)⟩
  exact absurd (hRust.suffix_or_suffix hJson) (by decide)

/-- Sources that share an output share the stem. -/
theorem stem_eq_of_mem_writes (hp : isSource p = true) (hp' : isSource p' = true)
    (hCompile : compile c.options p' src = .ok out) {w : List Text × Text}
    (hw : w ∈ writes (target c p') out) (h : w.1 = place (target c p).output ∨
      c.compiler.emitInterface = true ∧ w.1 = place (target c p).interface) : stem p' = stem p := by
  rcases List.mem_cons.mp hw with rfl | hw
  · rcases h with h | ⟨hEmit, h⟩
    · rw [place_output hp', place_output hp] at h
      simpa using (List.append_inj' h rfl).2
    · exact absurd h (output_ne_interface hp' hp hEmit)
  · obtain ⟨text, hText, rfl⟩ := List.mem_map.mp hw
    have hEmit := emits_of_compile hCompile (Option.mem_toList.mp hText)
    rcases h with h | ⟨_, h⟩
    · exact absurd h.symm (output_ne_interface hp hp' hEmit)
    · rw [place_interface hp' hEmit, place_interface hp hEmit] at h
      simpa using (List.append_inj' h rfl).2

theorem place_of_mem_writes (hCompile : compile c.options p src = .ok out) {w : List Text × Text}
    (hw : w ∈ writes (target c p) out) : w.1 = place (target c p).output ∨
      c.compiler.emitInterface = true ∧ w.1 = place (target c p).interface := by
  rcases List.mem_cons.mp hw with rfl | hw
  · exact .inl rfl
  · obtain ⟨text, hText, rfl⟩ := List.mem_map.mp hw
    exact .inr ⟨emits_of_compile hCompile (Option.mem_toList.mp hText), rfl⟩

/-- A source writes one text to a place. -/
theorem eq_of_mem_writes (hp : isSource p = true) (hCompile : compile c.options p src = .ok out)
    {q : List Text} {d d' : Text} (h : (q, d) ∈ writes (target c p) out)
    (h' : (q, d') ∈ writes (target c p) out) : d' = d := by
  cases hText : out.interface with
  | none =>
    simp only [writes, hText, Option.toList_none, List.map_nil, List.mem_singleton,
      Prod.mk.injEq] at h h'
    rw [h.2, h'.2]
  | some text =>
    have hNe := output_ne_interface hp hp (emits_of_compile hCompile hText)
    simp only [writes, hText, Option.toList_some, List.map_cons, List.map_nil, List.mem_cons,
      List.not_mem_nil, or_false, Prod.mk.injEq] at h h'
    rcases h with ⟨rfl, rfl⟩ | ⟨rfl, rfl⟩
    · rcases h' with ⟨_, rfl⟩ | ⟨hSame, _⟩
      · rfl
      · exact absurd hSame hNe
    · rcases h' with ⟨hSame, _⟩ | ⟨_, rfl⟩
      · exact absurd hSame.symm hNe
      · rfl

/-- Sources with one stem share their outputs. -/
theorem target_of_stem (c : Config) (h : stem p' = stem p) :
    target c p' = { target c p with source := p' } := by
  rw [target, target, h]

theorem lastWrite?_writes (hp : isSource p = true) (hCompile : compile c.options p src = .ok out) :
    lastWrite? (place (target c p).output) (writes (target c p) out) = some out.rust ∧
      ∀ text ∈ out.interface,
        lastWrite? (place (target c p).interface) (writes (target c p) out) = some text := by
  cases hText : out.interface with
  | none => exact ⟨by simp [writes, hText, lastWrite?], fun text h => by cases h⟩
  | some text =>
    have hNe := output_ne_interface hp hp (emits_of_compile hCompile hText)
    refine ⟨by simp [writes, hText, lastWrite?, hNe.symm], ?_⟩
    rintro _ ⟨⟩
    simp [writes, hText, lastWrite?]

end Writes

theorem Built.compiles {c : Config} {m : Manifest} {t : FileTree} {p : Text} {s : Step}
    (h : Built c m true t p s) (hDone : s.result.failure = none) :
    ∃ out, Compiles c t p out ∧ s.writes = writes (target c p) out := by
  cases h with
  | refused => cases hDone
  | compiled hSource hCompile => exact ⟨_, ⟨_, hSource, hCompile⟩, rfl⟩
  | skipped hForce => cases hForce

section Steps

variable {c : Config} {m : Manifest} {t : FileTree} {p : Text} {ps : List Text} {steps : List Step}

theorem lastWrite?_of_lastWith?_eq_none (h : List.Forall₂ (Built c m true t) ps steps)
    (hps : ∀ p ∈ ps, isSource p = true) (hp : isSource p = true)
    (hNone : lastWith? (steps.map (·.result)) (stem p) = none) {q : List Text}
    (hq : q = place (target c p).output ∨
      c.compiler.emitInterface = true ∧ q = place (target c p).interface) :
    lastWrite? q (steps.flatMap (·.writes)) = none := by
  cases hLast : lastWrite? q (steps.flatMap (·.writes)) with
  | none => rfl
  | some d =>
    obtain ⟨s, hs, hw⟩ := List.mem_flatMap.mp (mem_of_lastWrite? hLast)
    obtain ⟨p', hp', hBuilt⟩ := exists_of_mem_right h hs
    have hDone : s.result.failure = none := by
      cases hBuilt with
      | refused => cases hw
      | compiled => rfl
      | skipped => rfl
    obtain ⟨out, ⟨src, _, hCompile⟩, hWrites⟩ := hBuilt.compiles hDone
    have hStem := stem_eq_of_mem_writes hp (hps p' hp') hCompile (hWrites ▸ hw) hq
    obtain ⟨last, hSome⟩ := exists_lastWith? (List.mem_map_of_mem hs) hDone
    rw [hBuilt.result_eq.1, hStem, hNone] at hSome
    cases hSome

/-- The last source with a stem that compiles is the last to write the outputs of that stem. -/
theorem lastWrite?_of_lastWith? (h : List.Forall₂ (Built c m true t) ps steps)
    (hps : ∀ p ∈ ps, isSource p = true) (hp : isSource p = true) {last : BuildResult}
    (hLast : lastWith? (steps.map (·.result)) (stem p) = some last) :
    ∃ out, Compiles c t last.source out ∧
      lastWrite? (place (target c p).output) (steps.flatMap (·.writes)) = some out.rust ∧
      ∀ text ∈ out.interface,
        lastWrite? (place (target c p).interface) (steps.flatMap (·.writes)) = some text := by
  induction h with
  | nil => cases hLast
  | @cons p' s ps steps hBuilt hRest ih =>
    obtain ⟨hp', hps⟩ := List.forall_mem_cons.mp hps
    rw [List.map_cons, lastWith?_cons] at hLast
    simp only [List.flatMap_cons, lastWrite?_append]
    cases hLater : lastWith? (steps.map (·.result)) (stem p) with
    | some later =>
      rw [hLater, Option.some_or, Option.some.injEq] at hLast
      obtain ⟨out, hCompiles, hRust, hInterface⟩ := ih hps (hLast ▸ hLater)
      refine ⟨out, hCompiles, by rw [hRust, Option.some_or], fun text hText => ?_⟩
      rw [hInterface text hText, Option.some_or]
    | none =>
      rw [hLater, Option.none_or] at hLast
      split at hLast
      · rename_i hHere
        cases hLast
        obtain ⟨out, hCompiles, hWrites⟩ := hBuilt.compiles hHere.1
        obtain ⟨src, hSource, hCompile⟩ := hCompiles
        have hSame := target_of_stem c (hBuilt.result_eq.1 ▸ hHere.2)
        obtain ⟨hRust, hInterface⟩ := lastWrite?_writes hp' hCompile
        rw [← hWrites] at hRust hInterface
        rw [hSame] at hRust hInterface
        have hNone := fun q hq =>
          lastWrite?_of_lastWith?_eq_none hRest hps hp hLater (q := q) hq
        refine ⟨out, ?_, ?_, fun text hText => ?_⟩
        · rw [hBuilt.result_eq.1]
          exact ⟨src, hSource, hCompile⟩
        · rw [hNone _ (.inl rfl), Option.none_or]
          exact hRust
        · rw [hNone _ (.inr ⟨emits_of_compile hCompile hText, rfl⟩), Option.none_or]
          exact hInterface text hText
      · cases hLast

end Steps

/-- The idle program under another name. -/
def renamedSource : Text :=
  "export default class Q\x7bstatic PROGRAM_ID=new Pubkey('11111111111111111111111111111111');\x7d"

def twinTree : FileTree :=
  .directory [("src", .directory [("a", .directory [("p.ts", .file idleSource)]),
    ("b", .directory [("p.ts", .file renamedSource)])])]

theorem discover_twinTree :
    discover idleConfig twinTree = .ok [Text.ofString "src/a/p.ts", "src/b/p.ts"] := by
  have hFind : twinTree.find (path idleConfig idleConfig.workspace.programsDir) =
      .ok (.directory [("a", .directory [("p.ts", .file idleSource)]),
        ("b", .directory [("p.ts", .file renamedSource)])]) := rfl
  have hSources : sourcesOf (path idleConfig idleConfig.workspace.programsDir)
      (.directory [("a", .directory [("p.ts", .file idleSource)]),
        ("b", .directory [("p.ts", .file renamedSource)])]) =
      [Text.ofString "src/a/p.ts", "src/b/p.ts"] := by decide
  rw [discover, hFind]
  dsimp only
  rw [hSources, List.mergeSort_of_pairwise (by decide)]

theorem build_twinTree : ∃ rs t', (build idleConfig true false).outcome twinTree = (.ok rs, t') ∧
    rs.map (fun r => (r.source, r.failure.isNone)) =
      [(Text.ofString "src/a/p.ts", true), (Text.ofString "src/b/p.ts", true)] := by
  have hRuns : (match (buildAll idleConfig {} true false
      [Text.ofString "src/a/p.ts", "src/b/p.ts"]).outcome twinTree with
    | (.ok bs, t) => (bs.map (·.1)).map (fun r => (r.source, r.failure.isNone)) ==
        [(Text.ofString "src/a/p.ts", true), (Text.ofString "src/b/p.ts", true)] &&
      ((writeBelow (manifestPath idleConfig) []).outcome t).1.toOption.isSome
    | (.error _, _) => false) = true := by decide +kernel
  split at hRuns
  · rename_i hAll
    rw [Bool.and_eq_true, beq_iff_eq] at hRuns
    obtain ⟨t', hBuild, _⟩ := build_of_buildAll discover_twinTree rfl hAll hRuns.2
    exact ⟨_, t', hBuild, hRuns.1⟩
  · cases hRuns

section Build

variable {c : Config} {force cancelled : Bool} {t t' : FileTree} {rs : List BuildResult}
  {r : BuildResult}

/-- A build that ends well took its steps and then saved the manifest. -/
theorem exists_steps (h : (build c force cancelled).outcome t = (.ok rs, t')) :
    ∃ ps m steps text, discover c t = .ok ps ∧ loadManifest c t = .ok m ∧
      List.Forall₂ (Built c m force t) ps steps ∧ rs = steps.map (·.result) ∧
      (updated m (steps.map fun s => (s.result, s.record))).encode = .ok text ∧
      After t (steps.flatMap (·.writes) ++ [(place (manifestPath c), text)]) t' := by
  rcases build_cases h with ⟨e, hError, _⟩ | ⟨ps, m, hDiscover, hLoad, hRun⟩
  · cases hError
  rcases hRun with ⟨e, ws, hError, _⟩ | ⟨steps, text, hBuilt, hEncode, hResults, hAfter⟩
  · cases hError
  cases hResults
  exact ⟨ps, m, steps, text, hDiscover, hLoad, hBuilt, rfl, hEncode, hAfter⟩

/-- The results are those of the sources, each with its own outputs. -/
theorem result_eq_of_build (h : (build c force cancelled).outcome t = (.ok rs, t')) (hr : r ∈ rs) :
    isSource r.source = true ∧ r.output = (target c r.source).output ∧
      r.interface = (target c r.source).interface := by
  obtain ⟨ps, m, steps, text, hDiscover, _, hBuilt, rfl, _⟩ := exists_steps h
  obtain ⟨s, hs, rfl⟩ := List.mem_map.mp hr
  obtain ⟨p, hp, hStep⟩ := exists_of_mem_right hBuilt hs
  obtain ⟨hSource, hOutput, hInterface⟩ := hStep.result_eq
  rw [hSource]
  exact ⟨isSource_of_discover hDiscover p hp, hOutput, hInterface⟩

/-- A build leaves its sources as they were. -/
theorem compiles_iff_of_build (h : (build c force cancelled).outcome t = (.ok rs, t')) (hr : r ∈ rs)
    {out : CompileOutput} : Compiles c t' r.source out ↔ Compiles c t r.source out := by
  obtain ⟨hSource, _⟩ := result_eq_of_build h hr
  obtain ⟨ps, m, steps, text, hDiscover, _, hBuilt, _, _, hAfter⟩ := exists_steps h
  have hNe : place r.source ≠ place (manifestPath c) := by
    intro hSame
    have hJson : EndsIn ".json" (place r.source) :=
      ⟨_, "build-manifest", hSame.trans (place_manifestPath c)⟩
    exact absurd ((endsIn_of_isSource hSource).suffix_or_suffix hJson) (by decide)
  refine exists_congr fun src => and_congr_left fun _ => hAfter.view?_eq_file_iff ?_
  rw [lastWrite?_concat_of_ne hNe]
  exact lastWrite?_source (isSource_of_discover hDiscover) (permitted_of_steps hBuilt) hSource

/-- Where the manifest stands there is no description. -/
theorem manifest_ne_description (h : (build c force cancelled).outcome t = (.ok rs, t'))
    (d : Interface.Description) : t'.view? (place (manifestPath c)) ≠ some (some d.text) := by
  obtain ⟨ps, m, steps, text, hDiscover, hLoad, hBuilt, _, hEncode, hAfter⟩ := exists_steps h
  rw [encode_updated hDiscover hLoad hBuilt] at hEncode
  cases hEncode
  rw [hAfter.view?_of_lastWrite? (lastWrite?_concat_self _ _ _)]
  intro hSame
  exact Manifest.fileText_ne_description (loadManifest_valid hLoad).1 _ d
    (Option.some.inj (Option.some.inj hSame))

/-- What a forced build leaves at the outputs of a result that did not fail. -/
theorem outputs_of_forced (h : (build c true cancelled).outcome t = (.ok rs, t')) (hr : r ∈ rs)
    (hDone : r.failure = none) : (∃ out, Compiles c t r.source out) ∧
      ∃ last out, lastWith? rs (stem r.source) = some last ∧ Compiles c t last.source out ∧
        t'.read r.output = .ok out.rust ∧ ∀ text ∈ out.interface,
          place r.interface ≠ place (manifestPath c) → t'.read r.interface = .ok text := by
  obtain ⟨hSource, hOutput, hInterface⟩ := result_eq_of_build h hr
  obtain ⟨ps, m, steps, text, hDiscover, _, hBuilt, rfl, _, hAfter⟩ := exists_steps h
  have hps := isSource_of_discover hDiscover
  obtain ⟨last, hLast⟩ := exists_lastWith? hr hDone
  obtain ⟨out, hCompiles, hRust, hText⟩ := lastWrite?_of_lastWith? hBuilt hps hSource hLast
  refine ⟨?_, last, out, hLast, hCompiles, ?_, fun d hd hNe => ?_⟩
  · obtain ⟨s, hs, rfl⟩ := List.mem_map.mp hr
    obtain ⟨p, hp, hStep⟩ := exists_of_mem_right hBuilt hs
    obtain ⟨out', hCompiles', _⟩ := hStep.compiles hDone
    exact ⟨out', hStep.result_eq.1 ▸ hCompiles'⟩
  · rw [hOutput]
    refine read_of_view? (isTame_output hSource) (place_output_ne_nil hSource) ?_
    refine hAfter.view?_of_lastWrite? ?_
    rw [lastWrite?_concat_of_ne (place_output_ne_manifestPath c hSource), hRust]
  · obtain ⟨src, _, hCompile⟩ := hCompiles
    have hEmit := emits_of_compile hCompile hd
    rw [hInterface] at hNe ⊢
    refine read_of_view? (isTame_interface hSource hEmit) (place_interface_ne_nil hSource hEmit) ?_
    refine hAfter.view?_of_lastWrite? ?_
    rw [lastWrite?_concat_of_ne hNe, hText d hd]

theorem lastWith?_map_unmarked (rs : List BuildResult) (s : Text) :
    lastWith? (rs.map BuildResult.unmarked) s = (lastWith? rs s).map BuildResult.unmarked := by
  rw [lastWith?, ← List.map_reverse, List.find?_map]
  rfl

/-- The same holds of a build that skips what is current. -/
theorem outputs_of_build
    (hTrust : force = true ∨ ∃ S, History c S t ∧ Set.InjOn Keccak256.hash (S ∪ involved c t))
    (h : (build c force cancelled).outcome t = (.ok rs, t')) (hr : r ∈ rs) (hDone : r.failure = none) :
    (∃ out, Compiles c t r.source out) ∧
      ∃ last out, lastWith? rs (stem r.source) = some last ∧ Compiles c t last.source out ∧
        t'.read r.output = .ok out.rust ∧ ∀ text ∈ out.interface,
          place r.interface ≠ place (manifestPath c) → t'.read r.interface = .ok text := by
  cases force with
  | true => exact outputs_of_forced h hr hDone
  | false =>
    obtain ⟨S, hHistory, hHash⟩ := hTrust.resolve_left Bool.false_ne_true
    obtain ⟨hAgree, hTrees⟩ := build_sameBut hHistory hHash cancelled
    rcases hForced : (build c true cancelled).outcome t with ⟨res, forced⟩
    rw [h, hForced] at hAgree hTrees
    cases hAgree with
    | ok hSame =>
      rename_i rs'
      obtain ⟨r', hr', hResult⟩ := List.mem_map.mp (hSame ▸ List.mem_map_of_mem hr)
      have hFailure : r'.failure = r.failure := congrArg (·.failure) hResult
      have hSource : r'.source = r.source := congrArg (·.source) hResult
      have hOutput : r'.output = r.output := congrArg (·.output) hResult
      have hInterface : r'.interface = r.interface := congrArg (·.interface) hResult
      obtain ⟨hCompiles, last', out, hLast', hCompiles', hRust, hText⟩ :=
        outputs_of_forced hForced hr' (hFailure.trans hDone)
      rw [hSource] at hCompiles hLast'
      rw [hOutput] at hRust
      rw [hInterface] at hText
      have hLasts : (lastWith? rs (stem r.source)).map BuildResult.unmarked =
          some last'.unmarked := by
        rw [← lastWith?_map_unmarked, hSame, lastWith?_map_unmarked, hLast']
        rfl
      obtain ⟨last, hLast, hUnmarked⟩ := Option.map_eq_some_iff.mp hLasts
      have hLastSource : last'.source = last.source := congrArg (·.source) hUnmarked.symm
      obtain ⟨hp, hTarget, _⟩ := result_eq_of_build h hr
      have hNe : place r.output ≠ place (manifestPath c) :=
        hTarget ▸ place_output_ne_manifestPath c hp
      refine ⟨hCompiles, last, out, hLast, hLastSource ▸ hCompiles', ?_, fun text hd hNe => ?_⟩
      · exact (hTrees.read hNe).trans hRust
      · exact (hTrees.read hNe).trans (hText text hd hNe)

/-- After a build, forced or with a trusted manifest, that takes its sources one after the other, the
outputs of a stem hold what the last result without failure that has it compiles to, except where the
manifest stands. -/
theorem read_last_iff
    (hTrust : force = true ∨ ∃ S, History c S t ∧ Set.InjOn Keccak256.hash (S ∪ involved c t))
    (h : (build c force cancelled).outcome t = (.ok rs, t')) (hr : r ∈ rs) (hDone : r.failure = none) :
    ∃ last out out', lastWith? rs (stem r.source) = some last ∧ Compiles c t' r.source out ∧
      Compiles c t' last.source out' ∧
      (t'.read r.output = .ok out.rust ↔ out'.rust = out.rust) ∧
      (r.interface ≠ [] → ∃ text, out.interface = some text ∧
        (t'.read r.interface = .ok text ↔
          out'.interface = some text ∧ place r.interface ≠ place (manifestPath c))) := by
  obtain ⟨⟨out, hCompiles⟩, last, out', hLast, hCompiles', hRust, hText⟩ :=
    outputs_of_build hTrust h hr hDone
  obtain ⟨hp, _, hInterface⟩ := result_eq_of_build h hr
  have hLastMem : last ∈ rs := List.mem_reverse.mp (List.mem_of_find?_eq_some hLast)
  refine ⟨last, out, out', hLast, (compiles_iff_of_build h hr).mpr hCompiles,
    (compiles_iff_of_build h hLastMem).mpr hCompiles', ?_, fun hPath => ?_⟩
  · rw [hRust, Except.ok.injEq]
  · obtain ⟨_, _, hCompile⟩ := hCompiles
    obtain ⟨_, _, hCompile'⟩ := hCompiles'
    have hEmit : c.compiler.emitInterface = true := by
      by_contra hOff
      rw [hInterface, target, if_neg hOff] at hPath
      exact hPath rfl
    obtain ⟨text, hSome⟩ : ∃ text, out.interface = some text :=
      Option.isSome_iff_exists.mp ((emitInterface_of_compile hCompile).trans hEmit)
    obtain ⟨text', hSome'⟩ : ∃ text, out'.interface = some text :=
      Option.isSome_iff_exists.mp ((emitInterface_of_compile hCompile').trans hEmit)
    refine ⟨text, hSome, ?_⟩
    by_cases hPlace : place r.interface = place (manifestPath c)
    · obtain ⟨d, rfl⟩ := description_of_compile hCompile hSome
      refine iff_of_false (fun hRead => ?_) fun hBoth => hBoth.2 hPlace
      exact manifest_ne_description h d (hPlace ▸ view?_of_read hRead)
    · rw [hText text' hSome' hPlace, hSome', Except.ok.injEq, Option.some.injEq]
      exact (and_iff_left hPlace).symm

end Build

theorem Compiles.unique {c : Config} {t : FileTree} {p : Text} {out out' : CompileOutput}
    (h : Compiles c t p out) (h' : Compiles c t p out') : out' = out := by
  obtain ⟨_, hText, hCompile⟩ := h
  obtain ⟨_, hText', hCompile'⟩ := h'
  cases hText.symm.trans hText'
  exact Except.ok.inj (hCompile'.symm.trans hCompile)

section Workers

variable {c : Config} {m : Manifest} {force cancelled : Bool} {t t' : FileTree} {ps : List Text}
  {pool : Pool} {rs : List BuildResult} {r : BuildResult} {p : Text}

theorem exists_finished (h : BuildsTo c force cancelled t (.ok rs) t') :
    ∃ m ps pool, Finished c m force t ps pool rs t' := by
  rcases buildsTo_cases h with ⟨_, hError, _⟩ | ⟨ps, m, pool, hDiscover, hLoad, hInv, hEnd⟩
  · cases hError
  rcases hEnd with ⟨_, hError, _⟩ | ⟨hEnded, hFault, steps, text, hBuilt, hPool, hEncode, hRes, hSaved⟩
  · cases hError
  cases hRes
  rw [encode_updated hDiscover hLoad hBuilt] at hEncode
  cases hEncode
  refine ⟨m, ps, pool, hDiscover, hLoad, hInv, hEnded, hFault, ?_, _, hSaved⟩
  simp [hPool]

namespace Finished

theorem isSource (h : Finished c m force t ps pool rs t') (hp : p ∈ ps) : isSource p = true :=
  isSource_of_discover h.discovered p hp

theorem exists_valid (h : Finished c m force t ps pool rs t') (hr : r ∈ rs) :
    r.source ∈ ps ∧ r.output = (target c r.source).output ∧
      r.interface = (target c r.source).interface ∧
      ∃ record, (Stage.built (r, record)).Valid c m force t (Saw c t ps pool) r.source := by
  rw [h.results] at hr
  obtain ⟨b, hb, rfl⟩ := List.mem_map.mp hr
  obtain ⟨p, hp, hValid⟩ := exists_of_mem_right (h.inv.valid_built h.ended h.unfailed) hb
  obtain ⟨s, hBuilt, rfl⟩ := built_of_valid hValid
  obtain ⟨hSource, hOutput, hInterface⟩ := hBuilt.result_eq
  dsimp only at hSource ⊢
  rw [hSource]
  exact ⟨hp, hOutput, hInterface, s.record, hValid⟩

theorem view?_iff (h : Finished c m force t ps pool rs t') {q : List Text}
    (hq : q ≠ place (manifestPath c)) {d : Text} :
    t'.view? q = some (some d) ↔ pool.tree.view? q = some (some d) := by
  obtain ⟨as, hSaved⟩ := h.saved
  exact view?_iff_of_after_single hSaved hq

/-- The sources are as they were. -/
theorem compiles_iff (h : Finished c m force t ps pool rs t') (hp : p ∈ ps) {out : CompileOutput} :
    Compiles c t' p out ↔ Compiles c t p out := by
  refine exists_congr fun src => and_congr_left fun _ => ?_
  have hNe : place p ≠ place (manifestPath c) := by
    intro hSame
    have hJson : EndsIn ".json" (place p) :=
      ⟨_, "build-manifest", hSame.trans (place_manifestPath c)⟩
    exact absurd ((endsIn_of_isSource (h.isSource hp)).suffix_or_suffix hJson) (by decide)
  exact (h.view?_iff hNe).trans
    (Pool.source_of_rough (fun _ => h.isSource) h.inv.touched hp)

/-- Where the manifest stands there is no description. -/
theorem ne_description (h : Finished c m force t ps pool rs t') (d : Interface.Description) :
    t'.view? (place (manifestPath c)) ≠ some (some d.text) := by
  obtain ⟨as, hSaved⟩ := h.saved
  intro hView
  exact Manifest.fileText_ne_description (loadManifest_valid h.loaded).1 as d
    (view?_of_after_single hSaved hView).symm

/-- A source that compiles has a result without failure. -/
theorem exists_result (h : Finished c m force t ps pool rs t') (hp : p ∈ ps) {out : CompileOutput}
    (hCompiles : Compiles c t p out) : ∃ r ∈ rs, r.source = p ∧ r.failure = none := by
  obtain ⟨b, hb, hValid⟩ :=
    exists_of_mem_left (h.inv.valid_built h.ended h.unfailed) hp
  refine ⟨b.1, h.results ▸ List.mem_map_of_mem hb, ?_⟩
  cases hValid with
  | saved hSaves =>
    obtain ⟨_, _, _, _, _, rfl, _⟩ := hSaves
    exact ⟨rfl, rfl⟩
  | refused hSource hCompile =>
    obtain ⟨src, hText, hOut⟩ := hCompiles
    cases hSource.symm.trans hText
    cases hCompile.symm.trans hOut
  | skipped => exact ⟨rfl, rfl⟩

/-- A result without failure has a source that compiles. What it compiles to was written to its
outputs or found there, and stands there in the end if nothing else is written there. -/
theorem exists_compiles (h : Finished c m force t ps pool rs t')
    (hTrust : force = true ∨ ∃ S, History c S t ∧
      Set.InjOn Keccak256.hash (insert [] (S ∪ involved c t)))
    (hr : r ∈ rs) (hDone : r.failure = none) : ∃ out, Compiles c t r.source out ∧
      ∀ w ∈ writes (target c r.source) out, Agreed c t ps w.1 →
        pool.tree.view? w.1 = some (some w.2) := by
  obtain ⟨hp, hOutput, hInterface, record, hValid⟩ := h.exists_valid hr
  generalize hb : (r, record) = b at hValid
  cases hValid with
  | saved hSaves =>
    obtain ⟨src, out, written, hSource, hCompile, _, hFiles, hSaw⟩ := hSaves
    refine ⟨out, ⟨src, hSource, hCompile⟩, fun w hw hAgreed => ?_⟩
    rw [writes_eq] at hw
    obtain ⟨f, hf, rfl⟩ := List.mem_map.mp hw
    have hPermitted := permitted_of_mem_filesOf hp hSource hCompile hf
    rw [hFiles, List.append_nil] at hf
    exact h.inv.stands h.ended h.unfailed hAgreed (hSaw f hf) hPermitted
  | refused =>
    have hFailure := congrArg (·.1.failure) hb
    cases hDone.symm.trans hFailure
  | @skipped src output a interface hRecorded hCurrent hSeen hSeenInterface =>
    obtain ⟨S, hHistory, hHash⟩ := hTrust.resolve_left (by simp [hRecorded.unforced])
    have hMember {q : List Text} {d : Text} (hq : q = place (target c r.source).output ∨
        q = place (target c r.source).interface) (hSaw : Saw c t ps pool q d)
        (hAgreed : Agreed c t ps q) : d ∈ insert [] (S ∪ involved c t) := by
      rcases (hSaw h.unfailed hAgreed).1 with rfl | hView | hPermitted
      · exact .inl rfl
      · refine .inr (.inr ⟨ps, h.discovered, r.source, hp, ?_⟩)
        rcases hq with rfl | rfl
        · exact .inr (.inl hView)
        · exact .inr (.inr (.inl hView))
      · exact .inr (.inr (hPermitted.involved h.discovered))
    have hGenuine := (hHistory.trusted.load h.loaded a
      (Manifest.mem_of_lookup hRecorded.found).1).mono (Set.subset_union_left.trans
        (Set.subset_insert [] (S ∪ involved c t)))
    have hKnown : src ∈ insert [] (S ∪ involved c t) :=
      .inr (.inr ⟨ps, h.discovered, r.source, hp, .inl hRecorded.source⟩)
    obtain ⟨out, hCompile, _, hRust, hText⟩ :=
      compile_of_isUpToDate (p := r.source) hHash hGenuine hKnown hCurrent
    refine ⟨out, ⟨src, hRecorded.source, hCompile⟩, fun w hw hAgreed => ?_⟩
    have hPermitted : Permitted c t ps w :=
      ⟨r.source, hp, out, ⟨src, hRecorded.source, hCompile⟩, hw⟩
    refine h.inv.stands h.ended h.unfailed hAgreed ?_ hPermitted
    rcases List.mem_cons.mp hw with rfl | hw
    · rw [hRust (hMember (.inl rfl) hSeen hAgreed)]
      exact hSeen
    · obtain ⟨text, hSome, rfl⟩ := List.mem_map.mp hw
      rw [hText fun text' hText' => hMember (.inr rfl) (hSeenInterface text' hText') hAgreed] at hSome
      exact hSeenInterface text (Option.mem_toList.mp hSome)

/-- Sources that compile alike agree on what is at their outputs. -/
theorem agreed (h : Finished c m force t ps pool rs t') (hr : r ∈ rs)
    (hAlike : ∀ r', Shares rs r r' → Alike c t r.source r'.source) {out : CompileOutput}
    (hCompiles : Compiles c t r.source out) {w : List Text × Text}
    (hw : w ∈ writes (target c r.source) out) : Agreed c t ps w.1 := by
  obtain ⟨hp, -⟩ := h.exists_valid hr
  have hSource := h.isSource hp
  obtain ⟨src, hText, hCompile⟩ := hCompiles
  have hSame : ∀ d, Permitted c t ps (w.1, d) → d = w.2 := by
    rintro d ⟨p', hp', out', ⟨src', hText', hCompile'⟩, hw'⟩
    have hStem : stem p' = stem r.source := stem_eq_of_mem_writes hSource (h.isSource hp') hCompile'
      hw' (place_of_mem_writes (w := w) hCompile hw)
    obtain ⟨r', hr', rfl, hDone'⟩ := h.exists_result hp' ⟨src', hText', hCompile'⟩
    obtain ⟨hRust, hInterface⟩ := hAlike r' ⟨hr', hDone', hStem⟩ out out' ⟨src, hText, hCompile⟩
      ⟨src', hText', hCompile'⟩
    rw [target_of_stem c hStem, writes, hRust, hInterface] at hw'
    exact eq_of_mem_writes hSource hCompile hw hw'
  intro d d' hd hd'
  rw [hSame d hd, hSame d' hd']

theorem alike_iff (h : Finished c m force t ps pool rs t') (hr : r ∈ rs) {r' : BuildResult}
    (hr' : r' ∈ rs) : Alike c t' r.source r'.source ↔ Alike c t r.source r'.source := by
  simp only [Alike, h.compiles_iff (h.exists_valid hr).1, h.compiles_iff (h.exists_valid hr').1]

theorem emits_of_interface (h : Finished c m force t ps pool rs t') (hr : r ∈ rs)
    (hPath : r.interface ≠ []) : c.compiler.emitInterface = true := by
  by_contra hOff
  rw [(h.exists_valid hr).2.2.1, target, if_neg hOff] at hPath
  exact hPath rfl

/-- If sources compile alike, what they compile to is on disk. -/
theorem onDisk (h : Finished c m force t ps pool rs t')
    (hTrust : force = true ∨ ∃ S, History c S t ∧
      Set.InjOn Keccak256.hash (insert [] (S ∪ involved c t)))
    (hr : r ∈ rs) (hDone : r.failure = none)
    (hAlike : ∀ r', Shares rs r r' → Alike c t' r.source r'.source)
    (hPlace : r.interface ≠ [] → place r.interface ≠ place (manifestPath c)) : OnDisk c t' r := by
  obtain ⟨hp, hOutput, hInterface, -⟩ := h.exists_valid hr
  have hSource := h.isSource hp
  obtain ⟨out, hCompiles, hWritten⟩ := h.exists_compiles hTrust hr hDone
  have hStands : ∀ w ∈ writes (target c r.source) out, w.1 ≠ place (manifestPath c) →
      t'.view? w.1 = some (some w.2) := fun w hw hNe =>
    (h.view?_iff hNe).mpr (hWritten w hw (h.agreed hr (fun r' hr' =>
      (h.alike_iff hr hr'.mem).mp (hAlike r' hr')) hCompiles hw))
  refine ⟨out, (h.compiles_iff hp).mpr hCompiles, ?_, fun hPath => ?_⟩
  · rw [hOutput]
    exact read_of_view? (isTame_output hSource) (place_output_ne_nil hSource)
      (hStands _ List.mem_cons_self (place_output_ne_manifestPath c hSource))
  · have hEmit := h.emits_of_interface hr hPath
    obtain ⟨src, _, hCompile⟩ := hCompiles
    obtain ⟨text, hText⟩ : ∃ text, out.interface = some text :=
      Option.isSome_iff_exists.mp ((emitInterface_of_compile hCompile).trans hEmit)
    refine ⟨text, hText, ?_⟩
    have hMember : (place r.interface, text) ∈ writes (target c r.source) out := by
      rw [writes, hText, hInterface]
      exact List.mem_cons_of_mem _ (List.mem_singleton_self _)
    have hView := hStands _ hMember (hPlace hPath)
    rw [hInterface] at hView ⊢
    exact read_of_view? (isTame_interface hSource hEmit) (place_interface_ne_nil hSource hEmit) hView

/-- If what two sources with one stem compile to is on disk, they compile alike. -/
theorem alike_of_onDisk (h : Finished c m force t ps pool rs t') (hr : r ∈ rs) {r' : BuildResult}
    (hShares : Shares rs r r') (hOn : OnDisk c t' r) (hOn' : OnDisk c t' r') :
    Alike c t' r.source r'.source := by
  obtain ⟨hp, hOutput, hInterface, -⟩ := h.exists_valid hr
  obtain ⟨-, hOutput', hInterface', -⟩ := h.exists_valid hShares.mem
  rw [target_of_stem c hShares.stem_eq] at hOutput' hInterface'
  obtain ⟨out, hCompiles, hRust, hText⟩ := hOn
  obtain ⟨out', hCompiles', hRust', hText'⟩ := hOn'
  intro a a' ha ha'
  rw [hCompiles.unique ha, hCompiles'.unique ha']
  refine ⟨Except.ok.inj (hRust'.symm.trans (hOutput'.trans hOutput.symm ▸ hRust)), ?_⟩
  have hSame : r'.interface = r.interface := hInterface'.trans hInterface.symm
  by_cases hPath : r.interface = []
  · have hOff : c.compiler.emitInterface ≠ true := fun hEmit =>
      interface_ne_nil (h.isSource hp) hEmit (hInterface.symm.trans hPath)
    have hNone {out : CompileOutput} {p : Text} (hCompiles : Compiles c t' p out) :
        out.interface = none := by
      obtain ⟨_, _, hCompile⟩ := hCompiles
      exact Option.not_isSome_iff_eq_none.mp fun hSome =>
        hOff ((emitInterface_of_compile hCompile).symm.trans hSome)
    rw [hNone hCompiles, hNone hCompiles']
  · obtain ⟨text, hSome, hRead⟩ := hText hPath
    obtain ⟨text', hSome', hRead'⟩ := hText' (hSame ▸ hPath)
    rw [hSame] at hRead'
    rw [hSome, hSome', Except.ok.inj (hRead'.symm.trans hRead)]

/-- What is on disk is not where the manifest stands. -/
theorem ne_manifestPath (h : Finished c m force t ps pool rs t') (hOn : OnDisk c t' r)
    (hPath : r.interface ≠ []) : place r.interface ≠ place (manifestPath c) := by
  obtain ⟨out, ⟨_, _, hCompile⟩, _, hText⟩ := hOn
  obtain ⟨text, hSome, hRead⟩ := hText hPath
  obtain ⟨d, rfl⟩ := description_of_compile hCompile hSome
  exact fun hPlace => h.ne_description d (hPlace ▸ view?_of_read hRead)

end Finished

/-- When the outputs of results are on disk, whatever several workers do first. After a build, forced
or with a trusted manifest, a result that did not fail has a source that compiles. All results whose
outputs have its names are on disk exactly if their sources compile to the same texts and the manifest
does not stand at their description. With one worker, its output holds the Rust text of its source
exactly if the last of them compiles to the same text; and the path of a description, if there is one,
holds the description of its source exactly if the last of them has the same description and the
manifest does not stand there. -/
theorem read_outputs_iff
    (hTrust : force = true ∨ ∃ S, History c S t ∧
      Set.InjOn Keccak256.hash (insert [] (S ∪ involved c t)))
    (h : BuildsTo c force cancelled t (.ok rs) t') (hr : r ∈ rs) (hDone : r.failure = none) :
    ∃ out, Compiles c t' r.source out ∧
    ((∀ r', Shares rs r r' → OnDisk c t' r') ↔
      (∀ r', Shares rs r r' → Alike c t' r.source r'.source) ∧
        (r.interface ≠ [] → place r.interface ≠ place (manifestPath c))) ∧
    (c.workspace.parallelism = 1 → ∃ last out', lastWith? rs (stem r.source) = some last ∧
      Compiles c t' last.source out' ∧ (t'.read r.output = .ok out.rust ↔ out'.rust = out.rust) ∧
      (r.interface ≠ [] → ∃ text, out.interface = some text ∧
        (t'.read r.interface = .ok text ↔
          out'.interface = some text ∧ place r.interface ≠ place (manifestPath c)))) := by
  obtain ⟨m, ps, pool, hFinished⟩ := exists_finished h
  obtain ⟨hp, hOutput, hInterface, -⟩ := hFinished.exists_valid hr
  obtain ⟨out, hCompiles, -⟩ := hFinished.exists_compiles hTrust hr hDone
  have hCompiles' := (hFinished.compiles_iff hp).mpr hCompiles
  refine ⟨out, hCompiles', ⟨fun hAll => ?_, fun ⟨hAlike, hPlace⟩ r' hShares => ?_⟩, fun hLimit => ?_⟩
  · have hOn := hAll r ⟨hr, hDone, rfl⟩
    exact ⟨fun r' hShares => hFinished.alike_of_onDisk hr hShares hOn (hAll r' hShares),
      hFinished.ne_manifestPath hOn⟩
  · obtain ⟨-, -, hInterface', -⟩ := hFinished.exists_valid hShares.mem
    rw [target_of_stem c hShares.stem_eq] at hInterface'
    have hSame : r'.interface = r.interface := hInterface'.trans hInterface.symm
    refine hFinished.onDisk hTrust hShares.mem hShares.unfailed (fun r'' hShares' => ?_)
      (hSame ▸ hPlace)
    have hStem := hShares'.stem_eq.trans hShares.stem_eq
    intro a a' ha ha'
    obtain ⟨hRust, hText⟩ := hAlike r' hShares out a hCompiles' ha
    obtain ⟨hRust', hText'⟩ := hAlike r'' ⟨hShares'.mem, hShares'.unfailed, hStem⟩ out a' hCompiles'
      ha'
    exact ⟨hRust'.trans hRust.symm, hText'.trans hText.symm⟩
  · have hSequential : force = true ∨
        ∃ S, History c S t ∧ Set.InjOn Keccak256.hash (S ∪ involved c t) :=
      hTrust.imp_right fun ⟨S, hHistory, hHash⟩ => ⟨S, hHistory, hHash.mono (Set.subset_insert _ _)⟩
    obtain ⟨last, own, out', hLast, hOwn, hOut, hRust, hText⟩ :=
      read_last_iff hSequential ((buildsTo_iff_of_one hLimit).mp h) hr hDone
    cases hCompiles'.unique hOwn
    exact ⟨last, out', hLast, hOut, hRust, hText⟩

/-- The two programs write one file, so whichever comes last, one of them is not on disk. -/
theorem read_outputs_iff_twins :
    (∃ rs t', BuildsTo idleConfig true false twinTree (.ok rs) t') ∧
    ∀ rs t', BuildsTo idleConfig true false twinTree (.ok rs) t' →
      ∃ r ∈ rs, r.failure = none ∧ ¬OnDisk idleConfig t' r := by
  constructor
  · obtain ⟨rs, t', hBuild, _⟩ := build_twinTree
    exact ⟨rs, t', buildsTo_build (by decide) hBuild⟩
  intro rs t' h
  obtain ⟨m, ps, pool, hFinished⟩ := exists_finished h
  cases discover_twinTree.symm.trans hFinished.discovered
  obtain ⟨out, hOut, hRust⟩ := exists_ok_of_any
    (x := compile idleConfig.options "src/a/p.ts" idleSource) (fun out => out.rust == idleRust) (by
      simp (disch := rfl) only [idleSource, idleRust, Text.ofString_literal]
      decide +kernel)
  obtain ⟨out', hOut', hRust'⟩ := exists_ok_of_any
    (x := compile idleConfig.options "src/b/p.ts" renamedSource) (fun out => out.rust != idleRust) (by
      simp (disch := rfl) only [renamedSource, idleRust, Text.ofString_literal]
      decide +kernel)
  have hFirst : Compiles idleConfig twinTree "src/a/p.ts" out := ⟨idleSource, rfl, hOut⟩
  have hSecond : Compiles idleConfig twinTree "src/b/p.ts" out' := ⟨renamedSource, rfl, hOut'⟩
  have hMem := List.mem_cons_of_mem (Text.ofString "src/a/p.ts")
    (List.mem_singleton_self (Text.ofString "src/b/p.ts"))
  obtain ⟨r, hr, hSource, hDone⟩ := hFinished.exists_result List.mem_cons_self hFirst
  obtain ⟨r', hr', hSource', hDone'⟩ := hFinished.exists_result hMem hSecond
  by_contra hNone
  obtain ⟨_, _, hSame, _⟩ := read_outputs_iff (.inl rfl) h hr hDone
  have hAll : ∀ r'', Shares rs r r'' → OnDisk idleConfig t' r'' := fun r'' hShares =>
    not_not.mp fun hOff => hNone ⟨r'', hShares.mem, hShares.unfailed, hOff⟩
  have hAlike := (hSame.mp hAll).1 r' ⟨hr', hDone', by rw [hSource, hSource']; decide⟩
  rw [hFinished.alike_iff hr hr', hSource, hSource'] at hAlike
  rw [(hAlike out out' hFirst hSecond).1, beq_iff_eq.mp hRust] at hRust'
  exact bne_iff_ne.mp hRust' rfl

end Workers

end AnchorScript.Workspace
