import AnchorScript.Proofs.Workspace.History

/-!
# Incremental builds do what forced builds do

A source is skipped when its record matches the files on disk. As far as digests tell texts apart,
compiling it would then write the files that are there, so a build that skips goes through the same
trees as one that compiles everything, and differs from it in the manifest only.
-/

namespace AnchorScript.Workspace

open Artifact FileTree AnchorScript.Path Outcome

/-- The result without the mark of a skipped source. -/
def BuildResult.unmarked (r : BuildResult) : BuildResult := { r with isSkipped := false }

theorem isCurrent_iff {c : Config} {t : FileTree} {r : BuildResult} {src : Text} {a : Artifact} :
    isCurrent c t r src a = true ↔ a.interface = r.interface ∧
      ∃ output, t.read r.output = .ok output ∧
        ((r.interface = [] ∧ a.isUpToDate c.options src output none = true) ∨
          r.interface ≠ [] ∧ ∃ text, t.read r.interface = .ok text ∧
            a.isUpToDate c.options src output (some text) = true) := by
  rw [isCurrent, Bool.and_eq_true, decide_eq_true_eq]
  refine and_congr_right fun _ => ?_
  cases t.read r.output with
  | error e => simp
  | ok output =>
    by_cases hPath : r.interface = []
    · simp [hPath]
    · cases t.read r.interface with
      | error e => simp [hPath]
      | ok text => simp [hPath]

theorem writeBelow_again {t : FileTree} {p d : Text} (hTame : IsTame p) (hPlace : place p ≠ [])
    (h : t.read p = .ok d) : (writeBelow p d).outcome t = (.ok (), t) := by
  obtain ⟨hDirectories, hWrite⟩ := write_again hTame hPlace h
  rw [writeBelow, Work.outcome_bind, Work.outcome_change, hDirectories]
  dsimp only
  rw [Work.outcome_change, hWrite]

/-- Compiling a source whose outputs are there already changes nothing. -/
theorem compileSource_again {c : Config} {p src : Text} {out : CompileOutput} {t : FileTree}
    (hp : isSource p = true) (hCompile : compile c.options p src = .ok out)
    (hRust : t.read (target c p).output = .ok out.rust)
    (hInterface : ∀ text ∈ out.interface, t.read (target c p).interface = .ok text) :
    (compileSource c (target c p) src).outcome t =
      (.ok ({ target c p with program := out.program.name },
        some (.ofOutput p (target c p).output (target c p).interface src c.options out)), t) := by
  have hSource : (target c p).source = p := rfl
  rw [compileSource, hSource, hCompile]
  dsimp only
  rw [Work.outcome_bind, writeBelow_again (isTame_output hp) (place_output_ne_nil hp) hRust]
  cases hText : out.interface with
  | none => rfl
  | some text =>
    have hEmit := emits_of_compile hCompile hText
    dsimp only
    rw [Work.outcome_bind, writeBelow_again (isTame_interface hp hEmit)
      (place_interface_ne_nil hp hEmit) (hInterface text hText)]
    rfl

/-- What a source compiles to if a genuine record matches it: the texts that the record was compared
with, as far as digests tell them apart. -/
theorem compile_of_isUpToDate {S : Set Text} {o : CompileOptions} {p src output : Text}
    {interface : Option Text} {a : Artifact} (hHash : Set.InjOn Keccak256.hash S)
    (ha : a.Genuine S) (hSource : src ∈ S) (h : a.isUpToDate o src output interface = true) :
    ∃ out, compile o p src = .ok out ∧ out.program.name = a.program ∧
      (output ∈ S → out.rust = output) ∧
      ((∀ text ∈ interface, text ∈ S) → out.interface = interface) := by
  obtain ⟨o₀, name, src₀, out₀, hCompile₀, hRecords, hSource₀, hRust₀, hInterface₀⟩ := ha
  obtain ⟨hOptions, hSame, hOutput, hInterface⟩ := hRecords.isUpToDate_iff.mp h
  obtain rfl := hHash hSource₀ hSource hSame
  rw [compile_eq_of_fingerprint hOptions] at hCompile₀
  obtain ⟨out, hCompile, hProgram, hRust, hText⟩ := compile_rename hCompile₀ p
  refine ⟨out, hCompile, hProgram.trans hRecords.program.symm, fun hIn => ?_, fun hIn => ?_⟩
  · rw [hRust]
    exact hHash hRust₀ hIn hOutput
  · rw [hText]
    cases hLeft : out₀.interface with
    | none =>
      rw [hLeft] at hInterface
      exact (Option.map_eq_none_iff.mp hInterface.symm).symm
    | some text₀ =>
      rw [hLeft] at hInterface
      obtain ⟨text, rfl, hDigest⟩ := Option.map_eq_some_iff.mp hInterface.symm
      rw [hHash (hInterface₀ text₀ hLeft) (hIn text rfl) hDigest.symm]

/-- What a source compiles to when its genuine record is current: the texts that are there. -/
theorem compile_of_isCurrent {S : Set Text} {c : Config} {t : FileTree} {p src : Text}
    {a : Artifact} (hHash : Set.InjOn Keccak256.hash S) (ha : a.Genuine S) (hSource : src ∈ S)
    (hFiles : ∀ q d, q = place (target c p).output ∨ q = place (target c p).interface →
      t.view? q = some (some d) → d ∈ S)
    (h : isCurrent c t (target c p) src a = true) :
    ∃ out, compile c.options p src = .ok out ∧ out.program.name = a.program ∧
      t.read (target c p).output = .ok out.rust ∧
      ∀ text ∈ out.interface, t.read (target c p).interface = .ok text := by
  obtain ⟨_, output, hOutput, hRest⟩ := isCurrent_iff.mp h
  obtain ⟨interface, hUpToDate, hInterface⟩ : ∃ interface,
      a.isUpToDate c.options src output interface = true ∧
        ∀ text ∈ interface, t.read (target c p).interface = .ok text := by
    rcases hRest with ⟨_, hUpToDate⟩ | ⟨_, text, hText, hUpToDate⟩
    · exact ⟨none, hUpToDate, nofun⟩
    · refine ⟨some text, hUpToDate, ?_⟩
      rintro _ ⟨⟩
      exact hText
  obtain ⟨out, hCompile, hProgram, hRust, hSame⟩ :=
    compile_of_isUpToDate (p := p) hHash ha hSource hUpToDate
  refine ⟨out, hCompile, hProgram, ?_, ?_⟩
  · rw [hRust (hFiles _ _ (.inl rfl) (view?_of_read hOutput))]
    exact hOutput
  · rw [hSame fun text hText => hFiles _ _ (.inr rfl) (view?_of_read (hInterface text hText))]
    exact hInterface

/-- The two runs leave one tree, and fail alike or give the same results up to the marks. -/
def SameRun {α : Type} (results : α → List BuildResult)
    (o o' : Except WorkspaceError α × FileTree) : Prop :=
  o.2 = o'.2 ∧
    Agree Eq (fun a a' => (results a).map BuildResult.unmarked =
      (results a').map BuildResult.unmarked) o.1 o'.1

section Runs

variable {S : Set Text} {c : Config} {m : Manifest} {t t₁ : FileTree} {ps : List Text}
  {ws : List (List Text × Text)}

theorem SameRun.refl {α : Type} (results : α → List BuildResult)
    (o : Except WorkspaceError α × FileTree) : SameRun results o o := by
  obtain ⟨e | a, t⟩ := o
  · exact ⟨rfl, .error rfl⟩
  · exact ⟨rfl, .ok rfl⟩

/-- The files at a source's outputs hold texts that are involved in the build, at any time. -/
theorem mem_involved_of_target (hDiscover : discover c t = .ok ps) (hAfter : After t ws t₁)
    (hws : ∀ w ∈ ws, Permitted c t ps w) {p : Text} (hp : p ∈ ps) {q : List Text} {d : Text}
    (hq : q = place (target c p).output ∨ q = place (target c p).interface)
    (h : t₁.view? q = some (some d)) : d ∈ involved c t := by
  rcases hAfter.written_or_kept h with hNew | hOld
  · exact (hws _ hNew).involved hDiscover
  · rcases hq with rfl | rfl
    · exact ⟨ps, hDiscover, p, hp, .inr (.inl hOld)⟩
    · exact ⟨ps, hDiscover, p, hp, .inr (.inr (.inl hOld))⟩

/-- Skipping a source and compiling it come to the same. -/
theorem sameRun_buildSource (hHash : Set.InjOn Keccak256.hash (S ∪ involved c t))
    (hGenuine : ∀ a ∈ m.artifacts, a.Genuine S) (hDiscover : discover c t = .ok ps)
    (hAfter : After t ws t₁) (hws : ∀ w ∈ ws, Permitted c t ps w) {p : Text} (hp : p ∈ ps) :
    SameRun (fun b => [b.1]) ((buildSource c m false p).outcome t₁)
      ((buildSource c m true p).outcome t₁) := by
  have hps := isSource_of_discover hDiscover
  rcases hSkipping : (buildSource c m false p).outcome t₁ with ⟨res, t₂⟩
  rcases hForced : (buildSource c m true p).outcome t₁ with ⟨res', t₂'⟩
  rcases buildSource_outcome hForced with ⟨e, hRead, rfl, rfl⟩ | ⟨src, hRead, hRest⟩
  · rcases buildSource_outcome hSkipping with ⟨e', hRead', rfl, rfl⟩ | ⟨src, hRead', _⟩
    · rw [hRead] at hRead'
      cases hRead'
      exact ⟨rfl, .error rfl⟩
    · rw [hRead] at hRead'
      cases hRead'
  · rcases hRest with ⟨a, ⟨hForce, _⟩, _⟩ | ⟨_, hCompiled⟩
    · cases hForce
    rcases buildSource_outcome hSkipping with ⟨e', hRead', rfl, rfl⟩ | ⟨src', hRead', hRest'⟩
    · rw [hRead] at hRead'
      cases hRead'
    rw [hRead] at hRead'
    cases hRead'
    rcases hRest' with ⟨a, ⟨_, hFound, hCurrent⟩, rfl, rfl⟩ | ⟨_, hCompiled'⟩
    · have hSource : src ∈ involved c t :=
        ⟨ps, hDiscover, p, hp, .inl (source_of_read hps hAfter hws hp hRead)⟩
      obtain ⟨out, hCompile, hProgram, hRust, hInterface⟩ := compile_of_isCurrent hHash
        ((hGenuine a (Manifest.mem_of_lookup hFound).1).mono Set.subset_union_left) (.inr hSource)
        (fun q d hq h => .inr (mem_involved_of_target hDiscover hAfter hws hp hq h)) hCurrent
      rw [compileSource_again (hps p hp) hCompile hRust hInterface] at hCompiled
      cases hCompiled
      refine ⟨rfl, .ok ?_⟩
      rw [← hProgram]
      rfl
    · rw [hCompiled] at hCompiled'
      cases hCompiled'
      exact .refl _ _

/-- A build that skips goes through the trees of a build that compiles everything. -/
theorem sameRun_buildAll (hHash : Set.InjOn Keccak256.hash (S ∪ involved c t))
    (hGenuine : ∀ a ∈ m.artifacts, a.Genuine S) (hDiscover : discover c t = .ok ps)
    (hAfter : After t ws t₁) (hws : ∀ w ∈ ws, Permitted c t ps w) {qs : List Text}
    (hqs : ∀ p ∈ qs, p ∈ ps) (cancelled : Bool) :
    SameRun (List.map (·.1)) ((buildAll c m false cancelled qs).outcome t₁)
      ((buildAll c m true cancelled qs).outcome t₁) := by
  have hps := isSource_of_discover hDiscover
  induction qs generalizing t₁ ws with
  | nil => exact ⟨rfl, .ok rfl⟩
  | cons p qs ih =>
    obtain ⟨hp, hqs⟩ := List.forall_mem_cons.mp hqs
    rw [buildAll_cons, buildAll_cons]
    cases cancelled with
    | true => exact ⟨rfl, .error rfl⟩
    | false =>
      rw [if_neg Bool.false_ne_true, if_neg Bool.false_ne_true]
      have hHead := sameRun_buildSource hHash hGenuine hDiscover hAfter hws hp
      rcases hSkipping : (buildSource c m false p).outcome t₁ with ⟨res, t₂⟩
      obtain ⟨ws', hAfter', hws', _⟩ := built_of_buildSource hps hAfter hws hp hSkipping
      rw [hSkipping] at hHead
      generalize (buildSource c m true p).outcome t₁ = forced at hHead ⊢
      obtain ⟨res', t₂'⟩ := forced
      obtain ⟨hTree, hAgree⟩ := hHead
      dsimp only at hTree hAgree
      subst hTree
      cases hAgree with
      | error hSame => exact ⟨rfl, .error hSame⟩
      | ok hSame =>
        rename_i b b'
        have hTail := ih (hAfter.trans hAfter') (List.forall_mem_append.mpr ⟨hws, hws'⟩) hqs
        dsimp only
        generalize (buildAll c m false false qs).outcome t₂ = rest at hTail ⊢
        generalize (buildAll c m true false qs).outcome t₂ = rest' at hTail ⊢
        obtain ⟨r, t₃⟩ := rest
        obtain ⟨r', t₃'⟩ := rest'
        obtain ⟨hTree, hAgree⟩ := hTail
        cases hTree
        cases hAgree with
        | error hError => exact ⟨rfl, .error hError⟩
        | ok hResults =>
          refine ⟨rfl, .ok ?_⟩
          simp only [List.map_cons, List.cons.injEq, List.map_nil, and_true] at hSame ⊢
          exact ⟨hSame, hResults⟩

end Runs

theorem writeBelow_sameBut (p d d' : Text) (t : FileTree) :
    ((writeBelow p d).outcome t).1 = ((writeBelow p d').outcome t).1 ∧
      SameBut (place p) ((writeBelow p d).outcome t).2 ((writeBelow p d').outcome t).2 := by
  rw [writeBelow, writeBelow, Work.outcome_bind, Work.outcome_bind, Work.outcome_change]
  cases t.makeDirectories (parent p) with
  | error e => exact ⟨rfl, .refl _ _⟩
  | ok t₁ =>
    dsimp only
    rw [Work.outcome_change, Work.outcome_change]
    rcases write_congr t₁ p d d' with ⟨e, hError, hError'⟩ | ⟨t₂, t₂', hWrite, hWrite'⟩
    · rw [hError, hError']
      exact ⟨rfl, .refl _ _⟩
    · rw [hWrite, hWrite']
      exact ⟨rfl, sameBut_write hWrite hWrite'⟩

/-- Whether sources are skipped shows in the marks of the results and in the manifest only. -/
theorem build_sameBut {S : Set Text} {c : Config} {t : FileTree} (h : History c S t)
    (hHash : Set.InjOn Keccak256.hash (S ∪ involved c t)) (cancelled : Bool) :
    Agree Eq (fun rs rs' => rs.map BuildResult.unmarked = rs'.map BuildResult.unmarked)
      ((build c false cancelled).outcome t).1 ((build c true cancelled).outcome t).1 ∧
    SameBut (place (manifestPath c)) ((build c false cancelled).outcome t).2
      ((build c true cancelled).outcome t).2 := by
  rw [build_outcome, build_outcome]
  cases hDiscover : discover c t with
  | error e => exact ⟨.error rfl, .refl _ _⟩
  | ok ps =>
  dsimp only
  cases hLoad : loadManifest c t with
  | error e => exact ⟨.error rfl, .refl _ _⟩
  | ok m =>
  dsimp only
  have hRun := sameRun_buildAll hHash (h.trusted.load hLoad) hDiscover (.refl t)
    (List.forall_mem_nil _) (fun _ hp => hp) cancelled
  rcases hSkipping : (buildAll c m false cancelled ps).outcome t with ⟨res, t₁⟩
  rcases hForced : (buildAll c m true cancelled ps).outcome t with ⟨res', t₁'⟩
  rw [hSkipping, hForced] at hRun
  obtain ⟨hTree, hAgree⟩ := hRun
  cases hTree
  cases hAgree with
  | error hSame => exact ⟨.error hSame, .refl _ _⟩
  | ok hSame =>
    obtain ⟨_, _, _, hSteps⟩ := buildAll_steps hDiscover hSkipping
    obtain ⟨_, _, _, hSteps'⟩ := buildAll_steps hDiscover hForced
    obtain ⟨steps, rfl, _, hBuilt⟩ := hSteps _ rfl
    obtain ⟨steps', rfl, _, hBuilt'⟩ := hSteps' _ rfl
    dsimp only
    -- all records are valid, so both manifests are written
    rw [saveManifest_outcome, saveManifest_outcome, encode_updated hDiscover hLoad hBuilt,
      encode_updated hDiscover hLoad hBuilt']
    dsimp only
    generalize Manifest.fileText m.version _ = d
    generalize Manifest.fileText m.version _ = d'
    obtain ⟨hResult, hTrees⟩ := writeBelow_sameBut (manifestPath c) d d' t₁
    generalize (writeBelow (manifestPath c) d).outcome t₁ = o at hResult hTrees ⊢
    generalize (writeBelow (manifestPath c) d').outcome t₁ = o' at hResult hTrees ⊢
    obtain ⟨r, t₂⟩ := o
    obtain ⟨r', t₂'⟩ := o'
    cases hResult
    cases r with
    | error e => exact ⟨.error rfl, hTrees⟩
    | ok _ => exact ⟨.ok hSame, hTrees⟩

theorem Built.result_eq {c : Config} {m : Manifest} {force : Bool} {t : FileTree} {p : Text}
    {s : Step} (h : Built c m force t p s) : s.result.source = p ∧
      s.result.output = (target c p).output ∧ s.result.interface = (target c p).interface := by
  cases h with
  | refused => exact ⟨rfl, rfl, rfl⟩
  | compiled => exact ⟨rfl, rfl, rfl⟩
  | skipped => exact ⟨rfl, rfl, rfl⟩

theorem place_output_ne_manifestPath (c : Config) {p : Text} (hp : isSource p = true) :
    place (target c p).output ≠ place (manifestPath c) := by
  intro hSame
  have hRust : EndsIn ".rs" (place (target c p).output) := ⟨_, _, place_output hp⟩
  have hJson : EndsIn ".json" (place (target c p).output) :=
    ⟨_, "build-manifest", hSame.trans (place_manifestPath c)⟩
  exact absurd (hRust.suffix_or_suffix hJson) (by decide)

theorem place_interface_ne_manifestPath {c : Config}
    (hDirs : place (path c c.workspace.outputDir) ≠ place (path c c.workspace.interfaceDir))
    {p : Text} (hp : isSource p = true) :
    place (target c p).interface ≠ place (manifestPath c) := by
  by_cases hEmit : c.compiler.emitInterface = true
  · rw [place_interface hp hEmit, place_manifestPath]
    intro hSame
    exact hDirs (List.append_inj_left' hSame rfl).symm
  · rw [target, if_neg hEmit]
    exact (place_manifestPath_ne_nil c).symm

/-- A build that gets through its sources ends well and leaves the manifest, if one can be written at
all. -/
theorem build_of_buildAll {c : Config} {m : Manifest} {force cancelled : Bool} {t t₁ : FileTree}
    {ps : List Text} {bs : List (BuildResult × Option Artifact)}
    (hDiscover : discover c t = .ok ps) (hLoad : loadManifest c t = .ok m)
    (hAll : (buildAll c m force cancelled ps).outcome t = (.ok bs, t₁))
    (hWritable : ((writeBelow (manifestPath c) []).outcome t₁).1.toOption.isSome = true) :
    ∃ t', (build c force cancelled).outcome t = (.ok (bs.map (·.1)), t') ∧
      t'.read (manifestPath c) = .ok (Manifest.fileText m.version (updated m bs).artifacts) := by
  obtain ⟨_, _, _, hSteps⟩ := buildAll_steps hDiscover hAll
  obtain ⟨steps, rfl, _, hBuilt⟩ := hSteps bs rfl
  simp only [build_outcome, hDiscover, hLoad, hAll, saveManifest_outcome,
    encode_updated hDiscover hLoad hBuilt]
  generalize Manifest.fileText m.version _ = d
  have hSame := (writeBelow_sameBut (manifestPath c) d [] t₁).1
  rcases hWrite : (writeBelow (manifestPath c) d).outcome t₁ with ⟨r, t'⟩
  rw [← hSame, hWrite] at hWritable
  rcases writeBelow_outcome hWrite with ⟨rfl, hAfter⟩ | ⟨e, rfl, _⟩
  · refine ⟨t', rfl, read_of_view? (isTame_manifestPath c) (place_manifestPath_ne_nil c) ?_⟩
    exact hAfter.view?_of_lastWrite? (lastWrite?_concat_self _ [] d)
  · cases hWritable

def idleConfig : Config :=
  { workspace := { programsDir := "src", outputDir := "out", interfaceDir := "idl" } }

/-- One source and what is left of earlier builds. -/
def idleTree (outputs : List (Text × FileTree)) : FileTree :=
  .directory [("src", .directory [("p.ts", .file idleSource)]), ("out", .directory outputs)]

theorem discover_idleTree (outputs : List (Text × FileTree)) :
    discover idleConfig (idleTree outputs) = .ok [Text.ofString "src/p.ts"] := by
  have hFind : (idleTree outputs).find (path idleConfig idleConfig.workspace.programsDir) =
      .ok (.directory [("p.ts", .file idleSource)]) := rfl
  have hSources : sourcesOf (path idleConfig idleConfig.workspace.programsDir)
      (.directory [("p.ts", .file idleSource)]) = [Text.ofString "src/p.ts"] := by decide
  simp only [discover, hFind, hSources, List.mergeSort_singleton]

theorem compile_idle {name : Text} {out : CompileOutput}
    (h : compile idleConfig.options name idleSource = .ok out) :
    out.rust = idleRust ∧ out.interface = none := by
  obtain ⟨out₀, hCompile₀, hRust, hInterface⟩ := compile_idleSource
  have hOptions : CompileOptions.fingerprint {} = idleConfig.options.fingerprint := by
    decide +kernel
  rw [compile_eq_of_fingerprint hOptions] at hCompile₀
  obtain ⟨out', hCompile', _, hRust', hInterface'⟩ := compile_rename hCompile₀ name
  rw [h] at hCompile'
  cases hCompile'
  exact ⟨hRust'.trans hRust, hInterface'.trans hInterface⟩

theorem involved_idleTree {outputs : List (Text × FileTree)}
    (h : ∀ d, (idleTree outputs).view? ["out", "p.rs"] = some (some d) → d = idleRust) :
    involved idleConfig (idleTree outputs) ⊆ {idleSource, idleRust} := by
  rintro d ⟨ps, hDiscover, p, hp, hText⟩
  rw [discover_idleTree] at hDiscover
  cases hDiscover
  cases List.mem_singleton.mp hp
  have hSource : (idleTree outputs).view? (place "src/p.ts") = some (some idleSource) := rfl
  rcases hText with hText | hText | hText | ⟨out, ⟨src, hText, hCompile⟩, hOut⟩
  · rw [hSource] at hText
    cases hText
    exact .inl rfl
  · exact .inr (h d hText)
  · cases hText
  · rw [hSource] at hText
    cases hText
    obtain ⟨hRust, hInterface⟩ := compile_idle hCompile
    rcases hOut with rfl | hOut
    · exact .inr hRust
    · rw [hInterface] at hOut
      cases hOut

/-- The record of the idle program. -/
def idleRecord : Artifact where
  source := "src/p.ts"
  output := "out/p.rs"
  program := "P"
  programId := "11111111111111111111111111111111"
  compiler := compilerId
  options := idleConfig.options.fingerprint
  sourceHash := Keccak256.hex idleSource
  outputHash := Keccak256.hex idleRust

theorem ofOutput_idle {out : CompileOutput}
    (h : compile idleConfig.options "src/p.ts" idleSource = .ok out) :
    ofOutput "src/p.ts" (target idleConfig "src/p.ts").output (target idleConfig "src/p.ts").interface
      idleSource idleConfig.options out = idleRecord := by
  obtain ⟨out', hOut, hProgram⟩ := exists_ok_of_any
    (x := compile idleConfig.options "src/p.ts" idleSource) (fun out =>
      out.program.name == "P" && out.program.programId == "11111111111111111111111111111111") (by
      simp (disch := rfl) only [idleSource, Text.ofString_literal]
      decide +kernel)
  cases h.symm.trans hOut
  rw [Bool.and_eq_true, beq_iff_eq, beq_iff_eq] at hProgram
  obtain ⟨hRust, hInterface⟩ := compile_idle h
  have hOutput : (target idleConfig "src/p.ts").output = "out/p.rs" := by decide
  unfold ofOutput
  rw [hInterface, hProgram.1, hProgram.2, hRust, hOutput]
  rfl

/-- The workspace with what a build of it leaves. -/
def builtIdleTree : FileTree :=
  idleTree [("p.rs", .file idleRust),
    ("build-manifest.json", .file (Manifest.fileText 0 [idleRecord]))]

theorem read_manifest_idleTree :
    ((build idleConfig false false).outcome (idleTree [])).2.read (manifestPath idleConfig) =
      .ok (Manifest.fileText 0 [idleRecord]) := by
  have hRuns : (match (buildAll idleConfig {} false false [Text.ofString "src/p.ts"]).outcome
      (idleTree []) with
    | (.ok bs, t) => bs.all (·.1.failure.isNone) &&
      ((writeBelow (manifestPath idleConfig) []).outcome t).1.toOption.isSome
    | (.error _, _) => false) = true := by
    simp (disch := rfl) only [idleTree, idleSource, Text.ofString_literal]
    decide +kernel
  split at hRuns
  · rename_i bs t₁ hAll
    rw [Bool.and_eq_true] at hRuns
    obtain ⟨t', hBuild, hRead⟩ := build_of_buildAll (discover_idleTree []) rfl hAll hRuns.2
    obtain ⟨_, _, _, hSteps⟩ := buildAll_steps (discover_idleTree []) hAll
    obtain ⟨steps, rfl, _, hBuilt⟩ := hSteps bs rfl
    obtain ⟨s, _, hStep, hRest, rfl⟩ := List.forall₂_cons_left_iff.mp hBuilt
    cases List.forall₂_nil_left_iff.mp hRest
    have hSource : (idleTree []).view? (place "src/p.ts") = some (some idleSource) := rfl
    cases hStep with
    | refused => cases hRuns.1
    | skipped _ hFound => cases hFound
    | compiled hText hCompile =>
      cases hSource.symm.trans hText
      rw [hBuild]
      refine hRead.trans ?_
      exact congrArg (fun a => Except.ok (Manifest.fileText 0 [a])) (ofOutput_idle hCompile)
  · cases hRuns

theorem loadManifest_builtIdleTree : loadManifest idleConfig builtIdleTree =
    .ok ⟨Manifest.formatVersion, compilerId, [idleRecord]⟩ := by
  have hRead : builtIdleTree.read (manifestPath idleConfig) =
      .ok (Manifest.fileText 0 [idleRecord]) :=
    read_of_view? (isTame_manifestPath _) (place_manifestPath_ne_nil _) rfl
  have hTexts : ∀ s ∈ idleRecord.texts, Text.isUtf8 s = true := by
    have hDigest (s : Text) : Text.isUtf8 (Keccak256.hex s) = true := by
      rw [← Text.mended_of_isAscii (Keccak256.isAscii_hex s)]
      exact Text.isUtf8_ofChars _
    simp only [texts, idleRecord, List.forall_mem_cons, hDigest]
    decide +kernel
  have hMended : [idleRecord].map mended = [idleRecord] := by
    rw [List.map_singleton, mended_of_isUtf8 hTexts]
  have hValid : idleRecord.validate = .ok () := by
    rw [validate_eq_ok_iff]
    exact ⟨by decide +kernel, checkHash_hex _, checkHash_hex _, absurd rfl⟩
  have hChecked : [idleRecord].forM (fun a => a.validate.mapError Manifest.Error.artifact) =
      .ok () :=
    Outcome.forM_eq_ok (List.forall_mem_singleton.mpr (by rw [hValid]; rfl))
  have hSorted : Manifest.sorted [idleRecord] = [idleRecord] :=
    List.perm_singleton.mp (Manifest.sorted_perm [idleRecord])
  refine loadManifest_of_decode hRead ?_
  rw [Manifest.fileText_of_version (.inl rfl), Manifest.decode_toJson, hSorted, hMended, hChecked]
  rfl

/-- The second build skips the source. -/
theorem build_builtIdleTree : ∃ r t', (build idleConfig false false).outcome builtIdleTree =
    (.ok [r], t') ∧ r.source = Text.ofString "src/p.ts" ∧ r.isSkipped = true := by
  have hRead : builtIdleTree.read "src/p.ts" = .ok idleSource := rfl
  have hOutput : builtIdleTree.read (target idleConfig "src/p.ts").output = .ok idleRust := rfl
  obtain ⟨out, hCompile, hRust, hInterface⟩ := compile_idleSource
  have hUpToDate : idleRecord.isUpToDate idleConfig.options idleSource idleRust none = true := by
    simp [isUpToDate, idleRecord, sameHash_hex_iff]
  have hCurrent : isCurrent idleConfig builtIdleTree (target idleConfig "src/p.ts") idleSource
      idleRecord = true :=
    isCurrent_iff.mpr ⟨rfl, _, hOutput, .inl ⟨rfl, hUpToDate⟩⟩
  rcases hBuild : (buildSource idleConfig ⟨Manifest.formatVersion, compilerId, [idleRecord]⟩ false
    "src/p.ts").outcome builtIdleTree with ⟨res, t₁⟩
  rcases buildSource_outcome hBuild with ⟨_, hError, _⟩ | ⟨src, hSource, hRest⟩
  · cases hRead.symm.trans hError
  cases hRead.symm.trans hSource
  rcases hRest with ⟨a, _, rfl, rfl⟩ | ⟨hOther, _⟩
  · have hAll : (buildAll idleConfig ⟨Manifest.formatVersion, compilerId, [idleRecord]⟩ false false
        ["src/p.ts"]).outcome builtIdleTree =
          (.ok [({ target idleConfig "src/p.ts" with program := a.program, isSkipped := true },
            none)], builtIdleTree) := by
      rw [buildAll_cons, hBuild]
      rfl
    obtain ⟨t', hDone, _⟩ := build_of_buildAll (discover_idleTree _) loadManifest_builtIdleTree hAll
      (by decide +kernel)
    exact ⟨_, t', hDone, rfl, rfl⟩
  · have hFound : Manifest.lookup ⟨Manifest.formatVersion, compilerId, [idleRecord]⟩ "src/p.ts" =
        some idleRecord :=
      List.find?_cons_of_pos (decide_eq_true rfl)
    exact absurd ⟨rfl, hFound, hCurrent⟩ (hOther idleRecord)

/-- An incremental build equals a forced one. Whatever builds and edits led to this tree, as long as
digests tell the texts involved apart, both fail alike or give the same results up to the marks of
skipped sources, and they leave the same files except for the manifest; in particular the outputs of
all results are the same. -/
theorem build_skipping_eq_forced {S : Set Text} {c : Config} {t : FileTree} (h : History c S t)
    (hDirs : place (path c c.workspace.outputDir) ≠ place (path c c.workspace.interfaceDir))
    (hHash : Set.InjOn Keccak256.hash (S ∪ involved c t)) (cancelled : Bool) :
    let skipping := (build c false cancelled).outcome t
    let forced := (build c true cancelled).outcome t
    Agree Eq (fun rs rs' => rs.map BuildResult.unmarked = rs'.map BuildResult.unmarked)
      skipping.1 forced.1 ∧
    (∀ p, place p ≠ place (manifestPath c) → skipping.2.read p = forced.2.read p) ∧
    ∀ rs, skipping.1 = .ok rs → ∀ r ∈ rs, skipping.2.read r.output = forced.2.read r.output ∧
      skipping.2.read r.interface = forced.2.read r.interface := by
  intro skipping forced
  obtain ⟨hAgree, hTrees⟩ := build_sameBut h hHash cancelled
  refine ⟨hAgree, fun p hp => hTrees.read hp, ?_⟩
  intro rs hrs r hr
  have hSkipping : (build c false cancelled).outcome t = (.ok rs, skipping.2) := by
    rw [← hrs]
  rcases build_cases hSkipping with ⟨e, hError, _⟩ | ⟨ps, m, hDiscover, _, hRun⟩
  · cases hError
  rcases hRun with ⟨e, ws, hError, _⟩ | ⟨steps, text, hBuilt, _, hResults, _⟩
  · cases hError
  cases hResults
  obtain ⟨s, hs, rfl⟩ := List.mem_map.mp hr
  obtain ⟨p, hp, hStep⟩ := exists_of_mem_right hBuilt hs
  obtain ⟨_, hOutput, hInterface⟩ := hStep.result_eq
  have hSource := isSource_of_discover hDiscover p hp
  rw [hOutput, hInterface]
  exact ⟨hTrees.read (place_output_ne_manifestPath c hSource),
    hTrees.read (place_interface_ne_manifestPath hDirs hSource)⟩

/-- After a build of a fresh workspace, the outputs being as the build left them, the next build skips
its one source. -/
theorem build_skipping_eq_forced_idle : ∃ S r t', History idleConfig S builtIdleTree ∧
    (build idleConfig false false).outcome builtIdleTree = (.ok [r], t') ∧
    r.source = Text.ofString "src/p.ts" ∧ r.isSkipped = true ∧
    Agree Eq (fun rs rs' => rs.map BuildResult.unmarked = rs'.map BuildResult.unmarked)
      ((build idleConfig false false).outcome builtIdleTree).1
      ((build idleConfig true false).outcome builtIdleTree).1 := by
  have hStart : History idleConfig ∅ (idleTree []) := by
    refine .start fun text m hRead => ?_
    cases view?_of_read hRead
  have hEdited : History idleConfig _ builtIdleTree :=
    (hStart.build idleConfig false false).edit (by
      rw [read_manifest_idleTree]
      exact read_of_view? (isTame_manifestPath _) (place_manifestPath_ne_nil _) rfl)
  obtain ⟨r, t', hBuild, hSource, hSkipped⟩ := build_builtIdleTree
  refine ⟨_, r, t', hEdited, hBuild, hSource, hSkipped,
    (build_skipping_eq_forced hEdited (by decide) ?_ false).1⟩
  refine injOn_hash_idle.mono (Set.union_subset (Set.union_subset (Set.empty_subset _) ?_) ?_)
  · exact involved_idleTree fun d hd => by cases hd
  · have hRust : builtIdleTree.view? ["out", "p.rs"] = some (some idleRust) := rfl
    refine involved_idleTree fun d' hd => ?_
    exact (Option.some.inj (Option.some.inj (hRust.symm.trans hd))).symm

end AnchorScript.Workspace
