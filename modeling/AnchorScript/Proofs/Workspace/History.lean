import AnchorScript.Proofs.Compiler.DistinctNames
import AnchorScript.Proofs.Compiler.Formatting
import AnchorScript.Proofs.Manifest.Descriptions
import AnchorScript.Proofs.Manifest.UpToDate
import AnchorScript.Proofs.Workspace.Pool

/-!
# The manifest that builds leave

Builds under all kinds of configurations, finished, failed or cancelled, with files edited between
them, leave a manifest whose records are those of compilations that took place. What they write where
the manifest is expected is a manifest of theirs or a description, and no description is read as a
manifest, nor is what several workers leave when they write there at once.
-/

namespace AnchorScript

theorem CompileOptions.isAscii_fingerprint (o : CompileOptions) : Text.IsAscii o.fingerprint := by
  have hDigits : Text.IsAscii (Text.ofNat o.settings.stringMaxLen) := fun b hb =>
    Lexer.isIdentPart_lt (by simp [Lexer.isIdentPart, Json.isDigit_ofNat _ b hb])
  simp only [Text.IsAscii, CompileOptions.fingerprint, List.forall_mem_append]
  refine ⟨⟨⟨by decide +kernel, hDigits⟩, by decide +kernel⟩, ?_⟩
  split
  · decide +kernel
  · decide +kernel

namespace Artifact

/-- The record of a compilation whose texts are among these. -/
def Genuine (texts : Set Text) (a : Artifact) : Prop :=
  ∃ o name src out, compile o name src = .ok out ∧ a.Records o src out ∧ src ∈ texts ∧
    out.rust ∈ texts ∧ ∀ d ∈ out.interface, d ∈ texts

theorem Genuine.mono {S S' : Set Text} (h : S ⊆ S') {a : Artifact} (ha : a.Genuine S) :
    a.Genuine S' := by
  obtain ⟨o, name, src, out, hCompile, hRecords, hSource, hRust, hInterface⟩ := ha
  exact ⟨o, name, src, out, hCompile, hRecords, h hSource, h hRust, fun d hd => h (hInterface d hd)⟩

/-- What a record says of a compilation is ASCII text, which reading a manifest leaves alone. -/
theorem Records.mended {a : Artifact} {o : CompileOptions} {name src : Text} {out : CompileOutput}
    (hCompile : compile o name src = .ok out) (h : a.Records o src out) :
    a.mended.Records o src out := by
  have hName := isAscii_of_isWord (isWord_of_compile hCompile)
  have hHash : Text.IsAscii ((out.interface.map Keccak256.hex).getD []) := by
    cases out.interface with
    | none => exact fun b hb => by cases hb
    | some text => exact Keccak256.isAscii_hex text
  have hKept : ∀ {s s' : Text}, s = s' → Text.IsAscii s' → s.mended = s' := by
    rintro s _ rfl hAscii
    exact Text.mended_of_isAscii hAscii
  exact ⟨hKept h.program hName, hKept h.compiler (by decide +kernel),
    hKept h.options o.isAscii_fingerprint, hKept h.sourceHash (Keccak256.isAscii_hex src),
    hKept h.outputHash (Keccak256.isAscii_hex out.rust), hKept h.interfaceHash hHash⟩

theorem Genuine.mended {S : Set Text} {a : Artifact} (h : a.Genuine S) : a.mended.Genuine S := by
  obtain ⟨o, name, src, out, hCompile, hRecords, hTexts⟩ := h
  exact ⟨o, name, src, out, hCompile, hRecords.mended hCompile, hTexts⟩

end Artifact

namespace Manifest

theorem decode_eq_ok {s : Text} {m : Manifest} (h : decode s = .ok m) :
    m.version = formatVersion ∧ ∀ a ∈ m.artifacts, a.validate = .ok () := by
  rw [decode] at h
  split at h
  · rename_i m' _
    simp only [ne_eq, ite_not] at h
    split at h
    · rename_i hVersion
      simp only [Outcome.bind_eq_ok_iff, Outcome.pure_eq_ok_iff] at h
      obtain ⟨_, hChecked, rfl⟩ := h
      exact ⟨hVersion, fun a ha =>
        Outcome.mapError_eq_ok_iff.mp (Outcome.eq_ok_of_forM_eq_ok hChecked ha)⟩
    · cases h
  · cases h

theorem mem_putArtifact {a b : Artifact} {as : List Artifact} (h : b ∈ putArtifact a as) :
    b = a ∨ b ∈ as := by
  induction as with
  | nil => exact .inl (List.mem_singleton.mp h)
  | cons a' as ih =>
    rw [putArtifact] at h
    split at h
    · rcases List.mem_cons.mp h with rfl | h
      · exact .inl rfl
      · exact .inr (List.mem_cons_of_mem a' h)
    · rcases List.mem_cons.mp h with rfl | h
      · exact .inr List.mem_cons_self
      · exact (ih h).imp_right (List.mem_cons_of_mem a')

theorem mem_foldl_put {a : Artifact} {as : List Artifact} {m : Manifest}
    (h : a ∈ (as.foldl put m).artifacts) : a ∈ m.artifacts ∨ a ∈ as := by
  induction as generalizing m with
  | nil => exact .inl h
  | cons b as ih =>
    rcases ih h with h | h
    · rcases mem_putArtifact h with rfl | h
      · exact .inr List.mem_cons_self
      · exact .inl h
    · exact .inr (List.mem_cons_of_mem b h)

theorem version_foldl_put (as : List Artifact) (m : Manifest) :
    (as.foldl put m).version = m.version := by
  induction as generalizing m with
  | nil => rfl
  | cons a as ih => exact ih _

/-- Reading a manifest's text gives its records, mended. -/
theorem mem_of_decode_fileText {version : Int} (h : version = 0 ∨ version = formatVersion)
    {as : List Artifact} {m : Manifest} (hDecode : decode (fileText version as) = .ok m)
    {a : Artifact} (ha : a ∈ m.artifacts) : ∃ b ∈ as, a = b.mended := by
  rw [fileText_of_version h, decode_toJson] at hDecode
  obtain ⟨_, _, hDone⟩ := Outcome.bind_eq_ok_iff.mp hDecode
  cases hDone
  obtain ⟨b, hb, rfl⟩ := List.mem_map.mp ha
  exact ⟨b, (sorted_perm as).mem_iff.mp hb, rfl⟩

end Manifest

namespace Workspace

open FileTree AnchorScript.Path

/-- Every record of a manifest found at this place is genuine. -/
def Trusted (texts : Set Text) (q : List Text) (t : FileTree) : Prop :=
  ∀ text m, t.view? q = some (some text) → Manifest.decode text = .ok m →
    ∀ a ∈ m.artifacts, a.Genuine texts

theorem loadManifest_eq_ok {c : Config} {t : FileTree} {m : Manifest}
    (h : loadManifest c t = .ok m) : m = {} ∨
      ∃ text, t.view? (place (manifestPath c)) = some (some text) ∧
        Manifest.decode text = .ok m := by
  rw [loadManifest] at h
  split at h
  · split at h
    · cases h
      exact .inl rfl
    · cases h
  · rename_i text hRead
    split at h
    · rename_i m' hDecode
      cases h
      exact .inr ⟨text, view?_of_read hRead, hDecode⟩
    · cases h
      exact .inl rfl

theorem loadManifest_of_decode {c : Config} {t : FileTree} {text : Text} {m : Manifest}
    (hRead : t.read (manifestPath c) = .ok text) (hDecode : Manifest.decode text = .ok m) :
    loadManifest c t = .ok m := by
  rw [loadManifest, hRead]
  dsimp only
  rw [hDecode]

theorem loadManifest_valid {c : Config} {t : FileTree} {m : Manifest}
    (h : loadManifest c t = .ok m) : (m.version = 0 ∨ m.version = Manifest.formatVersion) ∧
      ∀ a ∈ m.artifacts, a.validate = .ok () := by
  rcases loadManifest_eq_ok h with rfl | ⟨text, _, hDecode⟩
  · exact ⟨.inl rfl, by simp⟩
  · obtain ⟨hVersion, hValid⟩ := Manifest.decode_eq_ok hDecode
    exact ⟨.inr hVersion, hValid⟩

theorem Trusted.load {S : Set Text} {c : Config} {t : FileTree} {m : Manifest}
    (hTrusted : Trusted S (place (manifestPath c)) t) (h : loadManifest c t = .ok m) :
    ∀ a ∈ m.artifacts, a.Genuine S := by
  rcases loadManifest_eq_ok h with rfl | ⟨text, hText, hDecode⟩
  · simp
  · exact hTrusted text m hText hDecode

/-- The texts that a build of this tree compares or produces: its sources, what they compile to, and
what stands at their outputs. -/
def involved (c : Config) (t : FileTree) : Set Text :=
  {d | ∃ ps, discover c t = .ok ps ∧ ∃ p ∈ ps,
    t.view? (place p) = some (some d) ∨
    t.view? (place (target c p).output) = some (some d) ∨
    t.view? (place (target c p).interface) = some (some d) ∨
    ∃ out, Compiles c t p out ∧ (d = out.rust ∨ d ∈ out.interface)}

theorem Permitted.involved {c : Config} {t : FileTree} {ps : List Text}
    (hDiscover : discover c t = .ok ps) {w : List Text × Text} (h : Permitted c t ps w) :
    w.2 ∈ involved c t := by
  obtain ⟨p, hp, out, hCompiles, hw⟩ := h
  refine ⟨ps, hDiscover, p, hp, .inr (.inr (.inr ⟨out, hCompiles, ?_⟩))⟩
  rcases List.mem_cons.mp hw with rfl | hw
  · exact .inl rfl
  · obtain ⟨text, hText, rfl⟩ := List.mem_map.mp hw
    exact .inr (Option.mem_toList.mp hText)

theorem description_of_compile {o : CompileOptions} {name src text : Text} {out : CompileOutput}
    (h : compile o name src = .ok out) (hText : out.interface = some text) :
    ∃ d : Interface.Description, text = d.text := by
  simp only [compile, Outcome.bind_eq_ok_iff, Outcome.pure_eq_ok_iff] at h
  obtain ⟨_, _, _, _, rfl⟩ := h
  dsimp only at hText
  split at hText
  · cases hText
    exact ⟨_, rfl⟩
  · cases hText

theorem interface_ne_nil {c : Config} {p : Text} (hp : isSource p = true)
    (hEmit : c.compiler.emitInterface = true) : (target c p).interface ≠ [] :=
  (isTame_interface hp hEmit).1

theorem trimSpace_of_isSource {p : Text} (h : isSource p = true) : Text.trimSpace p ≠ [] := by
  rw [isSource, Bool.and_eq_true] at h
  have hEnding := List.isSuffixOf_iff_suffix.mp h.1
  have hLetter := hEnding.subset (by decide : (115 : UInt8) ∈ Text.ofString ".ts")
  exact List.ne_nil_of_mem (Text.mem_trimSpace hLetter (by decide) (by decide))

/-- A record that a build makes is valid, and it is the record of the compilation it made. -/
theorem Built.record {c : Config} {m : Manifest} {force : Bool} {t : FileTree} {ps : List Text}
    (hDiscover : discover c t = .ok ps) {p : Text} (hp : p ∈ ps) {s : Step}
    (h : Built c m force t p s) {a : Artifact} (ha : a ∈ s.record) :
    a.validate = .ok () ∧ a.Genuine (Workspace.involved c t) := by
  have hSource := isSource_of_discover hDiscover p hp
  cases h with
  | refused => cases ha
  | skipped => cases ha
  | compiled hText hCompile =>
    rename_i src out
    cases ha
    refine ⟨Artifact.validate_ofOutput (trimSpace_of_isSource hSource) _ _ _ _ _,
      c.options, p, src, out, hCompile, Artifact.records_ofOutput ?_ _ _ _ _, ?_, ?_, ?_⟩
    · intro hSome
      exact interface_ne_nil hSource ((emitInterface_of_compile hCompile).symm.trans hSome)
    · exact ⟨ps, hDiscover, p, hp, .inl hText⟩
    · exact ⟨ps, hDiscover, p, hp, .inr (.inr (.inr ⟨out, ⟨src, hText, hCompile⟩, .inl rfl⟩))⟩
    · exact fun d hd =>
        ⟨ps, hDiscover, p, hp, .inr (.inr (.inr ⟨out, ⟨src, hText, hCompile⟩, .inr hd⟩))⟩

/-- The records of the manifest after a build are those it loaded and those it made. -/
theorem mem_updated {c : Config} {m : Manifest} {force : Bool} {t : FileTree} {ps : List Text}
    {steps : List Step} (h : List.Forall₂ (Built c m force t) ps steps) {a : Artifact}
    (ha : a ∈ (updated m (steps.map fun s => (s.result, s.record))).artifacts) :
    a ∈ m.artifacts ∨ ∃ p ∈ ps, ∃ s, Built c m force t p s ∧ a ∈ s.record := by
  refine (Manifest.mem_foldl_put ha).imp_right fun hNew => ?_
  rw [List.filterMap_map, List.mem_filterMap] at hNew
  obtain ⟨s, hs, hRecord⟩ := hNew
  obtain ⟨p, hp, hBuilt⟩ := Outcome.exists_of_mem_right h hs
  exact ⟨p, hp, s, hBuilt, hRecord⟩

theorem valid_updated {c : Config} {m : Manifest} {force : Bool} {t : FileTree} {ps : List Text}
    {steps : List Step} (hDiscover : discover c t = .ok ps) (hLoad : loadManifest c t = .ok m)
    (h : List.Forall₂ (Built c m force t) ps steps) :
    ∀ a ∈ (updated m (steps.map fun s => (s.result, s.record))).artifacts, a.validate = .ok () := by
  intro a ha
  rcases mem_updated h ha with hOld | ⟨p, hp, s, hBuilt, hRecord⟩
  · exact (loadManifest_valid hLoad).2 a hOld
  · exact (hBuilt.record hDiscover hp hRecord).1

theorem encode_updated {c : Config} {m : Manifest} {force : Bool} {t : FileTree} {ps : List Text}
    {steps : List Step} (hDiscover : discover c t = .ok ps) (hLoad : loadManifest c t = .ok m)
    (h : List.Forall₂ (Built c m force t) ps steps) :
    (updated m (steps.map fun s => (s.result, s.record))).encode = .ok (Manifest.fileText m.version
      (updated m (steps.map fun s => (s.result, s.record))).artifacts) := by
  rw [Manifest.encode_eq_ok (valid_updated hDiscover hLoad h), updated, Manifest.version_foldl_put]

/-- What a build writes for its sources is never taken for a manifest. -/
theorem decode_of_permitted {c : Config} {t : FileTree} {ps : List Text} {w : List Text × Text}
    (hps : ∀ p ∈ ps, isSource p = true) (hName : EndsIn ".json" w.1) (h : Permitted c t ps w)
    (m : Manifest) : Manifest.decode w.2 ≠ .ok m := by
  obtain ⟨p, hp, out, ⟨src, _, hCompile⟩, hw⟩ := h
  rcases List.mem_cons.mp hw with rfl | hw
  · exact absurd (hName.suffix_or_suffix ⟨_, _, place_output (hps p hp)⟩) (by decide)
  · obtain ⟨text, hText, rfl⟩ := List.mem_map.mp hw
    obtain ⟨d, rfl⟩ := description_of_compile hCompile (Option.mem_toList.mp hText)
    exact List.append_nil d.text ▸ Manifest.decode_description d [] m

theorem decode_of_rough {c : Config} {t : FileTree} {ps : List Text} {w : List Text × Text}
    (hps : ∀ p ∈ ps, isSource p = true) (hName : EndsIn ".json" w.1) (h : Rough c t ps w)
    (m : Manifest) : Manifest.decode w.2 ≠ .ok m := by
  obtain ⟨q, text⟩ := w
  obtain ⟨d, ⟨p, hp, out, ⟨src, _, hCompile⟩, hw⟩, hText⟩ := h
  rcases List.mem_cons.mp hw with hRust | hw
  · cases hRust
    exact absurd (hName.suffix_or_suffix ⟨_, _, place_output (hps p hp)⟩) (by decide)
  · obtain ⟨text', hSome, hw⟩ := List.mem_map.mp hw
    cases hw
    obtain ⟨description, rfl⟩ := description_of_compile hCompile (Option.mem_toList.mp hSome)
    rcases hText with rfl | ⟨rest, rfl, _⟩
    · exact nofun
    · exact Manifest.decode_description description rest m

/-- The records of a manifest that a build saves are genuine when it is read again. -/
theorem genuine_of_saved {S : Set Text} {c : Config} {m m' : Manifest} {force : Bool} {t : FileTree}
    {ps : List Text} {steps : List Step} {text : Text} (hDiscover : discover c t = .ok ps)
    (hLoad : loadManifest c t = .ok m) (hBuilt : List.Forall₂ (Built c m force t) ps steps)
    (hEncode : (updated m (steps.map fun s => (s.result, s.record))).encode = .ok text)
    (hOld : ∀ a ∈ m.artifacts, a.Genuine S) (hDecode : Manifest.decode text = .ok m') :
    ∀ a ∈ m'.artifacts, a.Genuine (S ∪ involved c t) := by
  intro a ha
  rw [encode_updated hDiscover hLoad hBuilt] at hEncode
  cases hEncode
  obtain ⟨b, hb, rfl⟩ := Manifest.mem_of_decode_fileText (loadManifest_valid hLoad).1 hDecode ha
  refine Artifact.Genuine.mended ?_
  rcases mem_updated hBuilt hb with hOld' | ⟨p, hp, s, hStep, hRecord⟩
  · exact (hOld b hOld').mono Set.subset_union_left
  · exact (hStep.record hDiscover hp hRecord).2.mono Set.subset_union_right

theorem Trusted.after {S : Set Text} {q : List Text} {t t' : FileTree}
    {ws : List (List Text × Text)} (h : Trusted S q t) (hAfter : After t ws t')
    (hws : ∀ text, (q, text) ∈ ws →
      ∀ m, Manifest.decode text = .ok m → ∀ a ∈ m.artifacts, a.Genuine S) : Trusted S q t' := by
  intro text m hText
  rcases hAfter.written_or_kept hText with hNew | hOld
  · exact hws text hNew m
  · exact h text m hOld

/-- A build leaves the manifest at any place trusted, be it its own or that of another
configuration. -/
theorem trusted_build {S : Set Text} {q : List Text} {t t' : FileTree} (h : Trusted S q t)
    (hName : EndsIn ".json" q) {c : Config} {force cancelled : Bool}
    {res : Except WorkspaceError (List BuildResult)}
    (hBuild : (build c force cancelled).outcome t = (res, t')) :
    Trusted (S ∪ involved c t) q t' := by
  have hMore : Trusted (S ∪ involved c t) q t := fun text m hText hDecode a ha =>
    (h text m hText hDecode a ha).mono Set.subset_union_left
  rcases build_cases hBuild with ⟨e, _, rfl⟩ | ⟨ps, m, hDiscover, hLoad, hRun⟩
  · exact hMore
  have hps := isSource_of_discover hDiscover
  rcases hRun with ⟨e, ws, _, hws, hAfter⟩ | ⟨steps, text, hBuilt, hEncode, _, hAfter⟩
  · refine hMore.after hAfter fun d hd m' hDecode => ?_
    exact absurd hDecode (decode_of_permitted hps hName (hws _ hd) m')
  · refine hMore.after hAfter fun d hd m' hDecode => ?_
    rcases List.mem_append.mp hd with hd | hd
    · exact absurd hDecode (decode_of_permitted hps hName (permitted_of_steps hBuilt _ hd) m')
    · obtain ⟨rfl, rfl⟩ := Prod.mk.inj (List.mem_singleton.mp hd)
      exact genuine_of_saved hDiscover hLoad hBuilt hEncode (h.load hLoad) hDecode

theorem trusted_run {S : Set Text} {q : List Text} {t t' : FileTree} (h : Trusted S q t)
    (hName : EndsIn ".json" q) {c : Config} {force cancelled : Bool}
    {res : Except WorkspaceError (List BuildResult)} (hRun : BuildsTo c force cancelled t res t') :
    Trusted (S ∪ involved c t) q t' := by
  have hMore : Trusted (S ∪ involved c t) q t := fun text m hText hDecode a ha =>
    (h text m hText hDecode a ha).mono Set.subset_union_left
  rcases buildsTo_cases hRun with ⟨e, _, rfl⟩ | ⟨ps, m, pool, hDiscover, hLoad, hInv, hEnd⟩
  · exact hMore
  have hps := isSource_of_discover hDiscover
  obtain ⟨ws, hTouched, hws⟩ := hInv.touched
  have hPool : Trusted (S ∪ involved c t) q pool.tree := hMore.after hTouched fun d hd m' hDecode =>
    absurd hDecode (decode_of_rough hps hName (hws _ hd) m')
  rcases hEnd with ⟨e, _, hAfter⟩ | ⟨_, _, steps, text, hBuilt, _, hEncode, _, hAfter⟩
  · exact hPool.after hAfter nofun
  · refine hPool.after hAfter fun d hd m' hDecode => ?_
    obtain ⟨rfl, rfl⟩ := Prod.mk.inj (List.mem_singleton.mp hd)
    exact genuine_of_saved hDiscover hLoad hBuilt hEncode (h.load hLoad) hDecode

/-- How a workspace got where it is: a manifest that was missing or unreadable to begin with, then
builds under any configurations, successful or not, one source after the other or with several
workers, and edits of anything but the manifest. The texts are those that the builds compared or
produced. -/
inductive History (c : Config) : Set Text → FileTree → Prop
  | start {t : FileTree} (h : ∀ text m, t.read (manifestPath c) = .ok text →
      Manifest.decode text ≠ .ok m) : History c ∅ t
  | edit {texts : Set Text} {t t' : FileTree} (h : History c texts t)
      (hSame : t'.read (manifestPath c) = t.read (manifestPath c)) : History c texts t'
  | build {texts : Set Text} {t : FileTree} (h : History c texts t) (c' : Config)
      (force cancelled : Bool) :
      History c (texts ∪ involved c' t) ((Workspace.build c' force cancelled).outcome t).2
  | run {texts : Set Text} {t t' : FileTree} (h : History c texts t) {c' : Config}
      {force cancelled : Bool} {res : Except WorkspaceError (List BuildResult)}
      (hRun : BuildsTo c' force cancelled t res t') : History c (texts ∪ involved c' t) t'

/-- The records of the manifest that a history leaves are genuine. -/
theorem History.trusted {c : Config} {S : Set Text} {t : FileTree} (h : History c S t) :
    Trusted S (place (manifestPath c)) t := by
  have hRead : ∀ {t : FileTree} {d : Text}, t.read (manifestPath c) = .ok d ↔
      t.view? (place (manifestPath c)) = some (some d) :=
    read_eq_ok_iff (isTame_manifestPath c) (place_manifestPath_ne_nil c)
  induction h with
  | start h =>
    intro text m hText hDecode
    exact absurd hDecode (h text m (hRead.mpr hText))
  | edit _ hSame ih =>
    intro text m hText hDecode
    refine ih text m ?_ hDecode
    rw [← hRead, ← hSame]
    exact hRead.mpr hText
  | build _ c' force cancelled ih =>
    exact trusted_build ih ⟨_, "build-manifest", place_manifestPath c⟩ rfl
  | run _ hRun ih => exact trusted_run ih ⟨_, "build-manifest", place_manifestPath c⟩ hRun

end Workspace

end AnchorScript
