import AnchorScript.Manifest.Document
import AnchorScript.Proofs.Hash.Keccak256
import AnchorScript.Proofs.Json.RoundTrip
import AnchorScript.Proofs.Outcome
import AnchorScript.Proofs.Quicksort

/-!
# Manifests as they are read back

The text of a manifest, read again, gives its records with their texts mended. The records are put
in the order of their sources without losing one, and the order is one and the same for every
permutation of records with distinct sources.
-/

namespace AnchorScript

namespace Artifact

/-- The record with all its texts mended. -/
def mended (a : Artifact) : Artifact :=
  { source := a.source.mended
    output := a.output.mended
    interface := a.interface.mended
    program := a.program.mended
    programId := a.programId.mended
    compiler := a.compiler.mended
    options := a.options.mended
    sourceHash := a.sourceHash.mended
    outputHash := a.outputHash.mended
    interfaceHash := a.interfaceHash.mended }

theorem mem_optionalMember {key value : Text} {m : Text × Json}
    (h : m ∈ optionalMember key value) : ∃ k s, m = (k, .string s) := by
  unfold optionalMember at h
  split at h
  · cases h
  · exact ⟨_, _, List.mem_singleton.mp h⟩

theorem exists_toJson (a : Artifact) :
    ∃ ms, toJson a = .object ms ∧ ∀ m ∈ ms, ∃ k s, m = (k, .string s) := by
  refine ⟨_, rfl, ?_⟩
  intro m hm
  simp only [List.mem_append, List.mem_cons, List.not_mem_nil, or_false] at hm
  rcases hm with (((rfl | rfl) | hm) | rfl | rfl | rfl | rfl | rfl | rfl) | hm
  all_goals first
    | exact mem_optionalMember hm
    | exact ⟨_, _, rfl⟩

theorem isPlain_toJson (a : Artifact) : (toJson a).isPlain = true := by
  obtain ⟨ms, hObject, hStrings⟩ := exists_toJson a
  rw [hObject, Json.isPlain, Json.isPlainMembers_iff]
  intro m hm
  obtain ⟨k, s, rfl⟩ := hStrings m hm
  rfl

theorem depth_toJson_le (a : Artifact) : (toJson a).depth ≤ 1 := by
  obtain ⟨ms, hObject, hStrings⟩ := exists_toJson a
  rw [hObject, Json.depth, Nat.add_le_add_iff_right, Json.depthOfMembers_le_iff]
  intro m hm
  obtain ⟨k, s, rfl⟩ := hStrings m hm
  exact Nat.le_refl 0

theorem mended_optionalMember {key : Text} (h : Text.IsAscii key) (value : Text) :
    (optionalMember key value).map (fun (k, v) => (Text.mended k, v.mended)) =
      optionalMember key (Text.mended value) := by
  unfold optionalMember
  simp only [List.isEmpty_iff, Text.mended_eq_nil_iff]
  split
  · rfl
  · simp only [List.map_cons, List.map_nil, Text.mended_of_isAscii h, Json.mended]

/-- The names of a record's members. -/
def keys : List Text :=
  ["source", "output", "idl", "program", "program_id", "compiler", "options", "source_hash",
    "output_hash", "idl_hash"]

theorem mended_toJson (a : Artifact) : (toJson a).mended = toJson a.mended := by
  have hAscii : ∀ key ∈ keys, Text.IsAscii key := by decide +kernel
  have hKeys : ∀ key ∈ keys, Text.mended key = key := fun key hKey =>
    Text.mended_of_isAscii (hAscii key hKey)
  have hInterface := mended_optionalMember (hAscii "idl" (by simp [keys]))
  have hInterfaceHash := mended_optionalMember (hAscii "idl_hash" (by simp [keys]))
  simp only [keys, List.forall_mem_cons] at hKeys
  simp only [toJson, Json.mended, Json.mendedMembers_eq_map, List.map_append, List.map_cons,
    List.map_nil, hInterface, hInterfaceHash, hKeys]
  rfl

theorem update_toJson (a : Artifact) : update {} (toJson a) = some a := by
  have hKeys : ∀ key ∈ keys, foldKey key = key := by decide +kernel
  simp only [keys, List.forall_mem_cons] at hKeys
  obtain ⟨_, _, interface, _, _, _, _, _, _, interfaceHash⟩ := a
  -- the two members that may be left out give four shapes of documents
  cases interface <;> cases interfaceHash <;>
    simp +decide [update, toJson, optionalMember, updateMember, setter?, hKeys]

theorem updateAll_toJson (as : List Artifact) : updateAll [] (as.map toJson) = some as := by
  induction as with
  | nil => rfl
  | cons a as ih =>
    rw [List.map_cons, updateAll, update_toJson, ih]
    rfl

end Artifact

namespace Manifest

theorem isPlain_toJson (version : Int) (as : List Artifact) : (toJson version as).isPlain = true := by
  have hListed : (if as.isEmpty then Json.null else .array (as.map Artifact.toJson)).isPlain = true := by
    split
    · rfl
    · rw [Json.isPlain, Json.isPlainElems_iff, List.forall_mem_map]
      exact fun a _ => a.isPlain_toJson
  simp only [toJson, Json.isPlain, Json.isPlainMembers, hListed, Bool.and_self]

theorem depth_toJson_le (version : Int) (as : List Artifact) :
    (toJson version as).depth ≤ Json.maxDepth := by
  have hListed : (if as.isEmpty then Json.null else .array (as.map Artifact.toJson)).depth ≤ 2 := by
    split
    · exact Nat.zero_le 2
    · rw [Json.depth, Nat.add_le_add_iff_right, Json.depthOfElems_le_iff, List.forall_mem_map]
      exact fun a _ => a.depth_toJson_le
  simp only [toJson, Json.depth, Json.depthOfMembers, Json.maxDepth]
  omega

theorem mended_toJson (version : Int) (as : List Artifact) :
    (toJson version as).mended = toJson version (as.map Artifact.mended) := by
  have hKeys : ∀ key ∈ [Text.ofString "version", "compiler", "artifacts", compilerId],
      Text.mended key = key := fun key hKey => Text.mended_of_isAscii
    ((by decide +kernel : ∀ key ∈ [Text.ofString "version", "compiler", "artifacts", compilerId],
      Text.IsAscii key) key hKey)
  simp only [List.forall_mem_cons] at hKeys
  have hListed : (if as.isEmpty then Json.null else .array (as.map Artifact.toJson)).mended =
      if (as.map Artifact.mended).isEmpty then Json.null
      else .array ((as.map Artifact.mended).map Artifact.toJson) := by
    cases as with
    | nil => rfl
    | cons a as =>
      simp only [List.isEmpty_cons, List.map_cons, Bool.false_eq_true, if_false, Json.mended,
        Json.mendedElems_eq_map, List.map_map, Function.comp_def, Artifact.mended_toJson]
  simp only [toJson, Json.mended, Json.mendedMembers, hListed, hKeys]

/-- The text of a manifest gives its document back, with the texts of the records mended. -/
theorem ofText?_toJson (version : Int) (as : List Artifact) :
    Json.ofText? ((toJson version as).text ++ "\n") =
      some (toJson version (as.map Artifact.mended)) := by
  rw [Json.ofText?_text (isPlain_toJson version as), if_pos (depth_toJson_le version as),
    mended_toJson]

theorem foldKey_member : ∀ key ∈ [Text.ofString "version", "compiler", "artifacts"],
    Artifact.foldKey key = key := by
  decide +kernel

theorem Draft.updateMember_version (d : Draft) {n : Int} (h : fitsWord n = true) :
    d.updateMember "version" (.number n) =
      some { d with manifest := { d.manifest with version := n } } := by
  have hKey := foldKey_member "version" (by simp)
  unfold Draft.updateMember
  simp only [hKey, if_true, h]

theorem Draft.updateMember_compiler (d : Draft) (s : Text) :
    d.updateMember "compiler" (.string s) =
      some { d with manifest := { d.manifest with compiler := s } } := by
  have hKey := foldKey_member "compiler" (by simp)
  unfold Draft.updateMember
  simp +decide only [hKey, if_true, if_false]

theorem Draft.updateMember_artifacts (d : Draft) (v : Json) :
    d.updateMember "artifacts" v = match v with
      | .null => d.updateArtifacts []
      | .array es => d.updateArtifacts es
      | _ => none := by
  have hKey := foldKey_member "artifacts" (by simp)
  unfold Draft.updateMember
  cases v <;> simp +decide only [hKey, if_true, if_false]

theorem ofJson?_toJson {version : Int} (h : fitsWord version = true) (as : List Artifact) :
    ofJson? (toJson version as) = some ⟨version, compilerId, as⟩ := by
  have hAll := Artifact.updateAll_toJson as
  simp only [ofJson?, toJson, List.foldlM_cons, List.foldlM_nil, Draft.updateMember_version _ h,
    Draft.updateMember_compiler, Draft.updateMember_artifacts, Option.bind_eq_bind, Option.bind_some]
  cases as with
  | nil => rfl
  | cons a as =>
    simp only [List.isEmpty_cons, Bool.false_eq_true, if_false, Draft.updateArtifacts,
      List.map_cons, List.append_nil] at hAll ⊢
    rw [hAll]
    rfl

/-- Reading the text of a manifest checks the mended records and gives them back. -/
theorem decode_toJson (as : List Artifact) :
    decode ((toJson formatVersion as).text ++ "\n") = (do
      (as.map Artifact.mended).forM fun a => a.validate.mapError .artifact
      return ⟨formatVersion, compilerId, as.map Artifact.mended⟩) := by
  have hFits : fitsWord formatVersion = true := by decide
  rw [decode, ofText?_toJson, Option.bind_some, ofJson?_toJson hFits]
  simp

end Manifest

end AnchorScript
