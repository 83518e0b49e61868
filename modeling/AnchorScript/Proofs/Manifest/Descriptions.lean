import AnchorScript.Interface.Basic
import AnchorScript.Proofs.Manifest.RoundTrip

/-!
# Descriptions are no manifests

The description of a program has no member that a manifest knows, so a description that stands where
a manifest is expected reads as one without a version and is refused.
-/

namespace AnchorScript

namespace Json

theorem isPlainElems_map {α : Type} {f : α → Json} (h : ∀ a, (f a).isPlain = true) (as : List α) :
    isPlainElems (as.map f) = true := by
  rw [isPlainElems_iff, List.forall_mem_map]
  exact fun a _ => h a

theorem isPlainMembers_append (ms ms' : List (Text × Json)) :
    isPlainMembers (ms ++ ms') = (isPlainMembers ms && isPlainMembers ms') := by
  rw [Bool.eq_iff_iff, Bool.and_eq_true, isPlainMembers_iff, isPlainMembers_iff,
    isPlainMembers_iff, List.forall_mem_append]

end Json

namespace Interface

open Json

section Members

variable (key : Text)

theorem isPlainMembers_member (v : Json) : isPlainMembers (member key v) = v.isPlain := by
  simp [member, isPlainMembers]

theorem isPlainMembers_optional {v : Option Json} (h : ∀ j ∈ v, j.isPlain = true) :
    isPlainMembers (optional key v) = true := by
  cases v with
  | none => rfl
  | some j => exact (isPlainMembers_member key j).trans (h j rfl)

theorem isPlainMembers_flag (b : Bool) : isPlainMembers (flag key b) = true := by
  cases b with
  | true => rfl
  | false => rfl

theorem isPlainMembers_nonempty {es : List Json} (h : isPlainElems es = true) :
    isPlainMembers (nonempty key es) = true := by
  unfold nonempty
  split
  · rfl
  · exact (isPlainMembers_member key _).trans h

end Members

theorem isPlain_bytesJson (s : Text) : (bytesJson s).isPlain = true :=
  isPlainElems_map (fun _ => rfl) s

theorem SeedSpec.isPlain_json (s : SeedSpec) : s.json.isPlain = true := by
  cases s with
  | const s =>
    rw [SeedSpec.json, isPlain, isPlainMembers_append]
    split
    · rfl
    · rw [isPlainMembers_member "value", isPlain_bytesJson]
      rfl
  | account p => rfl
  | arg p => rfl

theorem AddressSpec.isPlain_json (a : AddressSpec) : a.json.isPlain = true := by
  have hProgram : isPlainMembers (optional "program" (a.program.map SeedSpec.json)) = true := by
    refine isPlainMembers_optional _ fun j hj => ?_
    obtain ⟨s, _, rfl⟩ := Option.mem_map.mp hj
    exact s.isPlain_json
  rw [AddressSpec.json, isPlain, isPlainMembers_append, isPlainMembers_member, hProgram, isPlain,
    isPlainElems_map SeedSpec.isPlain_json]
  rfl

theorem AccountSpec.isPlain_json (a : AccountSpec) : a.json.isPlain = true := by
  have hAddress : isPlainMembers (optional "address" (a.address.map .string)) = true := by
    refine isPlainMembers_optional _ fun j hj => ?_
    obtain ⟨s, _, rfl⟩ := Option.mem_map.mp hj
    rfl
  have hDerivation : isPlainMembers (optional "pda" (a.derivation.map AddressSpec.json)) = true := by
    refine isPlainMembers_optional _ fun j hj => ?_
    obtain ⟨d, _, rfl⟩ := Option.mem_map.mp hj
    exact d.isPlain_json
  simp only [AccountSpec.json, isPlain, isPlainMembers_append, isPlainMembers_member,
    isPlainMembers_flag, hAddress, hDerivation, Bool.and_self]

theorem FieldSpec.isPlain_json (f : FieldSpec) : f.json.isPlain = true := rfl

theorem InstructionSpec.isPlain_json (i : InstructionSpec) : i.json.isPlain = true := by
  simp only [InstructionSpec.json, isPlain, isPlainMembers, isPlain_bytesJson,
    isPlainElems_map AccountSpec.isPlain_json, isPlainElems_map FieldSpec.isPlain_json,
    Bool.and_self]

theorem StateSpec.isPlain_accountJson (s : StateSpec) : s.accountJson.isPlain = true := by
  simp only [StateSpec.accountJson, isPlain, isPlainMembers, isPlain_bytesJson, Bool.and_self]

theorem StateSpec.isPlain_typeJson (s : StateSpec) : s.typeJson.isPlain = true := by
  simp only [StateSpec.typeJson, isPlain, isPlainMembers,
    isPlainElems_map FieldSpec.isPlain_json, Bool.and_self]

theorem Description.isPlain_json (d : Description) : d.json.isPlain = true := by
  simp only [Description.json, isPlain, isPlainMembers_append, isPlainMembers_member,
    isPlainMembers, isPlainElems_map InstructionSpec.isPlain_json,
    isPlainMembers_nonempty _ (isPlainElems_map StateSpec.isPlain_accountJson _),
    isPlainMembers_nonempty _ (isPlainElems_map StateSpec.isPlain_typeJson _), Bool.and_self]

/-- The names of a description's members. -/
def Description.keys : List Text := ["address", "metadata", "instructions", "accounts", "types"]

theorem key_of_mem_nonempty {key : Text} {es : List Json} {m : Text × Json}
    (h : m ∈ nonempty key es) : m.1 = key := by
  unfold nonempty at h
  split at h
  · cases h
  · rw [List.mem_singleton.mp h]

theorem Description.exists_json (d : Description) :
    ∃ ms, d.json = .object ms ∧ ∀ m ∈ ms, m.1 ∈ keys := by
  refine ⟨_, rfl, ?_⟩
  simp only [List.forall_mem_append, member, List.forall_mem_singleton]
  refine ⟨⟨⟨⟨?_, ?_⟩, ?_⟩, fun m hm => ?_⟩, fun m hm => ?_⟩
  · exact (by decide : Text.ofString "address" ∈ keys)
  · exact (by decide : Text.ofString "metadata" ∈ keys)
  · exact (by decide : Text.ofString "instructions" ∈ keys)
  · rw [key_of_mem_nonempty hm]
    decide
  · rw [key_of_mem_nonempty hm]
    decide

end Interface

namespace Manifest

theorem Draft.updateMember_unknown (d : Draft) {key : Text}
    (h : Artifact.foldKey key ∉ [Text.ofString "version", "compiler", "artifacts"]) (v : Json) :
    d.updateMember key v = some d := by
  simp only [List.mem_cons, List.not_mem_nil, or_false, not_or] at h
  unfold Draft.updateMember
  simp only [h, if_false]

/-- A document without any member of a manifest reads as an empty one. -/
theorem ofJson?_unknown {ms : List (Text × Json)}
    (h : ∀ m ∈ ms, Artifact.foldKey m.1 ∉ [Text.ofString "version", "compiler", "artifacts"]) :
    ofJson? (.object ms) = some {} := by
  have hFold : ∀ d : Draft, ms.foldlM (fun d m => d.updateMember m.1 m.2) d = some d := by
    induction ms with
    | nil => exact fun d => rfl
    | cons m ms ih =>
      obtain ⟨hm, hms⟩ := List.forall_mem_cons.mp h
      intro d
      rw [List.foldlM_cons, Draft.updateMember_unknown d hm]
      exact ih hms d
  rw [ofJson?, hFold]
  rfl

/-- A description, whatever follows it, is malformed as a manifest or reads as an empty one. -/
theorem ofJson?_description (d : Interface.Description) (rest : Text) {m : Manifest}
    (h : (Json.ofText? (d.text ++ rest)).bind ofJson? = some m) : m = {} := by
  obtain ⟨ms, hObject, hKeys⟩ := d.exists_json
  have hMended : d.json.mended = .object (ms.map fun m => (Text.mended m.1, m.2.mended)) := by
    rw [hObject, Json.mended, Json.mendedMembers_eq_map]
  have hUnknown : ∀ key ∈ Interface.Description.keys, Artifact.foldKey (Text.mended key) ∉
      [Text.ofString "version", "compiler", "artifacts"] := by decide +kernel
  rw [Interface.Description.text, Json.ofText?_text_append d.isPlain_json] at h
  split at h
  · rw [Option.bind_some, hMended, ofJson?_unknown, Option.some.injEq] at h
    · exact h.symm
    · rw [List.forall_mem_map]
      exact fun m hm => hUnknown m.1 (hKeys m hm)
  · cases h

/-- A description is never read as a manifest, whatever follows it. -/
theorem decode_description (d : Interface.Description) (rest : Text) (m : Manifest) :
    decode (d.text ++ rest) ≠ .ok m := by
  intro h
  rw [decode] at h
  cases hRead : (Json.ofText? (d.text ++ rest)).bind ofJson? with
  | none =>
    rw [hRead] at h
    cases h
  | some m' =>
    rw [hRead, ofJson?_description d rest hRead] at h
    cases h

/-- The text of a manifest is no description. -/
theorem fileText_ne_description {version : Int} (h : version = 0 ∨ version = formatVersion)
    (as : List Artifact) (d : Interface.Description) : fileText version as ≠ d.text := by
  intro hSame
  have hRead : (Json.ofText? d.text).bind ofJson? =
      some ⟨formatVersion, compilerId, (sorted as).map Artifact.mended⟩ := by
    rw [← hSame, fileText_of_version h, ofText?_toJson, Option.bind_some,
      ofJson?_toJson (by decide)]
  rw [← List.append_nil d.text] at hRead
  have hVersion : formatVersion = 0 := congrArg Manifest.version (ofJson?_description d [] hRead)
  exact absurd hVersion (by decide)

end Manifest

end AnchorScript
