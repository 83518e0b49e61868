import AnchorScript.Proofs.Manifest.Document

/-!
# Manifests survive their documents

A manifest with distinct sources is written in one canonical way and read back as it was, with its
records in order. Every record that a build makes may be written.

A manifest maps sources to their records, and the last record put for a source is the one it keeps.
A manifest that was read may hold several records of one source: the first of them counts, and it is
the one that a new record replaces.
-/

namespace AnchorScript

namespace Manifest

theorem sorted_perm (as : List Artifact) : (sorted as).Perm as := by
  unfold sorted
  split
  · exact List.mergeSort_perm as _
  · exact Quicksort.sort_perm _ as

theorem pairwise_sorted {as : List Artifact} (h : (as.map (·.source)).Nodup) :
    (sorted as).Pairwise fun a b => a.source ≤ b.source := by
  have hSorted : (as.mergeSort fun a b => decide (a.source ≤ b.source)).Pairwise fun a b =>
      decide (a.source ≤ b.source) = true := by
    refine List.pairwise_mergeSort ?_ ?_ as
    · intro a b c hab hbc
      exact decide_eq_true (List.le_trans (of_decide_eq_true hab) (of_decide_eq_true hbc))
    · intro a b
      rcases List.le_total a.source b.source with hab | hba
      · simp [hab]
      · simp [hba]
  rw [sorted, if_pos h]
  exact hSorted.imp of_decide_eq_true

theorem pairwise_lt_sorted {as : List Artifact} (h : (as.map (·.source)).Nodup) :
    (sorted as).Pairwise fun a b => a.source < b.source := by
  have hDistinct : ((sorted as).map (·.source)).Nodup := ((sorted_perm as).map _).nodup_iff.mpr h
  refine ((pairwise_sorted h).and (List.pairwise_map.mp hDistinct)).imp ?_
  rintro a b ⟨hLe, hNe⟩
  by_contra hNot
  exact hNe (List.le_antisymm hLe (List.not_lt.mp hNot))

/-- Records with distinct sources have one order. -/
theorem sorted_eq_of_perm {as bs : List Artifact} (h : (as.map (·.source)).Nodup)
    (hPerm : bs.Perm as) : sorted bs = sorted as := by
  have hBoth : (sorted bs).Perm (sorted as) :=
    (sorted_perm bs).trans (hPerm.trans (sorted_perm as).symm)
  refine hBoth.eq_of_pairwise ?_ (pairwise_sorted ((hPerm.map _).nodup_iff.mpr h))
    (pairwise_sorted h)
  intro a b ha hb hab hba
  refine List.inj_on_of_nodup_map h ?_ ((sorted_perm as).mem_iff.mp hb) (List.le_antisymm hab hba)
  exact hPerm.mem_iff.mp ((sorted_perm bs).mem_iff.mp ha)

theorem mem_of_lookup {m : Manifest} {source : Text} {a : Artifact}
    (h : m.lookup source = some a) : a ∈ m.artifacts ∧ a.source = source := by
  refine ⟨List.mem_of_find?_eq_some h, ?_⟩
  have hFound := List.find?_some h
  exact of_decide_eq_true hFound

theorem lookup_eq_some_iff {m : Manifest} (h : (m.artifacts.map (·.source)).Nodup) {source : Text}
    {a : Artifact} : m.lookup source = some a ↔ a ∈ m.artifacts ∧ a.source = source := by
  constructor
  · exact mem_of_lookup
  · rintro ⟨ha, rfl⟩
    cases hFound : m.lookup a.source with
    | none => exact absurd (decide_eq_true rfl) (List.find?_eq_none.mp hFound a ha)
    | some b =>
      obtain ⟨hb, hSource⟩ := mem_of_lookup hFound
      rw [List.inj_on_of_nodup_map h hb ha hSource]

/-- With distinct sources the order of the records does not matter. -/
theorem lookup_eq_of_perm {m m' : Manifest} (h : (m.artifacts.map (·.source)).Nodup)
    (hPerm : m'.artifacts.Perm m.artifacts) (source : Text) : m'.lookup source = m.lookup source := by
  have h' : (m'.artifacts.map (·.source)).Nodup := (hPerm.map _).nodup_iff.mpr h
  ext a
  rw [lookup_eq_some_iff h', lookup_eq_some_iff h, hPerm.mem_iff]

end Manifest

namespace Artifact

theorem checkHash_hex (s : Text) : checkHash (Keccak256.hex s) = .ok () := by
  have hAscii := Keccak256.isAscii_hex s
  have hLower : Text.toLower (Keccak256.hex s) = Keccak256.hex s := by
    rw [Text.toLower_of_isAscii hAscii, Keccak256.map_lowerByte_hex]
  have hTrim : Text.trimSpace (Keccak256.hex s) = Keccak256.hex s := by
    refine Text.trimSpace_of_forall ?_
    rw [Text.pieces_of_isAscii hAscii, List.forall_mem_map]
    exact Keccak256.forall_mem_hex (P := fun b => (Text.Piece.char (Text.byteChar b)).isSpace = false)
      (by decide) (by decide) s
  have hDigits : Text.dropStart? "0x" (Keccak256.hex s) = some (Text.hex (Keccak256.hash s)) := by
    rw [Text.dropStart?, Keccak256.hex, if_pos (List.isPrefixOf_iff_prefix.mpr (List.prefix_append _ _)),
      List.drop_left]
  have hNone : (Text.hex (Keccak256.hash s)).find? (fun b => (Text.hexValue? b).isNone) = none := by
    rw [List.find?_eq_none]
    intro b hb
    exact Text.forall_isHexDigit (P := fun b => ¬(Text.hexValue? b).isNone = true) (by decide)
      (Text.isHexDigit_of_mem_hex hb)
  have hMarked : (Keccak256.hex s).isEmpty = false := rfl
  simp only [checkHash, hLower, hTrim, hMarked, hDigits, Keccak256.length_digits, hNone,
    Bool.false_eq_true, if_false, ne_eq, not_true_eq_false]

theorem validate_eq_ok_iff {a : Artifact} : a.validate = .ok () ↔
    Text.trimSpace a.source ≠ [] ∧ checkHash a.sourceHash = .ok () ∧
      checkHash a.outputHash = .ok () ∧
        (a.interfaceHash ≠ [] → checkHash a.interfaceHash = .ok ()) := by
  by_cases hBlank : Text.trimSpace a.source = []
  · simp [validate, hBlank, throw, throwThe, MonadExceptOf.throw]
  · by_cases hHash : a.interfaceHash = []
    · simp [validate, hBlank, hHash, Unique.exists_iff]
    · simp [validate, hBlank, hHash, Unique.exists_iff]

theorem validate_ofOutput {source : Text} (h : Text.trimSpace source ≠ [])
    (output interface src : Text) (o : CompileOptions) (out : CompileOutput) :
    (ofOutput source output interface src o out).validate = .ok () := by
  rw [validate_eq_ok_iff, ofOutput]
  cases out.interface with
  | none => exact ⟨h, checkHash_hex _, checkHash_hex _, fun hNone => absurd rfl hNone⟩
  | some text =>
    dsimp only
    split
    · exact ⟨h, checkHash_hex _, checkHash_hex _, fun hNone => absurd rfl hNone⟩
    · exact ⟨h, checkHash_hex _, checkHash_hex _, fun _ => checkHash_hex _⟩

/-- All texts of a record. -/
def texts (a : Artifact) : List Text :=
  [a.source, a.output, a.interface, a.program, a.programId, a.compiler, a.options, a.sourceHash,
    a.outputHash, a.interfaceHash]

theorem mended_of_isUtf8 {a : Artifact} (h : ∀ s ∈ a.texts, Text.isUtf8 s = true) :
    a.mended = a := by
  have hTexts : ∀ s ∈ a.texts, Text.mended s = s := fun s hs => Text.mended_of_isUtf8 (h s hs)
  simp only [texts, List.forall_mem_cons] at hTexts
  simp only [mended, hTexts]

end Artifact

namespace Manifest

/-- The text of a manifest with these records. -/
def fileText (version : Int) (as : List Artifact) : Text :=
  (toJson (if version = 0 then formatVersion else version) (sorted as)).text ++ "\n"

/-- A manifest is written when its records are valid. -/
theorem encode_eq_ok {m : Manifest} (h : ∀ a ∈ m.artifacts, a.validate = .ok ()) :
    m.encode = .ok (fileText m.version m.artifacts) := by
  have hChecked : (sorted m.artifacts).forM Artifact.validate = .ok () :=
    Outcome.forM_eq_ok fun a ha => h a ((sorted_perm _).mem_iff.mp ha)
  rw [encode, hChecked]
  rfl

theorem fileText_of_version {version : Int} (h : version = 0 ∨ version = formatVersion)
    (as : List Artifact) :
    fileText version as = (toJson formatVersion (sorted as)).text ++ "\n" := by
  rcases h with rfl | rfl
  · rfl
  · rfl

/-- Manifests survive their documents, and the document does not depend on the order of the records.
Any records with distinct sources and valid texts come back in the order of their sources, so every
source has the record it had. A record of a compiled source is valid if its path is not blank. -/
theorem encode_reads_back :
    (∀ m : Manifest, m.version = 0 ∨ m.version = formatVersion →
      (m.artifacts.map (·.source)).Nodup →
      (∀ a ∈ m.artifacts, (∀ s ∈ a.texts, Text.isUtf8 s = true) ∧ a.validate = .ok ()) →
        ∃ text as, m.encode = .ok text ∧ decode text = .ok ⟨formatVersion, compilerId, as⟩ ∧
          as.Perm m.artifacts ∧ as.Pairwise (fun a b => a.source < b.source) ∧
          (∀ source, lookup ⟨formatVersion, compilerId, as⟩ source = m.lookup source) ∧
          ∀ bs : List Artifact, bs.Perm m.artifacts → { m with artifacts := bs }.encode = .ok text) ∧
    ∀ source : Text, Text.trimSpace source ≠ [] →
      ∀ (output interface src : Text) (o : CompileOptions) (out : CompileOutput),
        (Artifact.ofOutput source output interface src o out).validate = .ok () := by
  refine ⟨?_, fun source h output interface src o out =>
    Artifact.validate_ofOutput h output interface src o out⟩
  intro m hVersion hDistinct hRecords
  have hPerm := sorted_perm m.artifacts
  have hValid : ∀ a ∈ m.artifacts, a.validate = .ok () := fun a ha => (hRecords a ha).2
  have hMended : (sorted m.artifacts).map Artifact.mended = sorted m.artifacts :=
    (List.map_congr_left fun a ha =>
      Artifact.mended_of_isUtf8 (hRecords a (hPerm.mem_iff.mp ha)).1).trans (List.map_id _)
  refine ⟨fileText m.version m.artifacts, sorted m.artifacts, encode_eq_ok hValid, ?_, hPerm, ?_,
    ?_, ?_⟩
  · have hChecked : (sorted m.artifacts).forM (fun a => a.validate.mapError Error.artifact) = .ok () :=
      Outcome.forM_eq_ok fun a ha =>
        Outcome.mapError_eq_ok_iff.mpr (hValid a (hPerm.mem_iff.mp ha))
    rw [fileText_of_version hVersion, decode_toJson, hMended, hChecked]
    rfl
  · exact pairwise_lt_sorted hDistinct
  · exact lookup_eq_of_perm hDistinct hPerm
  · intro bs hbs
    have hSame : sorted bs = sorted m.artifacts := sorted_eq_of_perm hDistinct hbs
    rw [encode_eq_ok fun b hb => hValid b (hbs.mem_iff.mp hb), fileText, hSame, ← fileText]

/-- Two records out of order, one with markup and a control character in its texts, and the record
of a program that does nothing. -/
theorem encode_reads_back_two :
    let zeros : Text := Text.ofString "0x" ++ List.replicate 64 48
    let first : Artifact :=
      { source := "src/a.ts", output := "<a&b>\t\"", sourceHash := zeros, outputHash := zeros }
    let second : Artifact :=
      { source := "src/é.ts", sourceHash := zeros, outputHash := zeros, interfaceHash := zeros }
    (∃ text, (Manifest.mk 0 [] [second, first]).encode = .ok text ∧
      (Manifest.mk 0 [] [first, second]).encode = .ok text ∧
      ∃ as, decode text = .ok ⟨formatVersion, compilerId, as⟩ ∧ as.Perm [second, first]) ∧
    ∀ out, (Artifact.ofOutput "src/a.ts" "a.rs" [] [] {} out).validate = .ok () := by
  intro zeros first second
  have hTexts : ∀ a ∈ [second, first], ∀ s ∈ a.texts, Text.isUtf8 s = true := by decide +kernel
  have hValid : ∀ a ∈ [second, first], a.validate = .ok () := by
    have hChecked : ∀ a ∈ [second, first], a.validate.toOption.any (fun _ => true) = true := by
      decide +kernel
    intro a ha
    obtain ⟨_, hOk, _⟩ := Outcome.exists_ok_of_any _ (hChecked a ha)
    exact hOk
  obtain ⟨text, as, hEncode, hDecode, hPerm, _, _, hSame⟩ := encode_reads_back.1
    ⟨0, [], [second, first]⟩ (.inl rfl) (by decide) fun a ha => ⟨hTexts a ha, hValid a ha⟩
  exact ⟨⟨text, hEncode, hSame _ (.swap second first []), as, hDecode, hPerm⟩,
    fun out => encode_reads_back.2 "src/a.ts" (by decide +kernel) _ _ _ _ out⟩

/-- One record put among others: in the place of the first one of its source, or after all of them
when none has its source. -/
inductive Placed (a : Artifact) : List Artifact → List Artifact → Prop
  | overwritten {before after : List Artifact} {old : Artifact} (hSource : old.source = a.source)
      (hBefore : ∀ b ∈ before, b.source ≠ a.source) :
      Placed a (before ++ old :: after) (before ++ a :: after)
  | added {as : List Artifact} (hNew : ∀ b ∈ as, b.source ≠ a.source) : Placed a as (as ++ [a])

namespace Placed

variable {a : Artifact} {as as' : List Artifact}

theorem cons {b : Artifact} (hb : b.source ≠ a.source) (h : Placed a as as') :
    Placed a (b :: as) (b :: as') := by
  cases h with
  | overwritten hSource hBefore => exact .overwritten hSource (List.forall_mem_cons.mpr ⟨hb, hBefore⟩)
  | added hNew => exact .added (List.forall_mem_cons.mpr ⟨hb, hNew⟩)

/-- The new record is found at its source; at any other source nothing changes. -/
theorem find?_source (h : Placed a as as') (p : Text) :
    as'.find? (·.source = p) = if p = a.source then some a else as.find? (·.source = p) := by
  have hFirst : ∀ {before : List Artifact}, (∀ b ∈ before, b.source ≠ a.source) →
      before.find? (·.source = a.source) = none := fun hBefore =>
    List.find?_eq_none.mpr fun b hb => by simpa using hBefore b hb
  split
  · next hp =>
    subst hp
    cases h with
    | overwritten _ hBefore => simp [List.find?_append, hFirst hBefore]
    | added hNew => simp [List.find?_append, hFirst hNew]
  · next hp =>
    cases h with
    | overwritten hSource _ => simp [List.find?_append, hSource, Ne.symm hp]
    | added _ => simp [List.find?_append, Ne.symm hp]

theorem nodup (h : Placed a as as') (hDistinct : (as.map (·.source)).Nodup) :
    (as'.map (·.source)).Nodup := by
  cases h with
  | overwritten hSource _ => simpa [hSource] using hDistinct
  | added hNew =>
    rw [List.map_append, List.nodup_append]
    refine ⟨hDistinct, List.nodup_singleton _, ?_⟩
    simpa using hNew

end Placed

theorem placed_putArtifact (a : Artifact) (as : List Artifact) :
    Placed a as (putArtifact a as) := by
  induction as with
  | nil => exact .added fun b hb => by cases hb
  | cons b bs ih =>
    rw [putArtifact]
    split
    · next hSource =>
      have hNone : ∀ c ∈ ([] : List Artifact), c.source ≠ a.source := fun c hc => by cases hc
      exact .overwritten hSource hNone
    · next hSource => exact ih.cons hSource

/-- Putting a record changes what is found at its source only. -/
theorem lookup_put (m : Manifest) (a : Artifact) (p : Text) :
    (m.put a).lookup p = if p = a.source then some a else m.lookup p :=
  (placed_putArtifact a m.artifacts).find?_source p

/-- What a run of records changes: the last record of each source is found, and where there is none
the manifest is asked as it was. -/
theorem lookup_foldl_put (as : List Artifact) (m : Manifest) (p : Text) :
    (as.foldl put m).lookup p = (as.reverse.find? (·.source = p)).or (m.lookup p) := by
  induction as generalizing m with
  | nil => rfl
  | cons a as ih =>
    rw [List.foldl_cons, ih, lookup_put, List.reverse_cons, List.find?_append, Option.or_assoc]
    congr 1
    by_cases hp : p = a.source
    · simp [hp]
    · simp [hp, Ne.symm hp]

/-- A run of records never repeats a source that was not repeated before. -/
theorem nodup_foldl_put (as : List Artifact) {m : Manifest}
    (h : (m.artifacts.map (·.source)).Nodup) :
    ((as.foldl put m).artifacts.map (·.source)).Nodup := by
  induction as generalizing m with
  | nil => exact h
  | cons a as ih => exact ih ((placed_putArtifact a m.artifacts).nodup h)

/-- The records of a run that began with none are the last ones of their sources, and every source
of the run has one. -/
theorem mem_foldl_put_iff (as : List Artifact) (version : Int) (compiler : Text) (b : Artifact) :
    b ∈ (as.foldl put { version, compiler }).artifacts ↔
      as.reverse.find? (·.source = b.source) = some b := by
  have hDistinct := nodup_foldl_put as (m := { version, compiler }) List.nodup_nil
  have hFound := lookup_foldl_put as { version, compiler } b.source
  rw [show lookup { version, compiler } b.source = none from rfl, Option.or_none] at hFound
  rw [← hFound, lookup_eq_some_iff hDistinct]
  exact (and_iff_left rfl).symm

/-- A manifest is a map in which the last record of a source counts. Putting a record changes what
is found at its source and nowhere else, whatever the manifest holds, repeated sources included, and
leaves all other records in their order; and a manifest made of any records, put one after another,
holds for every source of theirs exactly its last record. -/
theorem put_last_wins :
    (∀ (m : Manifest) (a : Artifact) (p : Text),
      (m.put a).lookup p = if p = a.source then some a else m.lookup p) ∧
    (∀ (m : Manifest) (a : Artifact), (m.put a).version = m.version ∧
      (m.put a).compiler = m.compiler ∧ Placed a m.artifacts (m.put a).artifacts) ∧
    ∀ (version : Int) (compiler : Text) (as : List Artifact),
      ((as.foldl put { version, compiler }).artifacts.map (·.source)).Nodup ∧
      (∀ b, b ∈ (as.foldl put { version, compiler }).artifacts ↔
        as.reverse.find? (·.source = b.source) = some b) ∧
      ∀ p, (as.foldl put { version, compiler }).lookup p = as.reverse.find? (·.source = p) := by
  refine ⟨lookup_put, fun m a => ⟨rfl, rfl, placed_putArtifact a m.artifacts⟩,
    fun version compiler as => ⟨nodup_foldl_put as List.nodup_nil,
      mem_foldl_put_iff as version compiler, fun p => ?_⟩⟩
  rw [lookup_foldl_put]
  exact Option.or_none

end Manifest

end AnchorScript
