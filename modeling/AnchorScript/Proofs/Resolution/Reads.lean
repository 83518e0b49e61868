import AnchorScript.Proofs.Resolution.SeedList

/-!
# What a statement reads

Values and seed lists are built from literals and from reads: of arguments, variables, addresses,
state fields and bumps. `Readable` says what an accepted read has found in the scope it stands in.
Every read of an accepted statement is readable, wherever in the statement it stands, and a
derivation reads no field of an account that the instruction creates.
-/

namespace AnchorScript

open Outcome

/-- The literals and reads that a value is built from. -/
def Value.leaves : Value → List Value
  | .binary _ _ l r => l.leaves ++ r.leaves
  | .neg _ v | .paren _ v => v.leaves
  | v => [v]

/-- The seeds of a derivation, and the stored bump that may follow them. -/
def DeriveForm.values : DeriveForm → List Value
  | .withBump values bump => values ++ [bump]
  | form => form.seedValues

/-- The values a statement is written with. -/
def Statement.values : Statement → List Value
  | .derive _ d => d.form.values
  | .assign _ a => [a.value]
  | .call _ c => c.amount :: c.signerSeeds.getD []
  | .bind _ l => [l.value]
  | .close .. => []

def Statement.reads (s : Statement) : List Value := s.values.flatMap Value.leaves

namespace Scope

/-- A literal, or a read that finds in the scope what it names. A field of an account that the
instruction creates is found once it is written. -/
inductive Readable (env : Surroundings) (sc : Scope) : Value → Prop
  | int {pos : SourcePos} {lit : Text} : Readable env sc (.int pos lit)
  | bool {pos : SourcePos} {b : Bool} : Readable env sc (.bool pos b)
  | string {pos : SourcePos} {s : Text} : Readable env sc (.string pos s)
  | arg {pos : SourcePos} {name : Text} {asBytes : Bool} {t : ValueType}
      (hType : env.instruction.argType? name = some t) : Readable env sc (.arg pos name asBytes)
  | var {pos : SourcePos} {name : Text} {asBytes : Bool} {t : ValueType}
      (hType : sc.varType? name = some t) : Readable env sc (.var pos name asBytes)
  | key {pos : SourcePos} {account : Text} {asBytes : Bool} {ref : AccountRef}
      (hRef : sc.account? account = some ref) : Readable env sc (.key pos account asBytes)
  | field {pos : SourcePos} {account field : Text} {asBytes : Bool} {f : StateField}
      (hField : ((sc.account? account).bind env.stateOf?).bind (·.field? field) = some f)
      (hWritten : env.initializes account = true → ⟨account, field⟩ ∈ sc.written) :
      Readable env sc (.field pos account field asBytes)
  | bump {pos : SourcePos} {account : Text} {ref : AccountRef}
      (hRef : sc.account? account = some ref) (hDerived : ref.isProgramDerived = true) :
      Readable env sc (.bump pos account)

variable {sc : Scope} {env : Surroundings} {about : Text} {v : Value}

theorem field?_of_stateField {account field : Text} {pos : SourcePos} {f : StateField}
    (h : sc.stateField env account field pos = .ok f) :
    ((sc.account? account).bind env.stateOf?).bind (·.field? field) = some f := by
  unfold stateField at h
  split at h
  · cases h
  · rename_i ref hRef
    split at h
    · cases h
    · rename_i st hState
      split at h
      · cases h
      · rename_i f' hField
        cases h
        rw [hRef, Option.bind_some, hState, Option.bind_some, hField]

theorem readable_of_fieldType {pos pos' : SourcePos} {account field : Text} {asBytes : Bool}
    {t : ValueType} (h : sc.fieldType env pos account field = .ok t) :
    Readable env sc (.field pos' account field asBytes) := by
  simp only [fieldType, bind_eq_ok_iff, refused_or_eq_ok_iff] at h
  obtain ⟨f, hField, hWritten, _⟩ := h
  refine .field (field?_of_stateField hField) fun hCreated => ?_
  simpa [hCreated] using hWritten

theorem readable_of_checkBump {pos pos' : SourcePos} {account : Text}
    (h : sc.checkBump env pos account = .ok ()) : Readable env sc (.bump pos' account) := by
  unfold checkBump at h
  split at h
  · cases h
  · rename_i ref hRef
    simp only [allowed_or_eq_ok_iff] at h
    exact .bump hRef h.1

theorem readable_of_typeOf {t : ValueType} (h : sc.typeOf env about v = .ok t) :
    ∀ w ∈ v.leaves, Readable env sc w := by
  induction v generalizing t with
  | int => exact List.forall_mem_singleton.mpr .int
  | bool => exact List.forall_mem_singleton.mpr .bool
  | string => exact List.forall_mem_singleton.mpr .string
  | arg pos name asBytes =>
    simp only [typeOf, refused_or_eq_ok_iff] at h
    obtain ⟨_, h⟩ := h
    split at h
    · rename_i t' hType
      exact List.forall_mem_singleton.mpr (.arg hType)
    · cases h
  | var pos name asBytes =>
    simp only [typeOf, refused_or_eq_ok_iff] at h
    obtain ⟨_, h⟩ := h
    split at h
    · rename_i t' hType
      exact List.forall_mem_singleton.mpr (.var hType)
    · cases h
  | account => cases h
  | key pos account asBytes =>
    simp only [typeOf, refused_or_eq_ok_iff] at h
    obtain ⟨_, h⟩ := h
    split at h
    · rename_i ref hRef
      exact List.forall_mem_singleton.mpr (.key hRef)
    · cases h
  | field pos account field asBytes =>
    simp only [typeOf, refused_or_eq_ok_iff] at h
    exact List.forall_mem_singleton.mpr (readable_of_fieldType h.2)
  | bump pos account =>
    simp only [typeOf, bind_eq_ok_iff] at h
    obtain ⟨_, hBump, _⟩ := h
    exact List.forall_mem_singleton.mpr (readable_of_checkBump hBump)
  | binary pos op l r ihLeft ihRight =>
    simp only [typeOf, bind_eq_ok_iff] at h
    obtain ⟨lt, hLeft, rt, hRight, _⟩ := h
    exact List.forall_mem_append.mpr ⟨ihLeft hLeft, ihRight hRight⟩
  | neg pos v ih =>
    simp only [typeOf, bind_eq_ok_iff] at h
    obtain ⟨t', hInner, _⟩ := h
    exact ih hInner
  | paren pos v ih => exact ih h

/-- The value reads no field of an account that the instruction creates. -/
def ReadsExisting (env : Surroundings) (v : Value) : Prop :=
  ∀ pos account field asBytes, v = .field pos account field asBytes →
    env.initializes account = false

/-- A seed is a leaf, and is readable. -/
theorem readable_of_seedSource {use : SeedUse} {isLast : Bool} {source : SeedSource}
    (h : sc.seedSource env about use isLast v = .ok source) :
    v.leaves = [v] ∧ Readable env sc v ∧ (use = .address → ReadsExisting env v) := by
  unfold seedSource at h
  split at h
  · exact ⟨rfl, .string, fun _ _ _ _ _ hSame => by cases hSame⟩
  · split at h
    · rename_i ref hRef
      exact ⟨rfl, .key hRef, fun _ _ _ _ _ hSame => by cases hSame⟩
    · cases h
  · split at h
    · rename_i t hType
      exact ⟨rfl, .arg hType, fun _ _ _ _ _ hSame => by cases hSame⟩
    · cases h
  · rename_i pos account field asBytes
    simp only [fieldSeed, bind_eq_ok_iff] at h
    obtain ⟨f, hField, h⟩ := h
    cases use with
    | address =>
      simp only [refused_or_eq_ok_iff, Bool.not_eq_true] at h
      refine ⟨rfl, .field (field?_of_stateField hField) ?_, ?_⟩
      · intro hCreated
        rw [h.1] at hCreated
        cases hCreated
      · rintro _ _ _ _ _ hSame
        cases hSame
        exact h.1
    | signer =>
      simp only [bind_eq_ok_iff] at h
      obtain ⟨t, hType, _⟩ := h
      exact ⟨rfl, readable_of_fieldType hType, fun hUse => by cases hUse⟩
  · simp only [bumpSeed, refused_or_eq_ok_iff, bind_eq_ok_iff] at h
    obtain ⟨_, _, _, hBump, _⟩ := h
    exact ⟨rfl, readable_of_checkBump hBump, fun _ _ _ _ _ hSame => by cases hSame⟩
  · split at h
    · cases h
    · rename_i t hType
      exact ⟨rfl, .var hType, fun _ _ _ _ _ hSame => by cases hSame⟩
  · cases h

theorem exists_seedSource_of_mem {use : SeedUse} {vs : List Value} {ss : List Seed}
    (h : sc.seedList env about use vs = .ok ss) (hv : v ∈ vs) :
    ∃ isLast source, sc.seedSource env about use isLast v = .ok source := by
  induction vs generalizing ss with
  | nil => cases hv
  | cons w vs ih =>
    obtain ⟨source, rest, hSource, hRest, _⟩ := seedList_cons_eq_ok_iff.mp h
    rcases List.mem_cons.mp hv with rfl | hv
    · exact ⟨_, source, hSource⟩
    · exact ih hRest hv

theorem readable_of_seeds {use : SeedUse} {vs : List Value} {ss : List Seed}
    (h : sc.seeds env about use vs = .ok ss) :
    ∀ w ∈ vs.flatMap Value.leaves,
      Readable env sc w ∧ (use = .address → ReadsExisting env w) := by
  intro w hw
  obtain ⟨v, hv, hw⟩ := List.mem_flatMap.mp hw
  obtain ⟨_, _, hSource⟩ := exists_seedSource_of_mem (seeds_ok h).2 hv
  obtain ⟨hLeaves, hReadable⟩ := readable_of_seedSource hSource
  rw [hLeaves] at hw
  obtain rfl := List.mem_singleton.mp hw
  exact hReadable

theorem readable_of_bumpField {bump : FieldRef} (h : sc.bumpField env about v = .ok bump) :
    ∀ w ∈ v.leaves, Readable env sc w ∧ ReadsExisting env w := by
  unfold bumpField at h
  split at h
  · rename_i pos account field asBytes
    split at h
    · cases h
    · rename_i st hState
      split at h
      · cases h
      · rename_i f hField
        simp only [refused_or_eq_ok_iff, Bool.not_eq_true] at h
        obtain ⟨_, hExisting, _⟩ := h
        refine List.forall_mem_singleton.mpr ⟨.field (f := f) ?_ ?_, ?_⟩
        · rw [hState, Option.bind_some, hField]
        · intro hCreated
          rw [hExisting] at hCreated
          cases hCreated
        · rintro _ _ _ _ hSame
          cases hSame
          exact hExisting
  · cases h

theorem Step.readable_derive {index : Nat} {sc' : Scope} {pos : SourcePos} {d : Derive}
    (h : Step env index sc (.derive pos d) sc') :
    ∀ w ∈ d.form.values.flatMap Value.leaves, Readable env sc w ∧ ReadsExisting env w := by
  cases h with
  | @derive _ _ ref seeds o hRef hForm hSeeds hToken hAddress hInit =>
    have hSeedValues : ∀ w ∈ d.form.seedValues.flatMap Value.leaves,
        Readable env sc w ∧ ReadsExisting env w :=
      fun w hw => (readable_of_seeds hSeeds w hw).imp_right fun hExisting => hExisting rfl
    unfold DeriveForm.values
    split
    · rename_i values bump hWith
      simp only [addressSource, hWith, bind_eq_ok_iff] at hAddress
      obtain ⟨stored, hBump, _⟩ := hAddress
      rw [hWith] at hSeedValues
      rw [List.flatMap_append, List.flatMap_singleton]
      exact List.forall_mem_append.mpr ⟨hSeedValues, readable_of_bumpField hBump⟩
    · exact hSeedValues

theorem readable_of_callSeeds {pos : SourcePos} {c : CrossProgramCall} {seeds : Option (List Seed)}
    (h : sc.callSeeds env pos c = .ok seeds) :
    ∀ w ∈ (c.signerSeeds.getD []).flatMap Value.leaves, Readable env sc w := by
  unfold callSeeds at h
  split at h
  · rename_i hNone
    simp [hNone]
  · rename_i values hValues
    simp only [refused_or_eq_ok_iff, bind_eq_ok_iff] at h
    obtain ⟨_, list, hList, _⟩ := h
    rw [hValues, Option.getD_some]
    exact fun w hw => (readable_of_seeds hList w hw).1

/-- Every read of an accepted statement is readable in the scope before it. -/
theorem Step.readable {index : Nat} {sc' : Scope} {s : Statement} (h : Step env index sc s sc') :
    ∀ w ∈ s.reads, Readable env sc w := by
  cases s with
  | derive pos d => exact fun w hw => (h.readable_derive w hw).1
  | assign pos a =>
    cases h with
    | assign hTarget hType =>
      rw [Statement.reads, Statement.values, List.flatMap_singleton]
      exact readable_of_typeOf hType
  | call pos c =>
    cases h with
    | call hParticipants hRoles hAmount hSeeds =>
      simp only [checkAmount, bind_eq_ok_iff] at hAmount
      obtain ⟨t, hType, _⟩ := hAmount
      rw [Statement.reads, Statement.values, List.flatMap_cons]
      exact List.forall_mem_append.mpr ⟨readable_of_typeOf hType, readable_of_callSeeds hSeeds⟩
  | bind pos l =>
    cases h with
    | bind hFound =>
      rw [Statement.reads, Statement.values, List.flatMap_singleton]
      exact readable_of_typeOf hFound
  | close pos c =>
    intro w hw
    cases hw

end Scope

end AnchorScript
