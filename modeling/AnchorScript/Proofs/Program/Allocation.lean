import AnchorScript.Proofs.AccountData.RoundTrip
import AnchorScript.Proofs.Resolution.NamedAccounts
import AnchorScript.Rust.Crate

/-!
# Allocations in machine words

The allocation of an account is added up in signed 64-bit words, one field after another. It is the
number of bytes that the fields take exactly as long as that number is one of these words; a string
may reserve nearly all of them, so beyond that the allocation is another number, and it is written
into the output like any other.
-/

namespace AnchorScript

open Outcome

theorem signedWord_eq_self_iff {n : Nat} : signedWord n = n ↔ n < Nat.pow 2 63 := by
  have hPower : Nat.pow 2 63 = 9223372036854775808 := rfl
  unfold signedWord
  rw [hPower, Int.bmod_def]
  omega

namespace ValueKind

theorem minSize_le_byteSize (k : ValueKind) : k.minSize ≤ k.byteSize := by
  cases k with
  | string n => exact Nat.le_add_right 4 n
  | _ => exact Nat.le_refl _

theorem minSize_le (k : ValueKind) : k.minSize ≤ 32 := by
  cases k with
  | int t =>
    obtain ⟨width, signed⟩ := t
    have hWidth : ∀ w : IntWidth, w.bits / 8 ≤ 32 := fun w => by cases w <;> decide
    exact hWidth width
  | string n => exact (by decide : 4 ≤ 32)
  | _ => decide

end ValueKind

namespace StateType

/-- The sizes of the fields added to the discriminator's one after another, every size and every sum
a signed 64-bit word. -/
def wordTotal (size : ValueKind → Nat) (s : StateType) : Int :=
  s.fields.foldl (fun n f => (n + signedWord (size f.type.kind)).bmod 18446744073709551616)
    discriminatorSize

/-- Wrapping at every step comes to the same as wrapping the sum. -/
theorem wordTotal_eq (size : ValueKind → Nat) (s : StateType) :
    s.wordTotal size = signedWord
      (discriminatorSize + s.fields.foldr (fun f n => size f.type.kind + n) 0) := by
  have hFold : ∀ (fs : List StateField) (n : Nat),
      fs.foldl (fun n f => (n + signedWord (size f.type.kind)).bmod 18446744073709551616)
        (signedWord n) = signedWord (n + fs.foldr (fun f n => size f.type.kind + n) 0) := by
    intro fs
    induction fs with
    | nil =>
      intro n
      rw [List.foldl_nil, List.foldr_nil, Nat.add_zero]
    | cons f fs ih =>
      intro n
      have hStep : (signedWord n + signedWord (size f.type.kind)).bmod 18446744073709551616 =
          signedWord (n + size f.type.kind) := by
        unfold signedWord
        rw [Int.bmod_add_bmod, Int.add_bmod_bmod, Int.natCast_add]
      rw [List.foldl_cons, hStep, ih, List.foldr_cons, Nat.add_assoc]
  have hStart : signedWord discriminatorSize = discriminatorSize :=
    signedWord_eq_self_iff.mpr (by decide)
  rw [wordTotal, ← hStart]
  exact hFold s.fields discriminatorSize

theorem minSize_le_byteSize (s : StateType) : s.minSize ≤ s.byteSize := by
  refine Nat.add_le_add_left ?_ discriminatorSize
  induction s.fields with
  | nil => exact Nat.le_refl 0
  | cons f fs ih => exact Nat.add_le_add f.type.kind.minSize_le_byteSize ih

/-- No field asks for more than 32 bytes of every account. -/
theorem minSize_le (s : StateType) : s.minSize ≤ discriminatorSize + 32 * s.fields.length := by
  refine Nat.add_le_add_left ?_ discriminatorSize
  induction s.fields with
  | nil => exact Nat.le_refl 0
  | cons f fs ih =>
    have hField := f.type.kind.minSize_le
    rw [List.foldr_cons, List.length_cons]
    omega

/-- The sizes of a state type in words are those of its fields. -/
structure SizesExact (s : StateType) : Prop where
  space : s.wordTotal ValueKind.byteSize = s.byteSize
  minSize : s.wordTotal ValueKind.minSize = s.minSize
  ordered : discriminatorSize ≤ s.minSize ∧ (s.minSize : Int) ≤ s.space

theorem sizesExact_iff (s : StateType) : s.SizesExact ↔ s.byteSize < Nat.pow 2 63 := by
  have hSpace : s.wordTotal ValueKind.byteSize = s.space := wordTotal_eq _ s
  constructor
  · intro h
    exact signedWord_eq_self_iff.mp (hSpace.symm.trans h.space)
  · intro h
    have hSame : s.space = s.byteSize := signedWord_eq_self_iff.mpr h
    refine ⟨hSpace.trans hSame, (wordTotal_eq _ s).trans (signedWord_eq_self_iff.mpr ?_),
      Nat.le_add_right _ _, ?_⟩
    · exact Nat.lt_of_le_of_lt s.minSize_le_byteSize h
    · rw [hSame]
      exact Int.ofNat_le.mpr s.minSize_le_byteSize

end StateType

namespace Scope

theorem allocation_eq_ok_some {env : Surroundings} {pos : SourcePos} {ref : AccountRef}
    {form : DeriveForm} {n : Int} (h : allocation env pos ref form = .ok (some n)) :
    ∃ st, env.stateOf? ref = some st ∧ n = st.space := by
  unfold allocation at h
  split at h
  · split at h
    · next st hState =>
      simp only [Except.ok.injEq, Option.some.injEq] at h
      exact ⟨st, hState, h.symm⟩
    · cases h
  · split at h <;> cases h
  · cases h
  · cases h

end Scope

theorem Surroundings.stateOf?_eq_some {env : Surroundings} {a : AccountRef} {st : StateType}
    (h : env.stateOf? a = some st) : st ∈ env.program.states ∧ a.role = .state st.name := by
  unfold stateOf? at h
  split at h
  · next n hRole =>
    have hName : st.name = n := by simpa using List.find?_some h
    exact ⟨List.mem_of_find?_eq_some h, hName ▸ hRole⟩
  · cases h

theorem Rust.Constraint.exists_init_of_space {a : AccountRef} {n : Int}
    (h : Constraint.space n ∈ Constraint.ofAccount a) :
    ∃ c, a.init = some c ∧ c.space = some n := by
  simp only [ofAccount, List.mem_append] at h
  rcases h with ((h | h) | h) | h
  · split at h
    · next c hInit =>
      obtain ⟨m, hm, hSame⟩ : ∃ m ∈ c.space, Constraint.space m = .space n := by
        simpa [ofInit] using h
      cases hSame
      exact ⟨c, hInit, hm⟩
    · split at h <;> simp at h
  · cases hAddress : a.address <;> simp [ofAddress, hAddress] at h
  · split at h <;> simp at h
  · simp at h

/-- An allocation in the attributes of an account is the one of the account's state type. -/
theorem exists_state_of_space {p : Program} {i : Instruction} {r : ResolvedInstruction}
    (hi : i.DistinctParams) (h : Resolution.resolveInstruction p i = .ok r) {a : AccountRef}
    (ha : a ∈ r.accounts) {n : Int} (hn : Rust.Constraint.space n ∈ Rust.Constraint.ofAccount a) :
    ∃ st ∈ p.states, a.role = .state st.name ∧ n = st.space := by
  obtain ⟨c, hInit, hSpace⟩ := Rust.Constraint.exists_init_of_space hn
  have hSound := Resolution.sound_of_resolveInstruction hi h ha
  obtain ⟨d, hd, hAccount, _⟩ := (hSound.created c hInit).requested
  obtain ⟨pos, hMem⟩ := mem_derivations.mp hd
  obtain ⟨before, sc, ref, seeds, o, hBefore, hRef, _, _, hCreated, hOrigin⟩ :=
    Resolution.exists_origin_of_derive h hMem
  have hCreation : o.init = some c :=
    (congrArg Origin.init (hOrigin a ha hAccount.symm)).symm.trans hInit
  obtain ⟨_, _, hAllocated, _⟩ := (Scope.initialization_ok hCreated).2 c hCreation
  rw [hSpace] at hAllocated
  obtain ⟨st, hState, hSize⟩ := Scope.allocation_eq_ok_some hAllocated
  obtain ⟨hDeclared, hRole⟩ := Surroundings.stateOf?_eq_some hState
  refine ⟨st, hDeclared, ?_, hSize⟩
  -- the record keeps the role that it had when it was derived
  have hFound := recordOf?_eq_some_of_mem (Resolution.nodup_names hi h) ha
  have hRoles := (Resolution.hasRolesOf_of_resolveInstruction hi h a.name).trans
    (hBefore.hasRolesOf (.initial hi) a.name).symm
  change recordOf? sc.accounts d.account = some ref at hRef
  rw [hFound, ← hAccount, hRef] at hRoles
  exact (Option.some.inj hRoles).trans hRole

/-- The sizes of a state type, added up in words, are the sums of its fields' sizes exactly if all
fields with the discriminator take fewer than 2^63 bytes; the bytes that every account has are so
few unless there are more than 2^57 fields. Every allocation in the output is that of a state type,
as it is added up in words. -/
theorem allocation_exact_iff {o : CompileOptions} {name src : Text} {p : Program}
    (h : extractProgram o name src = .ok p) :
    (∀ st ∈ p.states, st.wordTotal ValueKind.byteSize = st.space ∧
      (st.SizesExact ↔ st.byteSize < Nat.pow 2 63) ∧
      (st.wordTotal ValueKind.minSize = st.minSize ↔ st.minSize < Nat.pow 2 63) ∧
      st.minSize ≤ StateType.discriminatorSize + 32 * st.fields.length) ∧
    ∀ r hs, p.resolve = .ok r → ∀ c ∈ (Rust.Crate.ofProgram r hs).contexts, ∀ f ∈ c.fields,
      ∀ n, Rust.Constraint.space n ∈ f.constraints →
        ∃ st ∈ p.states, f.type = (Role.state st.name).rust ∧ n = st.space := by
  constructor
  · intro st _
    refine ⟨st.wordTotal_eq _, st.sizesExact_iff, ?_, st.minSize_le⟩
    rw [st.wordTotal_eq]
    exact signedWord_eq_self_iff
  · intro r hs hResolved c hc f hf n hn
    obtain ⟨i, hi, rfl⟩ := List.mem_map.mp hc
    obtain ⟨rfl, _⟩ := Program.resolve_eq_ok_iff.mp hResolved
    obtain ⟨hSource, hInstruction⟩ := Program.resolved_of_mem hResolved hi
    rcases List.mem_append.mp hf with hf | hf
    · obtain ⟨a, ha, rfl⟩ := List.mem_map.mp hf
      obtain ⟨st, hState, hRole, hSpace⟩ :=
        exists_state_of_space (extractProgram_distinctParams h _ hSource) hInstruction ha hn
      exact ⟨st, hState, congrArg Role.rust hRole, hSpace⟩
    · obtain ⟨q, _, rfl⟩ := List.mem_map.mp hf
      cases hn

/-- A string that reserves as many bytes as a signed word can say. -/
def reservedSource : Text := Text.join [10] [
  "export default class P \x7b",
  "static PROGRAM_ID = new Pubkey('11111111111111111111111111111111')",
  "run(p: Signer, s: S) \x7b",
  "s.derive(['s']).init()",
  "\x7d",
  "\x7d",
  "interface S extends Account \x7b n: u64; a: Str<9223372036854775807> \x7d"]

/-- The account is created with a negative allocation. -/
theorem reservedSource_wraps : ∃ p r st, extractProgram {} "p.ts" reservedSource = .ok p ∧
    p.resolve = .ok r ∧ st ∈ p.states ∧ st.byteSize = 9223372036854775827 ∧ ¬st.SizesExact ∧
    st.wordTotal ValueKind.byteSize = -9223372036854775789 ∧
    ((Rust.Crate.ofProgram r []).contexts.any fun c => c.fields.any fun f => f.constraints.any
      (·.text = "space = -9223372036854775789")) = true := by
  obtain ⟨p, hp, hChecked⟩ := exists_ok_of_any (x := extractProgram {} "p.ts" reservedSource)
    (fun p => (p.states.any fun st => st.byteSize == 9223372036854775827 &&
        st.space == -9223372036854775789) &&
      p.resolve.toOption.any fun r => (Rust.Crate.ofProgram r []).contexts.any fun c =>
        c.fields.any fun f => f.constraints.any (·.text = "space = -9223372036854775789"))
    (by
      simp (disch := rfl) only [reservedSource, Text.ofString_literal]
      decide +kernel)
  rw [Bool.and_eq_true] at hChecked
  obtain ⟨hStates, hOutput⟩ := hChecked
  obtain ⟨st, hState, hSizes⟩ := List.any_eq_true.mp hStates
  obtain ⟨hBytes, hSpace⟩ := Bool.and_eq_true_iff.mp hSizes
  obtain ⟨r, hr, hText⟩ := exists_ok_of_any _ hOutput
  obtain ⟨hWords, hExact, _⟩ := (allocation_exact_iff hp).1 st hState
  refine ⟨p, r, st, hp, hr, hState, eq_of_beq hBytes, fun h => ?_, ?_, hText⟩
  · have hSmall := hExact.mp h
    rw [eq_of_beq hBytes] at hSmall
    exact absurd hSmall (by decide)
  · exact hWords.trans (eq_of_beq hSpace)

end AnchorScript
