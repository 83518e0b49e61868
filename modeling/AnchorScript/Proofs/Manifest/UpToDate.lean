import AnchorScript.Proofs.Hash.Keccak256
import AnchorScript.Proofs.Manifest.RoundTrip
import Mathlib.Data.Set.Function

/-!
# Records tell when a source need not be compiled again

The options of a record are the ones that shape the output, so equal fingerprints compile every
source alike. As long as no two of the texts in question have one digest, a source is up to date
exactly if its texts are the recorded ones, and compiling it would then write the files that are
there.
-/

namespace AnchorScript

namespace CompileOptions

/-- The fingerprint tells all that a compilation sees of the options. -/
theorem fingerprint_eq_iff {o o' : CompileOptions} : o.fingerprint = o'.fingerprint ↔
    o.settings = o'.settings ∧ o.emitInterface = o'.emitInterface := by
  constructor
  · intro h
    have hSplit : ∀ o : CompileOptions, ∃ rest, Json.Ends rest ∧
        o.fingerprint = Text.ofString "string_max_len=" ++ (Text.ofNat o.settings.stringMaxLen ++ rest) ∧
          rest = Text.ofString ",emit_idl=" ++
            (if o.emitInterface then Text.ofString "true" else "false") := by
      intro o
      refine ⟨_, ?_, ?_, rfl⟩
      · rintro b ⟨⟩
        exact .inl rfl
      · simp only [fingerprint, List.append_assoc]
    obtain ⟨rest, hEnds, hText, hRest⟩ := hSplit o
    obtain ⟨rest', hEnds', hText', hRest'⟩ := hSplit o'
    rw [hText, hText'] at h
    have hRead := congrArg Json.readDigits (List.append_cancel_left h)
    rw [Json.readDigits_ofNat _ hEnds, Json.readDigits_ofNat _ hEnds', Option.some.injEq,
      Prod.mk.injEq] at hRead
    obtain ⟨hNumber, hTail⟩ := hRead
    refine ⟨?_, ?_⟩
    · exact congrArg Program.Settings.mk (Text.ofNat_injective hNumber)
    · rw [hRest, hRest'] at hTail
      have hFlag := List.append_cancel_left hTail
      cases hLeft : o.emitInterface <;> cases hRight : o'.emitInterface <;>
        simp [hLeft, hRight] at hFlag ⊢ <;> exact absurd hFlag (by decide)
  · rintro ⟨hSettings, hEmit⟩
    rw [fingerprint, fingerprint, hSettings, hEmit]

end CompileOptions

/-- Options with one fingerprint compile every source alike. -/
theorem compile_eq_of_fingerprint {o o' : CompileOptions} (h : o.fingerprint = o'.fingerprint)
    (name src : Text) : compile o name src = compile o' name src := by
  obtain ⟨hSettings, hEmit⟩ := CompileOptions.fingerprint_eq_iff.mp h
  simp only [compile, resolveSource, extractProgram, hSettings, hEmit]

theorem Keccak256.hex_ne_nil (s : Text) : hex s ≠ [] := List.cons_ne_nil _ _

namespace Artifact

theorem sameHash_hex_iff {s t : Text} : sameHash (Keccak256.hex s) (Keccak256.hex t) = true ↔
    Keccak256.hash s = Keccak256.hash t := by
  rw [sameHash, decide_eq_true_eq, Keccak256.map_lowerByte_hex, Keccak256.map_lowerByte_hex]
  constructor
  · exact Keccak256.hex_injective
  · intro h
    rw [Keccak256.hex, Keccak256.hex, h]

/-- The record is that of a source compiled by this compiler with this outcome. -/
structure Records (a : Artifact) (o : CompileOptions) (src : Text) (out : CompileOutput) : Prop where
  program : a.program = out.program.name
  compiler : a.compiler = compilerId
  options : a.options = o.fingerprint
  sourceHash : a.sourceHash = Keccak256.hex src
  outputHash : a.outputHash = Keccak256.hex out.rust
  interfaceHash : a.interfaceHash = (out.interface.map Keccak256.hex).getD []

theorem records_ofOutput {interface : Text} {out : CompileOutput}
    (h : out.interface.isSome = true → interface ≠ []) (source output src : Text)
    (o : CompileOptions) : (ofOutput source output interface src o out).Records o src out := by
  unfold ofOutput
  cases hInterface : out.interface with
  | none => exact ⟨rfl, rfl, rfl, rfl, rfl, by rw [hInterface]; rfl⟩
  | some text =>
    have hPath : interface.isEmpty = false := by
      rw [hInterface] at h
      simpa using h rfl
    simp only [hPath, Bool.false_eq_true, if_false]
    exact ⟨rfl, rfl, rfl, rfl, rfl, by rw [hInterface]; rfl⟩

theorem Records.isUpToDate_iff {a : Artifact} {o₀ o : CompileOptions} {src₀ src output : Text}
    {out₀ : CompileOutput} {interface : Option Text} (h : a.Records o₀ src₀ out₀) :
    a.isUpToDate o src output interface = true ↔ o₀.fingerprint = o.fingerprint ∧
      Keccak256.hash src₀ = Keccak256.hash src ∧
      Keccak256.hash out₀.rust = Keccak256.hash output ∧
      out₀.interface.map Keccak256.hash = interface.map Keccak256.hash := by
  simp only [isUpToDate, h.compiler, h.options, h.sourceHash, h.outputHash, decide_true,
    Bool.true_and, Bool.and_eq_true, decide_eq_true_eq, sameHash_hex_iff, and_assoc]
  refine and_congr_right' (and_congr_right' (and_congr_right' ?_))
  rw [h.interfaceHash]
  cases out₀.interface <;> cases interface <;> simp [Keccak256.hex_ne_nil, sameHash_hex_iff]

/-- The texts that a record and the files on disk are compared by. -/
def compared (src₀ : Text) (out₀ : CompileOutput) (src output : Text) (interface : Option Text) :
    Set Text :=
  {t | t ∈ [src₀, out₀.rust, src, output] ++ out₀.interface.toList ++ interface.toList}

/-- Where no two of the texts have one digest, the record matches its own texts only. -/
theorem Records.eq_of_isUpToDate {a : Artifact} {o₀ o : CompileOptions} {src₀ src output : Text}
    {out₀ : CompileOutput} {interface : Option Text} (h : a.Records o₀ src₀ out₀)
    (hHash : Set.InjOn Keccak256.hash (compared src₀ out₀ src output interface))
    (hCurrent : a.isUpToDate o src output interface = true) :
    o₀.fingerprint = o.fingerprint ∧ src₀ = src ∧ out₀.rust = output ∧ out₀.interface = interface := by
  obtain ⟨hOptions, hSource, hOutput, hInterface⟩ := h.isUpToDate_iff.mp hCurrent
  refine ⟨hOptions, hHash ?_ ?_ hSource, hHash ?_ ?_ hOutput, ?_⟩
  · simp [compared]
  · simp [compared]
  · simp [compared]
  · simp [compared]
  · cases hLeft : out₀.interface with
    | none =>
      cases interface with
      | none => rfl
      | some text => simp [hLeft] at hInterface
    | some text₀ =>
      cases interface with
      | none => simp [hLeft] at hInterface
      | some text =>
        simp only [hLeft, Option.map_some, Option.some.injEq] at hInterface
        rw [hHash ?_ ?_ hInterface]
        · simp [compared, hLeft]
        · simp [compared]

/-- A record of a compiled source matches a source and the files on disk exactly if compiling again
would change nothing. If it matches, compiling succeeds and gives the texts on disk, with a
description exactly if one is kept; and what the recorded compilation took and gave matches under
all options with the same fingerprint. Digests are taken not to collide on the texts compared. -/
theorem isUpToDate_ofOutput {o₀ : CompileOptions} {name src₀ : Text} {out₀ : CompileOutput}
    (h₀ : compile o₀ name src₀ = .ok out₀) (source outputPath : Text) {interfacePath : Text}
    (hPath : interfacePath ≠ []) (o : CompileOptions) (src output : Text) (interface : Option Text)
    (hHash : Set.InjOn Keccak256.hash (compared src₀ out₀ src output interface)) :
    ((ofOutput source outputPath interfacePath src₀ o₀ out₀).isUpToDate o src output interface = true →
      ∃ out, compile o name src = .ok out ∧ out.rust = output ∧ out.interface = interface) ∧
    (o.fingerprint = o₀.fingerprint → src = src₀ → output = out₀.rust → interface = out₀.interface →
      (ofOutput source outputPath interfacePath src₀ o₀ out₀).isUpToDate o src output interface =
        true) := by
  have hRecords : (ofOutput source outputPath interfacePath src₀ o₀ out₀).Records o₀ src₀ out₀ :=
    records_ofOutput (fun _ => hPath) source outputPath src₀ o₀
  constructor
  · intro hCurrent
    obtain ⟨hOptions, rfl, hOutput, hInterface⟩ := hRecords.eq_of_isUpToDate hHash hCurrent
    exact ⟨out₀, by rw [← compile_eq_of_fingerprint hOptions, h₀], hOutput, hInterface⟩
  · rintro hOptions rfl rfl rfl
    exact hRecords.isUpToDate_iff.mpr ⟨hOptions.symm, rfl, rfl, rfl⟩

/-- A program without instructions. -/
def idleSource : Text :=
  "export default class P\x7bstatic PROGRAM_ID=new Pubkey('11111111111111111111111111111111');\x7d"

def idleRust : Text :=
  "use anchor_lang::prelude::*;

declare_id!(\"11111111111111111111111111111111\");

#[program]
pub mod p \x7b
    use super::*;
\x7d
"

theorem injOn_hash_idle : Set.InjOn Keccak256.hash {idleSource, idleRust} := by
  have hNe : Keccak256.hash idleSource ≠ Keccak256.hash idleRust := by
    simp (disch := rfl) only [Keccak256.hash_eq_digest, idleSource, idleRust, Text.ofString_literal]
    decide +kernel
  rw [Set.injOn_pair]
  intro hEqual
  exact absurd hEqual hNe

theorem compile_idleSource :
    ∃ out, compile {} "p.ts" idleSource = .ok out ∧ out.rust = idleRust ∧ out.interface = none := by
  obtain ⟨out, hOut, hTexts⟩ := Outcome.exists_ok_of_any (x := compile {} "p.ts" idleSource)
    (fun out => out.rust == idleRust && out.interface == none) (by
      simp (disch := rfl) only [idleSource, idleRust, Text.ofString_literal]
      decide +kernel)
  simp only [Bool.and_eq_true, beq_iff_eq] at hTexts
  exact ⟨out, hOut, hTexts⟩

/-- The reservation of 32 bytes is the default, so it compiles the program as no options do. -/
theorem isUpToDate_ofOutput_idle : ∃ out, compile {} "p.ts" idleSource = .ok out ∧
    (ofOutput "p.ts" "p.rs" "p.json" idleSource {} out).isUpToDate ⟨32, false⟩ idleSource idleRust none =
      true ∧
    ∃ out', compile ⟨32, false⟩ "p.ts" idleSource = .ok out' ∧ out'.rust = idleRust ∧
      out'.interface = none := by
  obtain ⟨out, hOut, hRust, hNone⟩ := compile_idleSource
  have hHash : Set.InjOn Keccak256.hash (compared idleSource out idleSource idleRust none) := by
    refine injOn_hash_idle.mono ?_
    rintro t ht
    simp only [compared, hRust, hNone, Option.toList_none, List.append_nil, Set.mem_ofPred_eq,
      List.mem_cons, List.not_mem_nil, or_false] at ht
    rcases ht with h | h | h | h
    · exact .inl h
    · exact .inr h
    · exact .inl h
    · exact .inr h
  have hPath : Text.ofString "p.json" ≠ [] := by decide
  obtain ⟨hRecompiles, hMatches⟩ := isUpToDate_ofOutput hOut "p.ts" "p.rs" hPath ⟨32, false⟩
    idleSource idleRust none hHash
  have hCurrent := hMatches (by decide +kernel) rfl hRust.symm hNone.symm
  exact ⟨out, hOut, hCurrent, hRecompiles hCurrent⟩

end Artifact

end AnchorScript
