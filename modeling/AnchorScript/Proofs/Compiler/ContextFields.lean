import AnchorScript.Proofs.Handler.Naming
import AnchorScript.Proofs.Resolution.NamedAccounts
import AnchorScript.Proofs.Program.Extraction

/-!
# Fields of context structs

The accounts of a context struct are the account parameters, whose names are kept apart when the
handler is made, and the program accounts behind them, which are added whatever the parameters are
called. So the fields of a struct are distinct, and with them the accounts of the description,
exactly where no parameter has the identifier of a program account that is added.
-/

namespace AnchorScript

open Outcome

/-- A parameter has the identifier of a program account that is added to the context. -/
def ResolvedInstruction.NamesProgram (i : ResolvedInstruction) : Prop :=
  ∃ a ∈ i.accounts, ∃ q ∈ i.programs, Rust.ident a.name = q.name

theorem ident_eq_programName_iff {name : Text} {q : ProgramAccount} :
    Rust.ident name = q.name ↔ Rust.snakeCase name = q.name := by
  have hPlain : Rust.keywords.contains q.name = false := by
    cases q <;> decide +kernel
  have hHead : q.name.head? ≠ (Text.ofString "r#").head? := by
    cases q <;> decide +kernel
  rw [Rust.ident]
  split
  · rename_i hKeyword
    constructor
    · intro hSame
      refine absurd ?_ hHead
      rw [← hSame]
      rfl
    · intro hSame
      rw [hSame, hPlain] at hKeyword
      cases hKeyword
  · rfl

section Distinct

variable {p : Program} {r : ResolvedInstruction} {t : Handler}

theorem Resolution.nodup_programNames (i : Instruction) (sc : Scope) :
    ((finish i sc).programs.map (·.name)).Nodup := by
  simp only [finish]
  split_ifs <;> decide +kernel

/-- Account parameters of an instruction with a handler are told apart by any spelling that
identifiers are made from. -/
theorem nodup_spellings (hi : r.source.DistinctParams)
    (h : Resolution.resolveInstruction p r.source = .ok r)
    (hHandler : Handler.ofInstruction p r = .ok t) {spell : Text → Text}
    (hSpell : ∀ m n, spell m = spell n → Rust.ident m = Rust.ident n) :
    (r.accounts.map fun a => spell a.name).Nodup := by
  rw [Handler.ofInstruction_eq, bind_eq_ok_iff] at hHandler
  obtain ⟨names, hNames, _⟩ := hHandler
  have hNodup := Resolution.nodup_names hi h
  suffices hMapped : ((r.accounts.map (·.name)).map spell).Nodup by
    rwa [List.map_map] at hMapped
  refine List.Nodup.map_on ?_ hNodup
  intro m hm n hn hSame
  obtain ⟨a, ha, rfl⟩ := List.mem_map.mp hm
  obtain ⟨b, hb, rfl⟩ := List.mem_map.mp hn
  obtain ⟨q, hq, hName, _⟩ := Resolution.exists_param_of_mem h ha
  obtain ⟨q', hq', hName', _⟩ := Resolution.exists_param_of_mem h hb
  rw [← hName, ← hName'] at hSame ⊢
  exact Handler.ident_injOn_of_declareAll hNames (Instruction.mem_declarations_of_param hq)
    (Instruction.mem_declarations_of_param hq') (hSpell _ _ hSame)

/-- Spelled that way, accounts and program accounts are distinct where no account is spelled as a
program. -/
theorem nodup_spellings_append_iff (hi : r.source.DistinctParams)
    (h : Resolution.resolveInstruction p r.source = .ok r)
    (hHandler : Handler.ofInstruction p r = .ok t) {spell : Text → Text}
    (hSpell : ∀ m n, spell m = spell n → Rust.ident m = Rust.ident n)
    (hProgram : ∀ (name : Text) (q : ProgramAccount),
      spell name = q.name ↔ Rust.ident name = q.name) :
    ((r.accounts.map fun a => spell a.name) ++ r.programs.map (·.name)).Nodup ↔
      ¬r.NamesProgram := by
  obtain ⟨sc, _, hFinish⟩ := Resolution.run_of_resolveInstruction h
  have hPrograms : (r.programs.map (·.name)).Nodup :=
    hFinish ▸ Resolution.nodup_programNames r.source sc
  rw [List.nodup_append]
  constructor
  · rintro ⟨_, _, hApart⟩ ⟨a, ha, q, hq, hSame⟩
    exact hApart _ (List.mem_map_of_mem ha) _ (List.mem_map_of_mem hq) ((hProgram _ _).mpr hSame)
  · intro hNone
    refine ⟨nodup_spellings hi h hHandler hSpell, hPrograms, ?_⟩
    intro m hm n hn hSame
    obtain ⟨a, ha, rfl⟩ := List.mem_map.mp hm
    obtain ⟨q, hq, rfl⟩ := List.mem_map.mp hn
    exact hNone ⟨a, ha, q, hq, (hProgram _ _).mp hSame⟩

end Distinct

/-- The fields of each context struct of a compiled program are distinct exactly where no account
parameter has the identifier of an added program account, and so are the accounts of the
description of each instruction. -/
theorem compile_contextFields_nodup_iff {o : CompileOptions} {name src : Text}
    {out : CompileOutput} (h : compile o name src = .ok out) :
    ∃ r hs, resolveSource o name src = .ok r ∧ r.handlers = .ok hs ∧
      out.rust = (Rust.Crate.ofProgram r hs).text ∧
      (∀ t, out.interface = some t → t = (Interface.Description.ofProgram r).text) ∧
      ∀ i ∈ r.instructions,
        (((Rust.ContextStruct.ofInstruction i).fields.map (·.name)).Nodup ↔ ¬i.NamesProgram) ∧
        (((Interface.instructionSpec r.source.programId i).accounts.map (·.name)).Nodup ↔
          ¬i.NamesProgram) := by
  obtain ⟨r, hs, hResolved, hHandlers, hText, hInterface⟩ := compile_ok h
  refine ⟨r, hs, hResolved, hHandlers, hText, hInterface, ?_⟩
  intro i hi
  obtain ⟨hDistinct, hInstruction⟩ := resolveSource_of_mem hResolved hi
  obtain ⟨t, _, ht⟩ := exists_of_mem_left (mapM_eq_ok_iff.mp hHandlers) hi
  constructor
  · have hFields : (Rust.ContextStruct.ofInstruction i).fields.map (·.name) =
        (i.accounts.map fun a => Rust.ident a.name) ++ i.programs.map (·.name) := by
      rw [Rust.ContextStruct.ofInstruction, List.map_append, List.map_map, List.map_map]
      rfl
    rw [hFields]
    exact nodup_spellings_append_iff hDistinct hInstruction ht (fun _ _ hSame => hSame)
      fun _ _ => Iff.rfl
  · have hAccounts : (Interface.instructionSpec r.source.programId i).accounts.map (·.name) =
        (i.accounts.map fun a => Rust.snakeCase a.name) ++ i.programs.map (·.name) := by
      rw [Interface.instructionSpec, List.map_append, List.map_map, List.map_map]
      rfl
    rw [hAccounts]
    refine nodup_spellings_append_iff hDistinct hInstruction ht ?_
      fun _ _ => ident_eq_programName_iff.symm
    intro m n hSame
    rw [Rust.ident, Rust.ident, hSame]

/-- A program whose instruction creates an account and has a parameter named like the program that
does so. -/
def systemParamSource : Text := Text.join "\n" [
  "export default class P \x7b",
  "static PROGRAM_ID = new Pubkey('11111111111111111111111111111111')",
  "run(p: Signer, systemProgram: UncheckedAccount, s: S) \x7b",
  "s.derive(['s']).init()",
  "\x7d\x7d",
  "interface S extends Account \x7b n: u64 \x7d"]

theorem systemParamSource_contextFields_clash : ∃ out,
    compile {} "p.ts" systemParamSource = .ok out ∧
      ∃ r, resolveSource {} "p.ts" systemParamSource = .ok r ∧ ∃ i ∈ r.instructions,
        ¬((Rust.ContextStruct.ofInstruction i).fields.map (·.name)).Nodup ∧
        ¬((Interface.instructionSpec r.source.programId i).accounts.map (·.name)).Nodup := by
  obtain ⟨r, hr, hChecked⟩ := exists_ok_of_any (x := resolveSource {} "p.ts" systemParamSource)
    (fun r => r.handlers.toOption.isSome && r.instructions.any fun i => i.accounts.any fun a =>
      i.programs.any fun q => Rust.ident a.name == q.name) (by
      simp (disch := rfl) only [systemParamSource, Text.ofString_literal]
      decide +kernel)
  obtain ⟨hHandlers, hNames⟩ := Bool.and_eq_true_iff.mp hChecked
  obtain ⟨hs, hHandlers⟩ : ∃ hs, r.handlers = .ok hs := by
    cases hOutcome : r.handlers with
    | error e =>
      rw [hOutcome] at hHandlers
      cases hHandlers
    | ok hs => exact ⟨hs, rfl⟩
  obtain ⟨out, hOut⟩ : ∃ out, compile {} "p.ts" systemParamSource = .ok out := by
    simp only [compile, bind_eq_ok_iff, pure_eq_ok_iff]
    exact ⟨_, r, hr, hs, hHandlers, rfl⟩
  obtain ⟨i, hi, hNames⟩ := List.any_eq_true.mp hNames
  obtain ⟨a, ha, hNames⟩ := List.any_eq_true.mp hNames
  obtain ⟨q, hq, hSame⟩ := List.any_eq_true.mp hNames
  have hClash : i.NamesProgram := ⟨a, ha, q, hq, by simpa using hSame⟩
  obtain ⟨r', _, hr', _, _, _, hDistinct⟩ := compile_contextFields_nodup_iff hOut
  obtain rfl : r = r' := Except.ok.inj (hr.symm.trans hr')
  obtain ⟨hFields, hAccounts⟩ := hDistinct i hi
  exact ⟨out, hOut, r, hr, i, hi, fun hNodup => hFields.mp hNodup hClash,
    fun hNodup => hAccounts.mp hNodup hClash⟩

end AnchorScript
