import AnchorScript.Compiler
import AnchorScript.Proofs.Handler.Placement
import AnchorScript.Proofs.Syntax.PlacedReading

/-!
# Formatting does not matter

Sources with the same tokens, wherever the tokens stand, compile to the same output or are refused
on the same subject: places show in the messages and spans of diagnostics and nowhere else.
-/

namespace AnchorScript

open Outcome

namespace Rust

theorem Constraint.ofAddress_unplaced (a : AddressSource) :
    Constraint.ofAddress a.unplaced = Constraint.ofAddress a := by
  cases a with
  | found ss | stored ss _ =>
    simp only [AddressSource.unplaced, Constraint.ofAddress, List.map_map]
    rfl
  | _ => rfl

theorem ContextField.ofAccount_unplaced (a : AccountRef) :
    ContextField.ofAccount a.unplaced = ContextField.ofAccount a := by
  simp only [ContextField.ofAccount, Constraint.ofAccount, AccountRef.unplaced,
    Constraint.ofAddress_unplaced, AddressSource.isAssociated_unplaced]
  rfl

theorem ContextStruct.ofInstruction_unplaced (i : ResolvedInstruction) :
    ContextStruct.ofInstruction i.unplaced = ContextStruct.ofInstruction i := by
  have hFields : i.unplaced.accounts.map ContextField.ofAccount =
      i.accounts.map ContextField.ofAccount := by
    rw [ResolvedInstruction.unplaced, List.map_map]
    exact List.map_congr_left fun a _ => ContextField.ofAccount_unplaced a
  have hArgs : Handler.argsOf i.unplaced.source = Handler.argsOf i.source :=
    Handler.argsOf_unplaced i.source
  rw [ContextStruct.ofInstruction, ContextStruct.ofInstruction, hFields, hArgs]
  rfl

theorem StateStruct.ofState_unplaced (s : StateType) :
    StateStruct.ofState s.unplaced = StateStruct.ofState s := by
  rw [StateStruct.ofState, StateStruct.ofState, StateType.unplaced, List.map_map]
  rfl

theorem Crate.ofProgram_unplaced (p : ResolvedProgram) (handlers : List Handler) :
    Crate.ofProgram p.unplaced handlers = Crate.ofProgram p handlers := by
  have hStates : p.unplaced.source.states.map StateStruct.ofState =
      p.source.states.map StateStruct.ofState := by
    rw [ResolvedProgram.unplaced, Program.unplaced, List.map_map]
    exact List.map_congr_left fun s _ => StateStruct.ofState_unplaced s
  have hContexts : p.unplaced.instructions.map ContextStruct.ofInstruction =
      p.instructions.map ContextStruct.ofInstruction := by
    rw [ResolvedProgram.unplaced, List.map_map]
    exact List.map_congr_left fun i _ => ContextStruct.ofInstruction_unplaced i
  have hTransfer : p.unplaced.usesSystemTransfer = p.usesSystemTransfer :=
    any_unplaced (fun i => any_unplaced Resolution.isSystemCall_unplaced i.source.body)
      p.instructions
  have hToken : p.unplaced.usesToken = p.usesToken := by
    refine any_unplaced (g := ResolvedInstruction.unplaced) (fun i => ?_) p.instructions
    rw [ResolvedInstruction.unplaced, any_unplaced (g := AccountRef.unplaced) (fun _ => rfl)]
  have hAssociated : p.unplaced.usesAssociatedToken = p.usesAssociatedToken :=
    any_unplaced (g := ResolvedInstruction.unplaced) (fun _ => rfl) p.instructions
  rw [Crate.ofProgram, Crate.ofProgram, hStates, hContexts, hTransfer, hToken, hAssociated]
  rfl

end Rust

namespace Interface

theorem constantAddress?_unplaced (seeds : List Seed) (programId : Text) :
    constantAddress? (seeds.map Seed.unplaced) programId = constantAddress? seeds programId := by
  rw [constantAddress?, constantAddress?, List.mapM_map]
  rfl

theorem accountSpec_unplaced (programId : Text) (a : AccountRef) :
    accountSpec programId a.unplaced = accountSpec programId a := by
  have hDerivation : derivationSpec a.unplaced = derivationSpec a := by
    obtain ⟨name, role, pos, address, token, init, isMutable, closeTo⟩ := a
    cases address with
    | found ss | stored ss _ =>
      simp only [derivationSpec, AccountRef.unplaced, AddressSource.unplaced, List.map_map]
      rfl
    | _ => rfl
  have hFixed : fixedAddress? a.unplaced programId = fixedAddress? a programId := by
    obtain ⟨name, role, pos, address, token, init, isMutable, closeTo⟩ := a
    cases address with
    | found ss | stored ss _ =>
      simp only [fixedAddress?, AccountRef.unplaced, AddressSource.unplaced,
        constantAddress?_unplaced]
    | _ => rfl
  rw [accountSpec, accountSpec, hDerivation, hFixed]
  rfl

theorem instructionSpec_unplaced (programId : Text) (i : ResolvedInstruction) :
    instructionSpec programId i.unplaced = instructionSpec programId i := by
  have hAccounts : i.unplaced.accounts.map (accountSpec programId) =
      i.accounts.map (accountSpec programId) := by
    rw [ResolvedInstruction.unplaced, List.map_map]
    exact List.map_congr_left fun a _ => accountSpec_unplaced programId a
  have hArgs : i.unplaced.source.args.map argSpec = i.source.args.map argSpec := by
    rw [ResolvedInstruction.unplaced, Instruction.args, Instruction.args, Instruction.unplaced,
      List.filter_map, List.map_map]
    rfl
  rw [instructionSpec, instructionSpec, hAccounts, hArgs]
  rfl

theorem stateSpec_unplaced (s : StateType) : stateSpec s.unplaced = stateSpec s := by
  rw [stateSpec, stateSpec, StateType.unplaced, List.map_map]
  rfl

theorem Description.ofProgram_unplaced (p : ResolvedProgram) :
    Description.ofProgram p.unplaced = Description.ofProgram p := by
  have hInstructions : p.unplaced.instructions.map (instructionSpec p.source.programId) =
      p.instructions.map (instructionSpec p.source.programId) := by
    rw [ResolvedProgram.unplaced, List.map_map]
    exact List.map_congr_left fun i _ => instructionSpec_unplaced _ i
  have hStates : p.unplaced.source.states.map stateSpec = p.source.states.map stateSpec := by
    rw [ResolvedProgram.unplaced, Program.unplaced, List.map_map]
    exact List.map_congr_left fun s _ => stateSpec_unplaced s
  have hId : p.unplaced.source.programId = p.source.programId := rfl
  rw [Description.ofProgram, Description.ofProgram, hId, hInstructions, hStates]
  rfl

end Interface

/-- What a token is, wherever it stands. -/
def Token.content (t : Token) : TokenKind × Text × Bool := (t.kind, t.literal, t.newlineBefore)

def CompileOutput.unplaced (out : CompileOutput) : CompileOutput :=
  { out with program := out.program.unplaced }

/-- Compilation from the tree of a source on. -/
def compileFile (o : CompileOptions) (name : Text) (file : Syntax.File) :
    Except Diagnostic CompileOutput := do
  let resolved ← (← Program.ofFile name o.settings file).resolve
  let handlers ← resolved.handlers
  return {
    program := resolved.source
    module := resolved.moduleName
    rust := (Rust.Crate.ofProgram resolved handlers).text
    interface := if o.emitInterface then some (Interface.Description.ofProgram resolved).text
      else none }

theorem compile_eq_compileFile (o : CompileOptions) (name src : Text) :
    compile o name src = Syntax.parse name src >>= compileFile o name := by
  simp only [compile, resolveSource, extractProgram, bind_assoc]
  rfl

theorem compileFile_steady (o : CompileOptions) (name : Text) (file : Syntax.File) :
    Steady CompileOutput.unplaced (compileFile o name file) (compileFile o [] file.unplaced) := by
  refine .bind (Program.ofFile_steady name o.settings file) fun program => ?_
  refine .bind program.resolve_steady fun resolved => ?_
  refine .bind resolved.handlers_steady fun handlers => ?_
  rw [id, Rust.Crate.ofProgram_unplaced, Interface.Description.ofProgram_unplaced]
  exact .ok

/-- Compilation from the tokens of a source on. -/
def compileTokens (o : CompileOptions) (name : Text) (ts : List Token) :
    Except Diagnostic CompileOutput := do
  compileFile o name
    (← (Syntax.Parser.file ts).mapError (Syntax.Parser.Failure.diagnostic name))

theorem compile_eq_compileTokens (o : CompileOptions) (name src : Text) :
    compile o name src = compileTokens o name (tokens src) :=
  compile_eq_compileFile o name src

theorem file_steady (name : Text) (ts : List Token) :
    Steady Syntax.File.unplaced
      ((Syntax.Parser.file ts).mapError (Syntax.Parser.Failure.diagnostic name))
      ((Syntax.Parser.file (ts.map Token.unplaced)).mapError
        (Syntax.Parser.Failure.diagnostic [])) :=
  Agree.mapError (Syntax.Parser.file_alike ts) fun _ _ _ => rfl

theorem compileTokens_steady (o : CompileOptions) (name : Text) (ts : List Token) :
    Steady CompileOutput.unplaced (compileTokens o name ts)
      (compileTokens o [] (ts.map Token.unplaced)) :=
  .bind (file_steady name ts) (compileFile_steady o name)

/-- The name of a source shows in its diagnostics and nowhere else. -/
theorem compile_rename {o : CompileOptions} {name src : Text} {out : CompileOutput}
    (h : compile o name src = .ok out) (name' : Text) :
    ∃ out', compile o name' src = .ok out' ∧ out'.program.name = out.program.name ∧
      out'.rust = out.rust ∧ out'.interface = out.interface := by
  have hAgree := Agree.meet (compileTokens_steady o name (tokens src))
    (compileTokens_steady o name' (tokens src))
  rw [← compile_eq_compileTokens, ← compile_eq_compileTokens, h] at hAgree
  generalize compile o name' src = compiled at hAgree ⊢
  cases hAgree with
  | ok hSame =>
    obtain ⟨_, rfl, hSame⟩ := hSame
    exact ⟨_, rfl, congrArg (·.program.name) hSame.symm, congrArg (·.rust) hSame.symm,
      congrArg (·.interface) hSame.symm⟩

theorem compile_of_content_eq {src src' : Text}
    (h : (tokens src').map Token.content = (tokens src).map Token.content) (o : CompileOptions)
    (name : Text) :
    Agree
      (fun d d' : Diagnostic => d'.kind = d.kind ∧ d'.instruction = d.instruction ∧
        d'.account = d.account ∧ d'.field = d.field)
      (fun out out' : CompileOutput => out'.program.name = out.program.name ∧
        out'.module = out.module ∧ out'.program.programId = out.program.programId ∧
        out'.rust = out.rust ∧ out'.interface = out.interface)
      (compile o name src) (compile o name src') := by
  have hTokens : (tokens src').map Token.unplaced = (tokens src).map Token.unplaced := by
    have hPlaced := congrArg (List.map fun c : TokenKind × Text × Bool =>
      (⟨c.1, c.2.1, .start, .start, c.2.2⟩ : Token)) h
    rwa [List.map_map, List.map_map] at hPlaced
  have hLeft := compileTokens_steady o name (tokens src)
  have hRight := compileTokens_steady o name (tokens src')
  rw [hTokens] at hRight
  rw [compile_eq_compileTokens, compile_eq_compileTokens]
  refine (Agree.meet hLeft hRight).mono ?_ ?_
  · rintro d d' ⟨hub, hd, hd'⟩
    have hSame : d'.subject = d.subject := hd'.symm.trans hd
    simpa only [Diagnostic.subject, Prod.mk.injEq] using hSame
  · rintro out out' ⟨_, rfl, hSame⟩
    have hField {β : Type} (field : CompileOutput → β) : field out'.unplaced = field out.unplaced :=
      congrArg field hSame.symm
    exact ⟨hField (·.program.name), hField (·.module), hField (·.program.programId),
      hField (·.rust), hField (·.interface)⟩

/-- A program that creates an account, on few lines. -/
def denseSource : Text := Text.join "\n" [
  "export default class P\x7bstatic PROGRAM_ID=new Pubkey('11111111111111111111111111111111')",
  "run(o:Signer,s:S,n:u64)\x7bs.derive(['s',o.key]).init()",
  "s.n=n*2\x7d\x7dinterface S extends Account\x7bn:u64\x7d"]

/-- The same tokens with blanks, comments and empty lines around them. -/
def airySource : Text := Text.join "\n" [
  "/* program */ export default class P \x7b static PROGRAM_ID " ++
    "= new Pubkey('11111111111111111111111111111111') // system",
  "",
  "  run(o: Signer, s: S, n: u64) \x7b s.derive(['s', o.key]).init()",
  "    /* double",
  "    */ s.n = n * 2 \x7d \x7d interface S extends Account \x7b n: u64 \x7d"]

theorem airySource_compiled : airySource ≠ denseSource ∧
    (tokens airySource).map Token.content = (tokens denseSource).map Token.content ∧
    ∃ out out', compile ⟨0, true⟩ "p.ts" denseSource = .ok out ∧
      compile ⟨0, true⟩ "p.ts" airySource = .ok out' ∧ out.interface.isSome ∧
      out'.rust = out.rust ∧ out'.interface = out.interface := by
  have hContent : (tokens airySource).map Token.content =
      (tokens denseSource).map Token.content := by
    simp (disch := rfl) only [airySource, denseSource, Text.ofString_literal]
    decide +kernel
  refine ⟨by decide +kernel, hContent, ?_⟩
  obtain ⟨out, hOut, hDescribed⟩ := exists_ok_of_any
    (x := compile ⟨0, true⟩ "p.ts" denseSource) (·.interface.isSome) (by
      simp (disch := rfl) only [denseSource, Text.ofString_literal]
      decide +kernel)
  have hAgree := compile_of_content_eq hContent ⟨0, true⟩ "p.ts"
  rw [hOut] at hAgree
  generalize compile ⟨0, true⟩ "p.ts" airySource = compiled at hAgree ⊢
  cases hAgree with
  | ok hSame => exact ⟨out, _, hOut, rfl, hDescribed, hSame.2.2.2⟩

end AnchorScript
