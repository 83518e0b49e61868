import AnchorScript.Proofs.Compiler.Formatting
import AnchorScript.Proofs.Resolution.Exchange
import AnchorScript.Proofs.Syntax.Rewriting

/-!
# Sources with neighbouring derivations exchanged

The order of derivations that stand next to each other is not part of a program: with two of them
exchanged a source is accepted as before, and the Rust source and the description are the same to
the byte.
-/

namespace AnchorScript

open Outcome

namespace Handler

/-- Frames of instructions with the same declarations and the same resolution. -/
structure Frame.Alike (fr fr' : Frame) : Prop where
  file : fr.program.file = fr'.program.file
  states : fr.program.states = fr'.program.states
  name : fr.instruction.source.name = fr'.instruction.source.name
  params : fr.instruction.source.params = fr'.instruction.source.params
  accounts : fr.instruction.accounts = fr'.instruction.accounts
  tokenProgram : fr.instruction.tokenProgram = fr'.instruction.tokenProgram
  locals : fr.instruction.locals = fr'.instruction.locals
  signerSeeds : fr.instruction.signerSeeds = fr'.instruction.signerSeeds

namespace Frame.Alike

variable {fr fr' : Frame} (h : fr.Alike fr')
include h

theorem refuse : fr.refuse = fr'.refuse := by
  funext kind pos account message
  simp only [Frame.refuse, h.file, h.name]

theorem declare : Handler.declare fr = Handler.declare fr' := by
  funext names name pos
  simp only [Handler.declare, h.refuse]

theorem declareParams : Handler.declareParams fr = Handler.declareParams fr' := by
  funext names ps
  induction ps generalizing names with
  | nil => rfl
  | cons p ps ih => simp only [Handler.declareParams, h.declare, ih]

theorem declareVariables : Handler.declareVariables fr = Handler.declareVariables fr' := by
  funext names body
  induction body generalizing names with
  | nil => rfl
  | cons s rest ih => cases s <;> simp only [Handler.declareVariables, h.declare, ih]

theorem account? : fr.instruction.account? = fr'.instruction.account? := by
  funext name
  simp only [ResolvedInstruction.account?, h.accounts]

theorem exprOf : Handler.exprOf fr = Handler.exprOf fr' := by
  have hState : (⟨fr.program, fr.instruction.source⟩ : Surroundings).stateOf? =
      (⟨fr'.program, fr'.instruction.source⟩ : Surroundings).stateOf? := by
    funext a
    simp only [Surroundings.stateOf?, Program.state?, h.states]
  have hParam : fr.instruction.source.param? = fr'.instruction.source.param? := by
    funext name
    simp only [Instruction.param?, h.params]
  funext bound v
  induction v with
  | neg pos v ih => simp only [Handler.exprOf, ih]
  | paren pos v ih => simp only [Handler.exprOf, ih]
  | binary pos op l r ihLeft ihRight => simp only [Handler.exprOf, ihLeft, ihRight]
  | _ => simp only [Handler.exprOf, fieldExpr, h.refuse, h.account?, h.locals, hState, hParam]

theorem stmtsOf : Handler.stmtsOf fr = Handler.stmtsOf fr' := by
  funext names generated bound index body
  induction body generalizing generated bound index with
  | nil => rfl
  | cons s rest ih =>
    cases s <;>
      simp only [Handler.stmtsOf, invocation, calledProgram, ResolvedInstruction.seedsAt?, h.exprOf,
        h.tokenProgram, h.signerSeeds, ih]

end Frame.Alike

section Exchanged

variable {body body' : List Statement} (h : Swapped Statement.IsDerivation body body')
include h

theorem declareVariables_exchanged (fr : Frame) (names : Names) :
    declareVariables fr names body' = declareVariables fr names body := by
  induction h generalizing names with
  | here hs ht =>
    obtain ⟨pos, d, rfl⟩ := hs
    obtain ⟨pos', d', rfl⟩ := ht
    rfl
  | @there s body body' _ ih => cases s <;> simp only [declareVariables, ih]

/-- Derivations leave nothing behind in the handler, and every other statement keeps its index. -/
theorem stmtsOf_exchanged (fr : Frame) (names : Names) (generated bound : List Text)
    (index : Nat) :
    stmtsOf fr names generated bound index body' = stmtsOf fr names generated bound index body := by
  induction h generalizing generated bound index with
  | here hs ht =>
    obtain ⟨pos, d, rfl⟩ := hs
    obtain ⟨pos', d', rfl⟩ := ht
    rfl
  | @there s body body' _ ih => cases s <;> simp only [stmtsOf, ih]

end Exchanged

theorem ofInstruction_eq_of_alike {p p' : Program} {r : ResolvedInstruction}
    (hFile : p'.file = p.file) (hStates : p'.states = p.states) :
    ofInstruction p' r = ofInstruction p r := by
  have hAlike : Frame.Alike ⟨p', r⟩ ⟨p, r⟩ := ⟨hFile, hStates, rfl, rfl, rfl, rfl, rfl, rfl⟩
  simp only [ofInstruction, hAlike.declareParams, hAlike.declareVariables, hAlike.stmtsOf]

theorem ofInstruction_exchanged {p p' : Program} {r r' : ResolvedInstruction}
    (hFile : p'.file = p.file) (hStates : p'.states = p.states) (h : r.Exchanged r') :
    ofInstruction p' r' = ofInstruction p r := by
  obtain ⟨i, ⟨body, hBody, rfl⟩, rfl⟩ := h
  have hAlike : Frame.Alike ⟨p', { r with source := { r.source with body } }⟩ ⟨p, r⟩ :=
    ⟨hFile, hStates, rfl, rfl, rfl, rfl, rfl, rfl⟩
  simp only [ofInstruction, hAlike.declareParams, hAlike.declareVariables, hAlike.stmtsOf,
    declareVariables_exchanged hBody, stmtsOf_exchanged hBody]
  rfl

end Handler

/-- Programs with the same resolution but for two neighbouring derivations exchanged. -/
structure ResolvedProgram.Exchanged (r r' : ResolvedProgram) : Prop where
  source : r.source.Exchanged r'.source
  instructions : Replaced ResolvedInstruction.Exchanged r.instructions r'.instructions

namespace ResolvedProgram.Exchanged

variable {r r' : ResolvedProgram} (h : r.Exchanged r')
include h

theorem source_eq : ∃ is, r'.source = { r.source with instructions := is } := by
  obtain ⟨is, _, hSource⟩ := h.source
  exact ⟨is, hSource⟩

theorem handlers : r'.handlers = r.handlers := by
  obtain ⟨is, hSource⟩ := h.source_eq
  have hFile : r'.source.file = r.source.file := by rw [hSource]
  have hStates : r'.source.states = r.source.states := by rw [hSource]
  have hMap : r'.instructions.map (Handler.ofInstruction r'.source) =
      r.instructions.map (Handler.ofInstruction r'.source) := by
    refine h.instructions.map_eq fun i i' hi => ?_
    rw [Handler.ofInstruction_exchanged hFile hStates hi,
      Handler.ofInstruction_eq_of_alike hFile hStates]
  have hRead : ∀ is : List ResolvedInstruction, is.mapM (Handler.ofInstruction r'.source) =
      (is.map (Handler.ofInstruction r'.source)).mapM id := by
    intro is
    rw [List.mapM_map]
    rfl
  have hSame : Handler.ofInstruction r'.source = Handler.ofInstruction r.source :=
    funext fun i => Handler.ofInstruction_eq_of_alike hFile hStates
  rw [ResolvedProgram.handlers, ResolvedProgram.handlers, hRead, hMap, ← hRead, hSame]

theorem crate (hs : List Handler) : Rust.Crate.ofProgram r' hs = Rust.Crate.ofProgram r hs := by
  obtain ⟨is, hSource⟩ := h.source_eq
  have hContexts : r'.instructions.map Rust.ContextStruct.ofInstruction =
      r.instructions.map Rust.ContextStruct.ofInstruction := by
    refine h.instructions.map_eq ?_
    rintro i _ ⟨_, ⟨_, _, rfl⟩, rfl⟩
    rfl
  have hTransfer : r'.usesSystemTransfer = r.usesSystemTransfer := by
    refine h.instructions.any_eq ?_
    rintro i _ ⟨_, ⟨_, hBody, rfl⟩, rfl⟩
    exact hBody.perm.any_eq.symm
  have hToken : r'.usesToken = r.usesToken := by
    refine h.instructions.any_eq ?_
    rintro i _ ⟨_, _, rfl⟩
    rfl
  have hAssociated : r'.usesAssociatedToken = r.usesAssociatedToken := by
    refine h.instructions.any_eq ?_
    rintro i _ ⟨_, _, rfl⟩
    rfl
  rw [Rust.Crate.ofProgram, Rust.Crate.ofProgram, hContexts, hTransfer, hToken, hAssociated,
    ResolvedProgram.moduleName, ResolvedProgram.moduleName, hSource]

theorem description : Interface.Description.ofProgram r' = Interface.Description.ofProgram r := by
  obtain ⟨is, hSource⟩ := h.source_eq
  have hId : r'.source.programId = r.source.programId := by rw [hSource]
  have hInstructions : r'.instructions.map (Interface.instructionSpec r.source.programId) =
      r.instructions.map (Interface.instructionSpec r.source.programId) := by
    refine h.instructions.map_eq ?_
    rintro i _ ⟨_, ⟨_, _, rfl⟩, rfl⟩
    rfl
  rw [Interface.Description.ofProgram, Interface.Description.ofProgram, hId, hInstructions, hSource]

end ResolvedProgram.Exchanged

theorem compileFile_exchanged {o : CompileOptions} {name : Text} {f g : Syntax.File}
    {out : CompileOutput} (h : f.Exchanged g) (hOut : compileFile o name f = .ok out) :
    ∃ out', compileFile o name g = .ok out' ∧ out'.rust = out.rust ∧
      out'.interface = out.interface := by
  simp only [compileFile, bind_eq_ok_iff, pure_eq_ok_iff] at hOut ⊢
  obtain ⟨p, hProgram, r, hResolved, hs, hHandlers, rfl⟩ := hOut
  obtain ⟨p', hProgram', hExchanged⟩ := Program.ofFile_exchanged h hProgram
  obtain ⟨is, hResolved', hInstructions⟩ := Program.resolve_exchanged hExchanged hResolved
  obtain ⟨rfl, _⟩ := Program.resolve_eq_ok_iff.mp hResolved
  have hSame : r.Exchanged ⟨p', is⟩ := ⟨hExchanged, hInstructions⟩
  refine ⟨_, ⟨p', hProgram', ⟨p', is⟩, hResolved', hs, hSame.handlers.trans hHandlers, rfl⟩, ?_, ?_⟩
  · rw [hSame.crate]
  · rw [hSame.description]

/-- Files that are the same up to positions compile to the same output. -/
theorem compileFile_of_unplaced_eq {o : CompileOptions} {name : Text} {f g : Syntax.File}
    {out : CompileOutput} (h : g.unplaced = f.unplaced) (hOut : compileFile o name f = .ok out) :
    ∃ out', compileFile o name g = .ok out' ∧ out'.rust = out.rust ∧
      out'.interface = out.interface := by
  have hRight := compileFile_steady o name g
  rw [h] at hRight
  have hAgree := Agree.meet (compileFile_steady o name f) hRight
  rw [hOut] at hAgree
  generalize compileFile o name g = compiled at hAgree ⊢
  cases hAgree with
  | ok hSame =>
    obtain ⟨_, rfl, hSame⟩ := hSame
    exact ⟨_, rfl, congrArg (·.rust) hSame.symm, congrArg (·.interface) hSame.symm⟩

theorem Syntax.File.Exchanged.rearranged {f g : Syntax.File} (h : f.Exchanged g) :
    f.Rearranged g := by
  have hMethod : ∀ {m m' : Syntax.MethodDecl}, m.Exchanged m' ∨ m = m' → m.Rearranged m' := by
    rintro m m' (⟨body, hBody, rfl⟩ | rfl)
    · exact ⟨body, hBody.perm.symm.subset, rfl⟩
    · exact ⟨m.body, List.Subset.refl _, rfl⟩
  have hClass : ∀ {c c' : Syntax.ClassDecl}, c.Exchanged c' ∨ c = c' → c.Rearranged c' := by
    rintro c c' (⟨methods, hMethods, rfl⟩ | rfl)
    · refine ⟨methods, fun m' hm' => ?_, rfl⟩
      obtain ⟨m, hm, hSame⟩ := hMethods.exists_of_mem hm'
      exact ⟨m, hm, hMethod hSame⟩
    · exact ⟨c.methods, fun m hm => ⟨m, hm, hMethod (.inr rfl)⟩, rfl⟩
  obtain ⟨classes, hClasses, rfl⟩ := h
  refine ⟨classes, fun c' hc' => ?_, rfl⟩
  obtain ⟨c, hc, hSame⟩ := hClasses.exists_of_mem hc'
  exact ⟨c, hc, hClass hSame⟩

/-- With two neighbouring derivations exchanged, an accepted program can be written as a source, and
every such source is accepted and compiles to the same. -/
theorem compile_exchanged {o : CompileOptions} {name src : Text} {out : CompileOutput}
    {f g : Syntax.File} (h : compile o name src = .ok out) (hParsed : Syntax.parse name src = .ok f)
    (hExchanged : f.Exchanged g) :
    (∃ src' g', Syntax.parse name src' = .ok g' ∧ g'.unplaced = g.unplaced) ∧
      ∀ src' g', Syntax.parse name src' = .ok g' → g'.unplaced = g.unplaced →
        ∃ out', compile o name src' = .ok out' ∧ out'.rust = out.rust ∧
          out'.interface = out.interface := by
  refine ⟨Syntax.exists_source_of_rearranged hParsed hExchanged.rearranged,
    fun src' g' hParsed' hSame => ?_⟩
  rw [compile_eq_compileFile, hParsed] at h
  obtain ⟨out₁, hOut₁, hRust₁, hInterface₁⟩ := compileFile_exchanged hExchanged h
  obtain ⟨out₂, hOut₂, hRust₂, hInterface₂⟩ := compileFile_of_unplaced_eq hSame hOut₁
  refine ⟨out₂, ?_, hRust₂.trans hRust₁, hInterface₂.trans hInterface₁⟩
  rw [compile_eq_compileFile, hParsed']
  exact hOut₂

/-- A program with two derivations in front of what it stores. -/
def derivingSource (first second : Text) : Text := Text.join "\n" [
  "export default class P \x7b",
  "  static PROGRAM_ID = new Pubkey('11111111111111111111111111111111')",
  "  open(o: Signer, a: S, b: S, n: u64) \x7b",
  first,
  second,
  "    a.bump = a.getBump()",
  "    b.n = n",
  "  \x7d",
  "\x7d",
  "interface S extends Account \x7b n: u64, bump: u8 \x7d"]

def openingText : Text := "    a.derive(['a', o.key])\n      .init(o)"

def checkingText : Text := "    b.deriveWithBump(['b', n.toBytes()], b.bump)"

/-- The only method of the file begins with two derivations. -/
def Syntax.File.beginsWithDerivations : Syntax.File → Bool
  | ⟨_, [⟨_, _, _, _, [⟨_, _, _, s :: t :: _, _⟩], _⟩], _⟩ => s.isDerivation && t.isDerivation
  | _ => false

theorem derivingSource_exchanged :
    ∃ out f g, compile ⟨0, true⟩ "p.ts" (derivingSource openingText checkingText) = .ok out ∧
      Syntax.parse "p.ts" (derivingSource openingText checkingText) = .ok f ∧ f.Exchanged g ∧
      (∃ src' g', Syntax.parse "p.ts" src' = .ok g' ∧ g'.unplaced = g.unplaced) ∧
      ∀ src' g', Syntax.parse "p.ts" src' = .ok g' → g'.unplaced = g.unplaced →
        ∃ out', compile ⟨0, true⟩ "p.ts" src' = .ok out' ∧ out'.rust = out.rust ∧
          out'.interface = out.interface := by
  obtain ⟨out, hOut, -⟩ := exists_ok_of_any
    (x := compile ⟨0, true⟩ "p.ts" (derivingSource openingText checkingText))
    (·.interface.isSome) (by
      simp (disch := rfl) only [derivingSource, openingText, checkingText, Text.ofString_literal]
      decide +kernel)
  obtain ⟨f, hParsed, hBegins⟩ := exists_ok_of_any
    (x := Syntax.parse "p.ts" (derivingSource openingText checkingText))
    Syntax.File.beginsWithDerivations (by
      simp (disch := rfl) only [derivingSource, openingText, checkingText, Text.ofString_literal]
      decide +kernel)
  obtain ⟨g, hExchanged⟩ : ∃ g, f.Exchanged g := by
    unfold Syntax.File.beginsWithDerivations at hBegins
    split at hBegins
    · obtain ⟨hs, ht⟩ := Bool.and_eq_true_iff.mp hBegins
      exact ⟨_, _, .here ⟨_, .here ⟨_, .here hs ht, rfl⟩, rfl⟩, rfl⟩
    · cases hBegins
  exact ⟨out, f, g, hOut, hParsed, hExchanged, compile_exchanged hOut hParsed hExchanged⟩

end AnchorScript
