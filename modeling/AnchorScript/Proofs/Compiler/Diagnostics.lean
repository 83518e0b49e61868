import AnchorScript.Proofs.Handler.Totality
import AnchorScript.Proofs.Resolution.Positions

/-!
# Every failure is located

A source that does not compile is refused with one diagnostic: of a known kind, in the file it was
given as, and at one of its tokens. Failures inside an instruction name it, and a program that does
not resolve is refused for the first instruction that does not resolve on its own.
-/

namespace AnchorScript

open Outcome

/-- The places where tokens of the source begin. -/
def IsTokenPos (src : Text) (pos : SourcePos) : Prop := pos ∈ (tokens src).map Token.pos

namespace Syntax

theorem parse_ends (name src : Text) :
    Ends (Diagnostic.Placed name (IsTokenPos src)) (File.At (IsTokenPos src)) (parse name src) := by
  have hTokens : Parser.TokensAt (IsTokenPos src) (tokens src) :=
    fun t ht => List.mem_map_of_mem ht
  unfold parse
  cases hFile : Parser.file (tokens src) with
  | ok f => exact .ok (Parser.file_at hTokens hFile)
  | error e =>
    have hKnown : Diagnostic.Kind.syntaxError ∈ Diagnostic.Kind.known := by decide
    exact .error ⟨hKnown, rfl, .inl (hTokens _ (Parser.token_mem_of_file hFile))⟩

end Syntax

theorem extractProgram_ends (o : CompileOptions) (name src : Text) :
    Ends (Diagnostic.Placed name (IsTokenPos src))
      (fun p => ∀ i ∈ p.instructions, i.At (IsTokenPos src)) (extractProgram o name src) :=
  .bind (Syntax.parse_ends name src) fun _ hFile => Program.ofFile_ends hFile

/-- The name of a method of the class that a source declares as its program. -/
def IsMethodName (name src method : Text) : Prop :=
  ∃ f cls, Syntax.parse name src = .ok f ∧ Program.programClass name f.classes = .ok cls ∧
    ∃ m ∈ cls.methods, m.name = method

theorem isMethodName_of_mem {o : CompileOptions} {name src : Text} {p : Program}
    (h : extractProgram o name src = .ok p) {i : Instruction} (hi : i ∈ p.instructions) :
    IsMethodName name src i.name := by
  obtain ⟨f, hParse, hFile⟩ := bind_eq_ok_iff.mp h
  obtain ⟨_, cls, hClass, hMethods⟩ := Program.extractsMethod_of_ofFile hFile
  obtain ⟨m, hm, hMethod⟩ := exists_of_mem_right hMethods hi
  exact ⟨f, cls, hParse, hClass, m, hm, hMethod.name.symm⟩

/-- The diagnostic of a body of the program class that cannot be extracted. -/
def BodyRefused (o : CompileOptions) (name src : Text) (d : Diagnostic) : Prop :=
  ∃ f cls, Syntax.parse name src = .ok f ∧ Program.programClass name f.classes = .ok cls ∧
    ∃ m ∈ cls.methods, ∃ params,
      Program.bodyOf ⟨name, m.name, params, o.settings.stringMaxLen⟩ [] m.body = .error d

theorem BodyRefused.isMethodName {o : CompileOptions} {name src : Text} {d : Diagnostic}
    (h : BodyRefused o name src d) : IsMethodName name src d.instruction := by
  obtain ⟨f, cls, hParse, hClass, m, hm, params, hBody⟩ := h
  have hMethod := (((Syntax.parse_ends name src).of_ok hParse).classes cls
    (Program.mem_of_programClass hClass)).methods m hm
  have hPlaced := (Program.bodyOf_ends hMethod.body).of_error hBody
  exact ⟨f, cls, hParse, hClass, m, hm, hPlaced.instruction.symm⟩

/-- A program that does not resolve is refused for its first instruction that does not. -/
theorem firstRefused_of_resolve {o : CompileOptions} {name src : Text} {p : Program}
    {d : Diagnostic} (hExtracted : extractProgram o name src = .ok p)
    (h : p.resolve = .error d) :
    ∃ i ∈ p.instructions, p.FirstRefused i d ∧ d.PlacedIn name i.name (IsTokenPos src) := by
  have hPlaces := (extractProgram_ends o name src).of_ok hExtracted
  obtain ⟨_, _, hFile⟩ := bind_eq_ok_iff.mp hExtracted
  obtain rfl := (Program.extractsMethod_of_ofFile hFile).1
  exact Program.exists_firstRefused hPlaces h

/-- The names that an instruction declares stand at places of the instruction. -/
theorem Instruction.At.declaration {P : SourcePos → Prop} {i : Instruction} (h : i.At P)
    {name : Text} {pos : SourcePos} (hName : (name, pos) ∈ i.declarations) : P pos := by
  rcases List.mem_append.mp hName with hParam | hVariable
  · obtain ⟨q, hq, hSame⟩ := List.mem_map.mp hParam
    cases hSame
    exact h.params q hq
  · obtain ⟨s, hs, hSame⟩ := List.mem_filterMap.mp hVariable
    cases h.body s hs with
    | bind hPos _ =>
      cases hSame
      exact hPos
    | _ => cases hSame

theorem Handler.NameClash.placedIn {P : SourcePos → Prop} {fr : Frame} {d : Diagnostic}
    (h : NameClash fr d) (hSource : fr.instruction.source.At P) :
    d.PlacedIn fr.program.file fr.instruction.source.name P := by
  cases h with
  | context hName _ =>
    have hKnown : Diagnostic.Kind.unsupportedConstruct ∈ Diagnostic.Kind.known := by decide
    exact ⟨⟨hKnown, rfl, .inl (hSource.declaration hName)⟩, rfl⟩
  | shared _ hSecond _ _ =>
    have hKnown : Diagnostic.Kind.duplicateDeclaration ∈ Diagnostic.Kind.known := by decide
    exact ⟨⟨hKnown, rfl, .inl (hSource.declaration hSecond)⟩, rfl⟩

/-- A resolved program without handlers has an instruction that is to blame. -/
theorem placedIn_of_handlers {o : CompileOptions} {name src : Text} {p : Program}
    {r : ResolvedProgram} {d : Diagnostic} (hExtracted : extractProgram o name src = .ok p)
    (hResolved : p.resolve = .ok r) (h : r.handlers = .error d) :
    ∃ i ∈ p.instructions, d.PlacedIn name i.name (IsTokenPos src) := by
  have hPlaces := (extractProgram_ends o name src).of_ok hExtracted
  obtain ⟨_, _, hFile⟩ := bind_eq_ok_iff.mp hExtracted
  obtain ⟨i, hi, hHandler⟩ := exists_of_mapM_eq_error h
  rw [(Program.resolve_eq_ok_iff.mp hResolved).1] at hHandler
  obtain ⟨hSource, hInstruction⟩ := Program.resolved_of_mem hResolved hi
  have hClash := Resolution.nameClash_of_ofInstruction hInstruction hHandler
  obtain rfl := (Program.extractsMethod_of_ofFile hFile).1
  exact ⟨i.source, hSource, hClash.placedIn (hPlaces _ hSource)⟩

theorem Diagnostic.Placed.code_ne {file : Text} {P : SourcePos → Prop} {d : Diagnostic}
    (h : d.Placed file P) : d.code ≠ "ANC0000" := by
  have hKnown : ∀ k ∈ Kind.known, k.code ≠ "ANC0000" := by decide
  exact hKnown d.kind h.known

/-- A source that does not compile is refused with a diagnostic of a known kind at one of its
tokens. The instruction of the diagnostic is a method of the program class where a body, the
resolution or a handler is to blame, and resolution blames the first instruction that does not
resolve on its own. -/
theorem compile_failure_located {o : CompileOptions} {name src : Text} {d : Diagnostic}
    (h : compile o name src = .error d) :
    d.Placed name (IsTokenPos src) ∧ d.code ≠ "ANC0000" ∧
      (BodyRefused o name src d → IsMethodName name src d.instruction) ∧
      (∀ p, extractProgram o name src = .ok p → p.resolve = .error d →
        IsMethodName name src d.instruction ∧
          ∃ i, p.FirstRefused i d ∧ d.instruction = i.name) ∧
      ∀ r, resolveSource o name src = .ok r → r.handlers = .error d →
        IsMethodName name src d.instruction := by
  have hPlaced : d.Placed name (IsTokenPos src) := by
    simp only [compile, resolveSource, bind_eq_error_iff] at h
    rcases h with (hExtract | ⟨p, hExtracted, hResolve⟩) | ⟨r, hr, hHandlers | ⟨_, _, hPure⟩⟩
    · exact (extractProgram_ends o name src).of_error hExtract
    · obtain ⟨i, _, _, hIn⟩ := firstRefused_of_resolve hExtracted hResolve
      exact hIn.toPlaced
    · obtain ⟨p, hExtracted, hResolved⟩ := bind_eq_ok_iff.mp hr
      obtain ⟨i, _, hIn⟩ := placedIn_of_handlers hExtracted hResolved hHandlers
      exact hIn.toPlaced
    · cases hPure
  refine ⟨hPlaced, hPlaced.code_ne, BodyRefused.isMethodName, ?_, ?_⟩
  · intro p hExtracted hResolve
    obtain ⟨i, hi, hFirst, hIn⟩ := firstRefused_of_resolve hExtracted hResolve
    rw [hIn.instruction]
    exact ⟨isMethodName_of_mem hExtracted hi, i, hFirst, rfl⟩
  · intro r hr hHandlers
    obtain ⟨p, hExtracted, hResolved⟩ := bind_eq_ok_iff.mp hr
    obtain ⟨i, hi, hIn⟩ := placedIn_of_handlers hExtracted hResolved hHandlers
    rw [hIn.instruction]
    exact isMethodName_of_mem hExtracted hi

/-- A program whose second instruction reads a variable that it does not declare. -/
def undeclaredSource : Text := Text.join "\n" [
  "export default class P \x7b",
  "static PROGRAM_ID = new Pubkey('11111111111111111111111111111111')",
  "open(s: S) \x7b s.n = 1 \x7d",
  "add(s: S) \x7b s.n = s.n + m \x7d",
  "\x7d",
  "interface S extends Account \x7b n: u64 \x7d"]

def undeclaredRefusal : Diagnostic where
  kind := .unresolvedReference
  message := "'m' is not declared before use"
  span := .ofPos "p.ts" ⟨4, 25⟩
  instruction := "add"
  account := "s"

theorem undeclaredSource_located :
    compile {} "p.ts" undeclaredSource = .error undeclaredRefusal ∧
      undeclaredRefusal.Placed "p.ts" (IsTokenPos undeclaredSource) ∧
      ∃ p, extractProgram {} "p.ts" undeclaredSource = .ok p ∧
        IsMethodName "p.ts" undeclaredSource "add" ∧
        ∃ i, p.FirstRefused i undeclaredRefusal ∧ "add" = i.name := by
  obtain ⟨p, hExtracted, hChecked⟩ := exists_ok_of_any
    (x := extractProgram {} "p.ts" undeclaredSource)
    (fun p => error? p.resolve = some undeclaredRefusal) (by
      simp (disch := rfl) only [undeclaredSource, Text.ofString_literal]
      decide +kernel)
  have hResolve : p.resolve = .error undeclaredRefusal :=
    eq_error_of_error? (of_decide_eq_true hChecked)
  have hCompile : compile {} "p.ts" undeclaredSource = .error undeclaredRefusal := by
    simp only [compile, resolveSource, bind_eq_error_iff]
    exact .inl (.inr ⟨p, hExtracted, hResolve⟩)
  obtain ⟨hPlaced, _, _, hFirst, _⟩ := compile_failure_located hCompile
  exact ⟨hCompile, hPlaced, p, hExtracted, hFirst p hExtracted hResolve⟩

end AnchorScript
