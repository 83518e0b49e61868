import AnchorScript.Token

/-!
# Diagnostics and failures

A program that cannot be compiled is refused with one diagnostic: its kind and stable code, a
message, the source range it is about, and the instruction, account and field it concerns. Texts
that do not apply are empty.

A failure ends a piece of work: the diagnostics of a program that does not compile, or a message about
anything else, under the contexts it passed through. The diagnostics stay visible through every
context.
-/

namespace AnchorScript

namespace Diagnostic

inductive Kind where
  | syntaxError
  | missingProgramDeclaration
  | duplicateProgramDeclaration
  | missingProgramId
  | invalidProgramId
  | unknownType
  | duplicateDeclaration
  | unsupportedConstruct
  | missingBumpField
  | invalidBumpField
  | invalidPayer
  | ambiguousPayer
  | duplicateDerivation
  | invalidDerivation
  | invalidSeed
  | unresolvedReference
  | invalidSignerSeeds
  | typeMismatch
  | other (name : Text)
  deriving DecidableEq

namespace Kind

def known : List Kind :=
  [syntaxError, missingProgramDeclaration, duplicateProgramDeclaration, missingProgramId,
    invalidProgramId, unknownType, duplicateDeclaration, unsupportedConstruct, missingBumpField,
    invalidBumpField, invalidPayer, ambiguousPayer, duplicateDerivation, invalidDerivation,
    invalidSeed, unresolvedReference, invalidSignerSeeds, typeMismatch]

def name : Kind → Text
  | syntaxError => "SyntaxError"
  | missingProgramDeclaration => "MissingProgramDeclaration"
  | duplicateProgramDeclaration => "DuplicateProgramDeclaration"
  | missingProgramId => "MissingProgramId"
  | invalidProgramId => "InvalidProgramId"
  | unknownType => "UnknownType"
  | duplicateDeclaration => "DuplicateDeclaration"
  | unsupportedConstruct => "UnsupportedConstruct"
  | missingBumpField => "MissingBumpField"
  | invalidBumpField => "InvalidBumpField"
  | invalidPayer => "InvalidPayer"
  | ambiguousPayer => "AmbiguousPayer"
  | duplicateDerivation => "DuplicateDerivation"
  | invalidDerivation => "InvalidDerivation"
  | invalidSeed => "InvalidSeed"
  | unresolvedReference => "UnresolvedReference"
  | invalidSignerSeeds => "InvalidSignerSeeds"
  | typeMismatch => "TypeMismatch"
  | other n => n

def ofName (n : Text) : Kind := (known.find? (·.name = n)).getD (other n)

def code : Kind → Text
  | syntaxError => "ANC1001"
  | missingProgramDeclaration => "ANC2001"
  | duplicateProgramDeclaration => "ANC2002"
  | missingProgramId => "ANC2003"
  | invalidProgramId => "ANC2004"
  | unknownType => "ANC2005"
  | duplicateDeclaration => "ANC2006"
  | unsupportedConstruct => "ANC2007"
  | missingBumpField => "ANC3001"
  | invalidBumpField => "ANC3002"
  | invalidPayer => "ANC3003"
  | ambiguousPayer => "ANC3004"
  | duplicateDerivation => "ANC3005"
  | invalidDerivation => "ANC3006"
  | invalidSeed => "ANC3007"
  | unresolvedReference => "ANC3008"
  | invalidSignerSeeds => "ANC3009"
  | typeMismatch => "ANC4001"
  | other _ => "ANC0000"

end Kind

structure Span where
  file : Text
  start : SourcePos
  stop : SourcePos
  deriving DecidableEq

def Span.ofPos (file : Text) (p : SourcePos) : Span := ⟨file, p, p⟩

end Diagnostic

structure Diagnostic where
  kind : Diagnostic.Kind
  message : Text
  span : Diagnostic.Span
  instruction : Text := []
  account : Text := []
  field : Text := []
  deriving DecidableEq

namespace Diagnostic

def code (d : Diagnostic) : Text := d.kind.code

def within (d : Diagnostic) (instruction account : Text) : Diagnostic :=
  { d with instruction, account }

def withField (d : Diagnostic) (field : Text) : Diagnostic := { d with field }

/-- What the diagnostic concerns, from the outside in. -/
def context (d : Diagnostic) : Text :=
  let part (label name : Text) : List Text := if name.isEmpty then [] else [label ++ name]
  Text.join ", " (part "instruction " d.instruction ++ part "account " d.account ++
    part "field " d.field)

/-- One line: place, code, kind, message and context. A diagnostic without a file or a position
has no place. -/
def text (d : Diagnostic) : Text :=
  let place : Text :=
    if d.span.file.isEmpty || d.span.start.line ≤ 0 || d.span.start.column ≤ 0 then []
    else d.span.file ++ ":" ++ d.span.start.text ++ ": "
  let about : Text := if d.context.isEmpty then [] else " (" ++ d.context ++ ")"
  place ++ "[" ++ d.code ++ " " ++ d.kind.name ++ "] " ++ d.message ++ about

/-- The first of several diagnostics, with the number of the others. -/
def summary : List Diagnostic → Text
  | [] => []
  | [d] => d.text
  | d :: ds => d.text ++ " (and " ++ Text.ofNat ds.length ++ " more error(s))"

end Diagnostic

inductive Failure where
  | diagnostics (ds : List Diagnostic)
  | plain (message : Text)
  | within (context : Text) (inner : Failure)

namespace Failure

def text : Failure → Text
  | diagnostics ds => Diagnostic.summary ds
  | plain m => m
  | within c f => c ++ ": " ++ f.text

def carried : Failure → List Diagnostic
  | diagnostics ds => ds
  | plain _ => []
  | within _ f => f.carried

def first? (f : Failure) : Option Diagnostic := f.carried.head?

def isKind (f : Failure) (k : Diagnostic.Kind) : Bool := f.first?.any (·.kind = k)

/-- Stands for what the reader of a document format says about a malformed document. -/
def documentFault : Text := "<detail>"

end Failure

end AnchorScript
