import AnchorScript.Program.Body
import AnchorScript.Program.ProgramId

/-!
# Programs of source files

The default-exported class of a file is the program. Interfaces that extend the account marker are
its state types, its methods are its instructions, and its one static property is its address.
-/

namespace AnchorScript.Program

structure Settings where
  stringMaxLen : Nat

/-- A reservation that is not positive stands for the default. -/
def Settings.ofMaxLen (n : Int) : Settings :=
  ⟨if n ≤ 0 then DataType.defaultMaxLen else n.toNat⟩

def stateMarker : Text := "Account"

def idProperty : Text := "PROGRAM_ID"

def refuse (file : Text) (kind : Diagnostic.Kind) (pos : SourcePos) (message : Text) : Diagnostic :=
  { kind, message, span := .ofPos file pos }

/-- A source without a file tree declares nothing. -/
def emptySource (file : Text) : Diagnostic :=
  refuse file .missingProgramDeclaration ⟨0, 0⟩ "empty source file"

/-- The one default-exported class among `classes`, when `found` was met before them. -/
def defaultClass (file : Text) (found : Option Syntax.ClassDecl) :
    List Syntax.ClassDecl → Except Diagnostic Syntax.ClassDecl
  | [] =>
    match found with
    | some c => .ok c
    | none => .error (refuse file .missingProgramDeclaration ⟨1, 1⟩
        "no default-exported program class found")
  | c :: cs =>
    if c.isDefault then
      match found with
      | some first => .error (refuse file .duplicateProgramDeclaration c.pos
          ("class '" ++ c.name ++ "' is a second default-exported program class (first is '" ++
            first.name ++ "')"))
      | none => defaultClass file (some c) cs
    else defaultClass file found cs

/-- The program class; no other class may stand beside it. -/
def programClass (file : Text) (classes : List Syntax.ClassDecl) :
    Except Diagnostic Syntax.ClassDecl := do
  let program ← defaultClass file none classes
  match classes.find? (!·.isDefault) with
  | none => return program
  | some c =>
    if c.properties.any (·.name = idProperty) then
      .error (refuse file .duplicateProgramDeclaration c.pos
        ("class '" ++ c.name ++ "' declares " ++ idProperty ++ " but '" ++ program.name ++
          "' is the program"))
    else .error (refuse file .unsupportedConstruct c.pos
        ("class '" ++ c.name ++ "': only the default-exported program class is supported"))

/-- The property that holds the program's address, when `found` was met before these. -/
def idDeclaration (file : Text) (c : Syntax.ClassDecl) (found : Option Syntax.PropertyDecl) :
    List Syntax.PropertyDecl → Except Diagnostic Syntax.PropertyDecl
  | [] =>
    match found with
    | some p => .ok p
    | none => .error (refuse file .missingProgramId c.pos
        ("program class '" ++ c.name ++ "' has no static " ++ idProperty ++
          " = new Pubkey(\"...\")"))
  | p :: ps =>
    if p.name != idProperty || !p.isStatic then
      .error (refuse file .unsupportedConstruct p.pos
        ("unsupported class property '" ++ p.name ++ "' (only static " ++ idProperty ++
          " is allowed)"))
    else if found.isSome then
      .error (refuse file .duplicateDeclaration p.pos ("duplicate " ++ idProperty))
    else idDeclaration file c (some p) ps

def declaredId (file : Text) (c : Syntax.ClassDecl) : Except Diagnostic Text := do
  let p ← idDeclaration file c none c.properties
  let malformed := refuse file .invalidProgramId p.pos
    (idProperty ++ " must be new Pubkey(\"<base58>\"), got " ++ p.value.text)
  match p.value with
  | .construct _ className [.string _ s] =>
    if className = "Pubkey" then
      let id := Text.trimSpace s
      match ProgramId.decode id with
      | .ok _ => return id
      | .error e => .error (refuse file .invalidProgramId p.pos
          (idProperty ++ ": " ++ e.message))
    else .error malformed
  | _ => .error malformed

def isStateInterface (i : Syntax.InterfaceDecl) : Bool := i.base = some stateMarker

def stateNames (file : Text) (seen : List Text) :
    List Syntax.InterfaceDecl → Except Diagnostic (List Text)
  | [] => .ok seen
  | i :: is =>
    if seen.contains i.name then
      .error (refuse file .duplicateDeclaration i.pos ("duplicate state type '" ++ i.name ++ "'"))
    else stateNames file (i.name :: seen) is

/-- The fields of a state type, after those named in `seen`. -/
def stateFields (file : Text) (s : Settings) (stateName : Text) (isState : Text → Bool)
    (seen : List Text) : List Syntax.FieldDecl → Except Diagnostic (List StateField)
  | [] => .ok []
  | f :: fs =>
    if seen.contains f.name then
      .error (refuse file .duplicateDeclaration f.pos
        ("duplicate field '" ++ f.name ++ "' in state type '" ++ stateName ++ "'"))
    else
      match DataType.lookup? f.type.name f.type.arg isState s.stringMaxLen with
      | some (.value type) => do
        let rest ← stateFields file s stateName isState (f.name :: seen) fs
        return { name := f.name, type, pos := f.pos } :: rest
      | _ => .error ((refuse file .unknownType f.type.pos
          ("unknown type '" ++ f.type.text ++ "' for field '" ++ f.name ++ "' of state type '" ++
            stateName ++ "'")).withField f.name)

def stateType (file : Text) (s : Settings) (isState : Text → Bool) (i : Syntax.InterfaceDecl) :
    Except Diagnostic StateType := do
  return { name := i.name, fields := ← stateFields file s i.name isState [] i.fields, pos := i.pos }

/-- The parameters of an instruction, after those named in `seen`. -/
def paramsOf (file : Text) (s : Settings) (instruction : Text) (isState : Text → Bool)
    (seen : List Text) : List Syntax.FieldDecl → Except Diagnostic (List Param)
  | [] => .ok []
  | f :: fs =>
    if seen.contains f.name then
      .error ((refuse file .duplicateDeclaration f.pos
        ("duplicate parameter '" ++ f.name ++ "'")).within instruction f.name)
    else
      match DataType.lookup? f.type.name f.type.arg isState s.stringMaxLen with
      | some type => do
        let rest ← paramsOf file s instruction isState (f.name :: seen) fs
        return { name := f.name, type, pos := f.pos } :: rest
      | none => .error ((refuse file .unknownType f.type.pos
          ("unknown type '" ++ f.type.text ++ "' for parameter '" ++ f.name ++ "'")).within
            instruction f.name)

def returnType (file : Text) (instruction : Text) :
    Option Syntax.TypeRef → Except Diagnostic (Option Text)
  | none => .ok none
  | some t =>
    if t.arg.isNone && (t.name = "Result" || t.name = "void") then .ok (some t.name)
    else .error ((refuse file .unknownType t.pos
      ("unknown return type '" ++ t.text ++ "' (expected Result or void)")).within instruction [])

def instructionOf (file : Text) (s : Settings) (isState : Text → Bool) (m : Syntax.MethodDecl) :
    Except Diagnostic Instruction :=
  if m.name = "constructor" then
    .error (refuse file .unsupportedConstruct m.pos
      "constructors are not supported in the program class")
  else do
    let returns ← returnType file m.name m.returns
    let params ← paramsOf file s m.name isState [] m.params
    let body ← bodyOf ⟨file, m.name, params, s.stringMaxLen⟩ [] m.body
    return { name := m.name, params, body, returns, pos := m.pos }

/-- The instructions of the program class, after those named in `seen`. -/
def instructionsOf (file : Text) (s : Settings) (isState : Text → Bool) (seen : List Text) :
    List Syntax.MethodDecl → Except Diagnostic (List Instruction)
  | [] => .ok []
  | m :: ms =>
    if seen.contains m.name then
      .error (refuse file .duplicateDeclaration m.pos ("duplicate instruction '" ++ m.name ++ "'"))
    else do
      let i ← instructionOf file s isState m
      return i :: (← instructionsOf file s isState (m.name :: seen) ms)

def ofFile (name : Text) (s : Settings) (file : Syntax.File) : Except Diagnostic Program := do
  let program ← programClass name file.classes
  let interfaces := file.interfaces.filter isStateInterface
  let names ← stateNames name [] interfaces
  let states ← interfaces.mapM (stateType name s names.contains)
  let programId ← declaredId name program
  let instructions ← instructionsOf name s names.contains [] program.methods
  return { file := name, name := program.name, programId, instructions, states }

end AnchorScript.Program
