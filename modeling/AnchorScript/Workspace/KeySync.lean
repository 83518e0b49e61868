import AnchorScript.Workspace.Basic

/-!
# Synchronising program ids

The deploy keypair of a program decides its id. Synchronising writes that id into the program's
source and into the table of program ids. Programs without a keypair are left alone.
-/

namespace AnchorScript.Workspace

/-- A program whose id was compared with its keypair. -/
structure KeySync where
  source : Text
  program : Text
  keypair : Text
  oldId : Text
  newId : Text

def KeySync.isChanged (k : KeySync) : Bool := k.oldId ≠ k.newId

def keypairPath (c : Config) (program : Text) : Text :=
  Path.join [path c c.workspace.deployDir, program ++ "-keypair.json"]

def isMissing (t : FileTree) (p : Text) : Bool :=
  match t.find p with
  | .error e => e = .noEntry
  | .ok _ => false

def syncSource (c : Config) (source : Text) : Work (Option KeySync) := do
  let src ← examine (.read source) fun t => t.read source
  match extractProgram c.options source src with
  | .error _ => return none
  | .ok program =>
    let name := Rust.snakeCase program.name
    let keypair := keypairPath c name
    if isMissing (← get) keypair then return none
    let id ← examine (.keypair keypair) fun t => Keypair.programIdAt t keypair
    let k : KeySync := { source, program := name, keypair, oldId := program.programId, newId := id }
    if k.isChanged then
      match ProgramId.replace src id with
      | .error e => throw (.replaceId source e)
      | .ok updated => writeBelow source updated
    let table := path c c.workspace.programTable
    change (.programTable table) fun t => ProgramTable.record t table c.workspace.cluster name id
    return some k

def syncKeys (c : Config) : Work (List KeySync) := do
  let sources ← examine id (discover c)
  return (← sources.mapM (syncSource c)).filterMap id

end AnchorScript.Workspace
