import AnchorScript.Workspace.Basic

/-!
# Builds

A build compiles sources and records what it wrote in the manifest. A source whose record matches the
files on disk is skipped unless the build is forced. Here the sources are taken one after the other,
as a single worker takes them.
-/

namespace AnchorScript.Workspace

structure BuildResult where
  source : Text
  output : Text
  /-- The path of the interface description, empty when none is kept. -/
  interface : Text
  program : Text := []
  isSkipped : Bool := false
  failure : Option Diagnostic := none

def failed (rs : List BuildResult) : Nat := rs.countP (·.failure.isSome)

def manifestPath (c : Config) : Text :=
  Path.join [path c c.workspace.outputDir, "build-manifest.json"]

/-- The manifest of earlier builds; one that is missing or cannot be read counts as empty. -/
def loadManifest (c : Config) (t : FileTree) : Except WorkspaceError Manifest :=
  match t.read (manifestPath c) with
  | .error e => if e.fault = .noEntry then .ok {} else .error (.readManifest e)
  | .ok data =>
    match Manifest.decode data with
    | .ok m => .ok m
    | .error _ => .ok {}

def target (c : Config) (source : Text) : BuildResult :=
  { source
    output := Path.join [path c c.workspace.outputDir, Path.stem source ++ ".rs"]
    interface := if c.compiler.emitInterface then
      Path.join [path c c.workspace.interfaceDir, Path.stem source ++ ".json"] else [] }

def isCurrent (c : Config) (t : FileTree) (r : BuildResult) (src : Text) (a : Artifact) : Bool :=
  a.interface = r.interface &&
    match t.read r.output with
    | .error _ => false
    | .ok output =>
      if r.interface.isEmpty then a.isUpToDate c.options src output none
      else match t.read r.interface with
        | .error _ => false
        | .ok text => a.isUpToDate c.options src output (some text)

def compileSource (c : Config) (r : BuildResult) (src : Text) :
    Work (BuildResult × Option Artifact) := do
  match compile c.options r.source src with
  | .error d => return ({ r with failure := some d }, none)
  | .ok out =>
    writeBelow r.output out.rust
    match out.interface with
    | some text => writeBelow r.interface text
    | none => pure ()
    return ({ r with program := out.program.name },
      some (Artifact.ofOutput r.source r.output r.interface src c.options out))

def buildSource (c : Config) (m : Manifest) (force : Bool) (source : Text) :
    Work (BuildResult × Option Artifact) := do
  let src ← examine (.read source) fun t => t.read source
  let r := target c source
  let t ← get
  match m.lookup source with
  | some a =>
    if !force && isCurrent c t r src a then
      return ({ r with program := a.program, isSkipped := true }, none)
    else compileSource c r src
  | none => compileSource c r src

def saveManifest (c : Config) (m : Manifest) : Work Unit := do
  match m.encode with
  | .error e => throw (.encodeManifest e)
  | .ok text => writeBelow (manifestPath c) text

/-- Builds these sources, in order. A cancelled build stops at its first source. -/
def buildSources (c : Config) (force cancelled : Bool) (sources : List Text) :
    Work (List BuildResult) := do
  let m ← examine id (loadManifest c)
  let built ← sources.mapM fun s => do
    if cancelled then throw .cancelled
    buildSource c m force s
  saveManifest c ((built.filterMap (·.2)).foldl Manifest.put m)
  return built.map (·.1)

def build (c : Config) (force cancelled : Bool) : Work (List BuildResult) := do
  buildSources c force cancelled (← examine id (discover c))

end AnchorScript.Workspace
