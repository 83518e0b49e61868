import AnchorScript.Config.Basic
import AnchorScript.Yaml
import AnchorScript.FileTree.Basic
import AnchorScript.Diagnostic

/-!
# Configuration files

A configuration file changes the defaults. Keys it does not know are passed over, a null changes
nothing, and no key is given twice.
-/

namespace AnchorScript.Config

/-- The text that a value gives a setting. -/
def setText (old : Text) : Yaml → Option Text
  | .scalar s isPlain =>
    match Yaml.meaning s isPlain with
    | .null => some old
    | _ => some s
  | _ => none

/-- The number that a value gives a setting. One of double precision loses its fraction; below all
words it counts as the least word, and so does the first one above them. -/
def setInt (old : Int) : Yaml → Option Int
  | .scalar s isPlain =>
    match Yaml.meaning s isPlain with
    | .null => some old
    | .int n => if fitsWord n then some n else none
    | .double n =>
      if fitsWord n then some n else if n ≤ -leastWord then some leastWord else none
    | _ => none
  | _ => none

/-- Words that count as true where a truth value is expected, quoted or not. -/
def yesWords : List Text :=
  ["y", "Y", "yes", "Yes", "YES", "on", "On", "ON"].map Text.ofString

def noWords : List Text :=
  ["n", "N", "no", "No", "NO", "off", "Off", "OFF"].map Text.ofString

def setBool (old : Bool) : Yaml → Option Bool
  | .scalar s isPlain =>
    match Yaml.meaning s isPlain with
    | .null => some old
    | .bool b => some b
    | .string w =>
      if yesWords.contains w then some true else if noWords.contains w then some false else none
    | _ => none
  | _ => none

/-- Changes settings by the entries of a mapping, none of whose keys is repeated. -/
def setEach {α : Type} (set : α → Text → Yaml → Option α) (old : α) : Yaml → Option α
  | .mapping es =>
    if (es.map (·.1)).Nodup then es.foldlM (fun a (k, v) => set a k v) old else none
  | .scalar s isPlain =>
    match Yaml.meaning s isPlain with
    | .null => some old
    | _ => none
  | .sequence _ => none

def setLog (l : LogSettings) (key : Text) (v : Yaml) : Option LogSettings :=
  if key = "format" then do return { l with format := ← setText l.format v }
  else if key = "log_dir" then do return { l with directory := ← setText l.directory v }
  else if key = "level" then do return { l with level := ← setText l.level v }
  else if key = "compress" then do return { l with compress := ← setBool l.compress v }
  else some l

def setWorkspace (w : WorkspaceSettings) (key : Text) (v : Yaml) : Option WorkspaceSettings :=
  if key = "root" then do return { w with root := ← setText w.root v }
  else if key = "programs_dir" then do return { w with programsDir := ← setText w.programsDir v }
  else if key = "output_dir" then do return { w with outputDir := ← setText w.outputDir v }
  else if key = "idl_dir" then do return { w with interfaceDir := ← setText w.interfaceDir v }
  else if key = "anchor_toml" then do return { w with programTable := ← setText w.programTable v }
  else if key = "deploy_dir" then do return { w with deployDir := ← setText w.deployDir v }
  else if key = "cluster" then do return { w with cluster := ← setText w.cluster v }
  else if key = "parallelism" then do return { w with parallelism := ← setInt w.parallelism v }
  else some w

def setCompiler (c : CompilerSettings) (key : Text) (v : Yaml) : Option CompilerSettings :=
  if key = "string_max_len" then do return { c with stringMaxLen := ← setInt c.stringMaxLen v }
  else if key = "emit_idl" then do return { c with emitInterface := ← setBool c.emitInterface v }
  else some c

def setPart (c : Config) (key : Text) (v : Yaml) : Option Config :=
  if key = "logger" then do return { c with log := ← setEach setLog c.log v }
  else if key = "workspace" then do
    return { c with workspace := ← setEach setWorkspace c.workspace v }
  else if key = "compiler" then do return { c with compiler := ← setEach setCompiler c.compiler v }
  else some c

/-- The configuration that a document gives; `none` where it is malformed or a value has the wrong
type. -/
def ofText? (s : Text) : Option Config := do setEach setPart {} (← Yaml.ofText? s)

inductive Error where
  | unreadable (e : FileError)
  | malformed
  | invalid (e : Invalid)

def Error.message (path : Text) : Error → Text
  | unreadable e => "read config " ++ path ++ ": " ++ e.message
  | malformed => "parse config " ++ path ++ ": " ++ Failure.documentFault
  | invalid e => "config " ++ path ++ ": " ++ e.message

/-- The configuration in the file at a path; a file that may be missing leaves the defaults. -/
def load (t : FileTree) (path : Text) (mayBeMissing : Bool) : Except Error Config :=
  match t.read path with
  | .error e =>
    if mayBeMissing && e.fault = .noEntry then .ok {} else .error (.unreadable e)
  | .ok s =>
    match ofText? s with
    | none => .error .malformed
    | some c =>
      match c.validate with
      | .error e => .error (.invalid e)
      | .ok () => .ok c

def defaultFile : Text := "anchorgen.yaml"

end AnchorScript.Config
