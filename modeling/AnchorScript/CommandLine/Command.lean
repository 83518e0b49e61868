import AnchorScript.CommandLine.Flags
import AnchorScript.AccountData.Decode
import AnchorScript.Base64
import AnchorScript.Config.Document
import AnchorScript.Report
import AnchorScript.Workspace.Build
import AnchorScript.Workspace.KeySync

/-!
# Commands

The commands compile one program, print its interface description, build a workspace, show account
data, and synchronise program ids. A command works on a tree of files, prints to two streams, and
ends well or with an error.
-/

namespace AnchorScript.CommandLine

inductive CommandError where
  | flags (e : FlagError)
  | unknownCommand (name : Text)
  | inputCount (command : Text)
  | inspectInputs
  | read (path : Text) (e : FileError)
  | write (path : Text) (e : FileError)
  | writeInterface (e : FileError)
  | config (path : Text) (e : Config.Error)
  | compilation
  | compilations (failed total : Nat)
  | workspace (e : WorkspaceError)
  | logLevel (level : Text)
  | logDirectory (path : Text) (e : FileError)
  | stateTypes (path : Text) (count : Nat)
  | noStateType (path name : Text)
  | base64 (path : Text) (e : Base64.Error)
  | base58 (path : Text) (e : Base58.Error)
  | encoding (name : Text)
  | data (e : AccountData.Error)

def CommandError.message : CommandError → Text
  | flags e => e.message
  | unknownCommand n => "No help topic for '" ++ n ++ "'"
  | inputCount c => c ++ " requires exactly one input file"
  | inspectInputs => "inspect requires a program file and an account data file"
  | read p e => "read " ++ p ++ ": " ++ e.message
  | write p e => "write " ++ p ++ ": " ++ e.message
  | writeInterface e => "write idl: " ++ e.message
  | config p e => e.message p
  | compilation => "compilation failed"
  | compilations n total =>
    Text.ofNat n ++ " of " ++ Text.ofNat total ++ " file(s): compilation failed"
  | workspace e => e.message
  | logLevel l => "log level " ++ Text.quoted l ++ ": unrecognized level: " ++ Text.quoted l
  | logDirectory p e => "create log dir " ++ p ++ ": " ++ e.message
  | stateTypes p n =>
    p ++ " declares " ++ Text.ofNat n ++ " state types; choose one with --type"
  | noStateType p n => p ++ " has no state type " ++ Text.quoted n
  | base64 p e => "decode base64 " ++ p ++ ": " ++ e.message
  | base58 p e => "decode base58 " ++ p ++ ": " ++ e.message
  | encoding n => "unknown encoding " ++ Text.quoted n
  | data e => e.message

/-- What a command works on: the files and what it has printed. -/
structure Console where
  tree : FileTree
  output : Text := []
  errors : Text := []

abbrev Command := ExceptT CommandError (StateM Console)

def print (s : Text) : Command Unit := modify fun c => { c with output := c.output ++ s }

def examine {α ε : Type} (wrap : ε → CommandError) (f : FileTree → Except ε α) : Command α := do
  match f (← get).tree with
  | .ok a => return a
  | .error e => throw (wrap e)

def writeTo (wrap : FileError → CommandError) (path data : Text) : Command Unit := do
  let t ← examine wrap fun t => t.write path data
  modify fun c => { c with tree := t }

/-- Work on a workspace; what it wrote stays written when it fails. -/
def inWorkspace {α : Type} (w : Work α) : Command α := do
  let c ← get
  let (r, t) := w.run.run c.tree
  set { c with tree := t }
  match r with
  | .ok a => return a
  | .error e => throw (.workspace e)

def report (d : Diagnostic) : Command Unit := modify fun c =>
  { c with errors := c.errors ++ (Failure.diagnostics [d]).report .colourless }

def orReport {α : Type} : Except Diagnostic α → Command α
  | .ok a => return a
  | .error d => do
    report d
    throw .compilation

/-- The file named for the configuration, or the default one, which may be missing. -/
def loadConfig (globals : Given) : Command Config :=
  let path := globals.text "config" Config.defaultFile
  examine (.config path) fun t => Config.load t path (!globals.isSet "config")

/-- The flag for the length of strings goes before the configuration. -/
def stringMaxLen (globals given : Given) : Command Int := do
  match (given.value? "string-max-len").bind Text.intValue? with
  | some n => return n
  | none => return (← loadConfig globals).compiler.stringMaxLen

def levels : List Text :=
  ["debug", "info", "warn", "error", "dpanic", "panic", "fatal"].map Text.ofString

def openLog (l : LogSettings) : Command Unit := do
  if !l.level.isEmpty && !levels.contains (Text.toLower l.level) then throw (.logLevel l.level)
  if !l.directory.isEmpty then
    let t ← examine (.logDirectory l.directory) fun t => t.makeDirectories l.directory
    modify fun c => { c with tree := t }

/-- The only input of a command, with its text. -/
def readInput (command : Text) (given : Given) : Command (Text × Text) := do
  match given.arguments with
  | [input] => return (input, ← examine (.read input) fun t => t.read input)
  | _ => throw (.inputCount command)

/-- Writes to the file named by the output flag, or prints. -/
def emit (given : Given) (data : Text) : Command Unit :=
  let path := given.text "output" []
  if path.isEmpty then print data else writeTo (.write path) path data

def runCompile (globals given : Given) : Command Unit := do
  let (input, src) ← readInput "compile" given
  let maxLen ← stringMaxLen globals given
  let description := given.text "idl" []
  let out ← orReport (compile ⟨maxLen, !description.isEmpty⟩ input src)
  match out.interface with
  | some text => writeTo .writeInterface description text
  | none => pure ()
  emit given out.rust

def runInterface (globals given : Given) : Command Unit := do
  let (input, src) ← readInput "idl" given
  let maxLen ← stringMaxLen globals given
  let out ← orReport (compile ⟨maxLen, true⟩ input src)
  emit given (out.interface.getD [])

def showResult (r : Workspace.BuildResult) : Command Unit :=
  match r.failure with
  | some d => report d
  | none =>
    if r.isSkipped then print (r.source ++ ": up to date\n")
    else print (r.source ++ " -> " ++ r.output ++ "\n")

def runBuild (globals given : Given) : Command Unit := do
  let c ← loadConfig globals
  openLog c.log
  let rs ← inWorkspace (Workspace.build c (given.switch "force") false)
  rs.forM showResult
  let n := Workspace.failed rs
  if 0 < n then throw (.compilations n rs.length)

/-- The account data in a file, in one of the encodings. -/
def readData (path encoding : Text) : Command Text := do
  let data ← examine (.read path) fun t => t.read path
  if encoding = "raw" then return data
  else if encoding = "base64" then
    examine (.base64 path) fun _ => Base64.decode (Text.trimSpace data)
  else if encoding = "base58" then
    examine (.base58 path) fun _ => Base58.decode (Text.trimSpace data)
  else throw (.encoding encoding)

/-- The state type that a flag names, or the only one of the program. -/
def chooseState (input name : Text) (states : List StateType) : Command StateType := do
  if name.isEmpty then
    match states with
    | [s] => return s
    | _ => throw (.stateTypes input states.length)
  else match states.find? (·.name = name) with
    | some s => return s
    | none => throw (.noStateType input name)

def runInspect (globals given : Given) : Command Unit := do
  let [input, dataPath] := given.arguments | throw .inspectInputs
  let src ← examine (.read input) fun t => t.read input
  let maxLen ← stringMaxLen globals given
  let program ← orReport (extractProgram ⟨maxLen, false⟩ input src)
  let st ← chooseState input (given.text "type" []) program.states
  let data ← readData dataPath (given.text "encoding" "raw")
  let fields ← examine .data fun _ => AccountData.decode st data
  print (st.name ++ " (" ++ Text.ofNat data.length ++ " bytes)\n")
  fields.forM fun (f, v) => print ("  " ++ f.name ++ ": " ++ f.type.name ++ " = " ++ v.text ++ "\n")

def showSync (k : Workspace.KeySync) : Command Unit :=
  if k.isChanged then print (k.program ++ ": " ++ k.oldId ++ " -> " ++ k.newId ++ "\n")
  else print (k.program ++ ": " ++ k.newId ++ " (unchanged)\n")

def runKeySync (globals : Given) : Command Unit := do
  let c ← loadConfig globals
  openLog c.log
  (← inWorkspace (Workspace.syncKeys c)).forM showSync

def globalFlags : List Flag :=
  [⟨"config", none, .text⟩, ⟨"no-color", none, .switch⟩,
    ⟨"version", some (Text.ofString "v"), .switch⟩]

def outputFlag : Flag := ⟨"output", some (Text.ofString "o"), .text⟩

def stringMaxLenFlag : Flag := ⟨"string-max-len", none, .integer⟩

def withFlags (flags : List Flag) (run : Given → Command Unit) (args : List Text) : Command Unit :=
  match readFlags flags [] args with
  | .error e => throw (.flags e)
  | .ok given => run given

def runKeys (globals : Given) (args : List Text) : Command Unit :=
  withFlags [] (fun given => match given.arguments with
    | [] => return ()
    | name :: rest =>
      if name = "sync" then withFlags [] (fun _ => runKeySync globals) rest
      else throw (.unknownCommand name)) args

def runNamed (globals : Given) (name : Text) (args : List Text) : Command Unit :=
  if name = "compile" then
    withFlags [outputFlag, stringMaxLenFlag, ⟨"idl", none, .text⟩] (runCompile globals) args
  else if name = "idl" then
    withFlags [outputFlag, stringMaxLenFlag] (runInterface globals) args
  else if name = "build" then withFlags [⟨"force", none, .switch⟩] (runBuild globals) args
  else if name = "inspect" then
    withFlags [⟨"type", none, .text⟩, ⟨"encoding", none, .text⟩, stringMaxLenFlag]
      (runInspect globals) args
  else if name = "keys" then runKeys globals args
  else throw (.unknownCommand name)

/-- Runs a command line, given without the program's own name. -/
def run (args : List Text) : Command Unit :=
  withFlags globalFlags (fun globals =>
    if globals.switch "version" then print ("anchorgen version " ++ packageVersion ++ "\n")
    else match globals.arguments with
      | [] => return ()
      | name :: rest => runNamed globals name rest) args

/-- The console after a command line, and the error it ended with. -/
def execute (t : FileTree) (args : List Text) : Option CommandError × Console :=
  match (run args).run.run { tree := t } with
  | (.ok (), c) => (none, c)
  | (.error e, c) => (some e, c)

end AnchorScript.CommandLine
