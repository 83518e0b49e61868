import AnchorScript.CommandLine.Command
import AnchorScript.Session

/-!
# The program

The outer layer of the command line: it loads the working directory, runs the command on it, prints
what the command printed, and writes the files that the command changed. Sessions read lines from
standard input.
-/

namespace AnchorScript.Main

partial def loadEntries (entries : Array IO.FS.DirEntry) : IO (List (Text × FileTree)) :=
  entries.toList.mapM fun e => do
    let name := Text.ofString e.fileName
    if ← e.path.isDir then return (name, .directory (← loadEntries (← e.path.readDir)))
    else return (name, .file (← IO.FS.readBinFile e.path).toList)

def loadTree : IO FileTree := do
  return .directory (← loadEntries (← (← IO.currentDir).readDir))

def writeText (stream : IO.FS.Stream) (s : Text) : IO Unit := do
  stream.write s.toByteArray
  stream.flush

/-- The string of a text; stray bytes become the replacement character. -/
def display (s : Text) : String := String.ofList (Text.chars s)

def saveChanges (before after : FileTree) : IO Unit := do
  let old := before.files []
  for (place, data) in after.files [] do
    if old.lookup place ≠ some data then
      IO.FS.createDirAll (display (Path.parent (Text.join "/" place)))
      IO.FS.writeBinFile (display (Text.join "/" place)) data.toByteArray

partial def converse (input output : IO.FS.Stream) (pending : Session.Pending) : IO Unit := do
  writeText output (Session.prompt pending)
  let line ← input.getLine
  if line.isEmpty then
    match Session.atEnd pending .finished with
    | some src => writeText output (Session.respond .colourless src)
    | none => return ()
  else
    let typed := Text.trimRight (fun b => b = 10 || b = 13) (Text.ofString line)
    let (next, ended) := Session.feed pending typed
    match ended with
    | some src => writeText output (Session.respond .colourless src)
    | none => pure ()
    converse input output next

def runCommand (args : List Text) : IO UInt32 := do
  let tree ← loadTree
  let (error, console) := CommandLine.execute tree args
  saveChanges tree console.tree
  writeText (← IO.getStdout) console.output
  writeText (← IO.getStderr) console.errors
  match error with
  | none => return 0
  | some e =>
    writeText (← IO.getStderr) (e.message ++ "\n")
    return 1

end AnchorScript.Main

open AnchorScript.Main in
def main (args : List String) : IO UInt32 := do
  if args = ["repl"] then
    converse (← IO.getStdin) (← IO.getStdout) none
    return 0
  else runCommand (args.map AnchorScript.Text.ofString)
