import AnchorScript.Toml
import AnchorScript.Text.Trim
import AnchorScript.FileTree.Basic
import AnchorScript.Diagnostic

/-!
# The table of program ids

A workspace file lists the id of every program, cluster by cluster, in the tables
`[programs.<cluster>]`. Recording an id edits one line of the file, or adds one, and keeps all
other lines as they are written.
-/

namespace AnchorScript.ProgramTable

/-- The ids of one cluster; every one of them is a string. -/
def clusterIds? : Toml → Option (List (Text × Text))
  | .table _ es => es.mapM fun (n, v) => match v with
    | .string id => some (n, id)
    | _ => none
  | _ => none

def ofEntries? (es : List (Text × Toml)) : Option (List (Text × List (Text × Text))) :=
  match es.lookup (Text.ofString "programs") with
  | none => some []
  | some (.table _ cs) => cs.mapM fun (c, v) => (clusterIds? v).map (c, ·)
  | some _ => none

def ofText? (s : Text) : Option (List (Text × List (Text × Text))) :=
  (Toml.ofText? s).bind ofEntries?

def cluster (table : List (Text × List (Text × Text))) (name : Text) : List (Text × Text) :=
  (table.lookup name).getD []

def header (cluster : Text) : Text := "[programs." ++ cluster ++ "]"

def entry (name id : Text) : Text := name ++ " = " ++ Text.quoted id

def beginsTable (line : Text) : Bool := (Text.trimSpace line).head? = some 91

/-- The line is neither blank nor a comment. -/
def saysSomething (line : Text) : Bool :=
  let l := Text.trimSpace line
  !l.isEmpty && l.head? ≠ some 35

/-- The line gives a value to the name, written with or without quotes. -/
def sets (name line : Text) : Bool :=
  let l := Text.trimSpace line
  let key := Text.trimSpace (l.takeWhile (· ≠ 61))
  saysSomething line && l.contains 61 &&
    Text.trimRight (· = 34) (Text.trimLeft (· = 34) key) = name

/-- The first line that sets the name is replaced. -/
def replaceEntry (name new : Text) : List Text → List Text
  | [] => []
  | l :: ls => if sets name l then new :: ls else l :: replaceEntry name new ls

/-- The new line goes behind the last line that says something. -/
def insertEntry (new : Text) (lines : List Text) : List Text :=
  let after := lines.reverse.takeWhile (!saysSomething ·)
  lines.take (lines.length - after.length) ++ new :: after.reverse

def editSection (name new : Text) (lines : List Text) : List Text :=
  if lines.any (sets name) then replaceEntry name new lines else insertEntry new lines

/-- The text with a table that holds only this entry behind it. -/
def appendSection (text header new : Text) : Text :=
  let kept := Text.trimRight (· = 10) text
  let before : Text := if kept.isEmpty then [] else kept ++ "\n\n"
  before ++ header ++ "\n" ++ new ++ "\n"

def edit (text cluster name id : Text) : Text :=
  let isHeader (l : Text) : Bool := Text.trimSpace l = header cluster
  let lines := Text.lines text
  match lines.dropWhile (!isHeader ·) with
  | [] => appendSection text (header cluster) (entry name id)
  | h :: rest =>
    let body := rest.takeWhile (!beginsTable ·)
    Text.unlines (lines.takeWhile (!isHeader ·) ++ h :: editSection name (entry name id) body ++
      rest.drop body.length)

inductive Error where
  | unreadable (e : FileError)
  | malformed
  | malformedEdit
  | notRecorded (cluster name found : Text)
  | unwritable (e : FileError)

def Error.message (path : Text) : Error → Text
  | unreadable e => "read " ++ path ++ ": " ++ e.message
  | malformed => path ++ ", " ++ Failure.documentFault
  | malformedEdit => "rewrite " ++ path ++ ": " ++ Failure.documentFault
  | notRecorded c n found =>
    "rewrite " ++ path ++ ": programs." ++ c ++ "." ++ n ++ " is " ++ Text.quoted found ++
      " after update"
  | unwritable e => "write " ++ path ++ ": " ++ e.message

def read (t : FileTree) (path clusterName : Text) : Except Error (List (Text × Text)) := do
  let text ← (t.read path).mapError .unreadable
  let some table := ofText? text | throw .malformed
  return cluster table clusterName

/-- The text that recording an id leaves in a file. The edited text has to read back as a table
with this id. -/
def editChecked (text clusterName name id : Text) : Except Error Text := do
  let updated := edit text clusterName name id
  let some table := ofText? updated | throw .malformedEdit
  let found := ((cluster table clusterName).lookup name).getD []
  if found ≠ id then throw (.notRecorded clusterName name found)
  return updated

/-- The tree with an id recorded in the file at a path, which is made when there is none. -/
def record (t : FileTree) (path clusterName name id : Text) : Except Error FileTree := do
  let text ← match t.read path with
    | .ok text => pure text
    | .error e => if e.fault = .noEntry then pure [] else throw (.unreadable e)
  let updated ← editChecked text clusterName name id
  (t.write path updated).mapError .unwritable

end AnchorScript.ProgramTable
