import AnchorScript.Config.Basic
import AnchorScript.FileTree.Basic
import AnchorScript.Keypair
import AnchorScript.Manifest.Document
import AnchorScript.Program.IdLiteral
import AnchorScript.ProgramTable

/-!
# Workspaces

Work on a workspace changes a tree of files and ends with a result or an error; what it wrote
before an error stays written. A program that does not compile is a result, not an error.

The sources of a workspace are the files with ending `.ts` below its programs directory, except
declaration files. Hidden directories and installed packages are not entered.
-/

namespace AnchorScript

inductive WorkspaceError where
  | discover (directory : Text) (e : FileError)
  | cancelled
  | readManifest (e : FileError)
  | encodeManifest (e : Artifact.Error)
  | read (path : Text) (e : FileError)
  | create (directory : Text) (e : FileError)
  | write (path : Text) (e : FileError)
  | keypair (path : Text) (e : Keypair.Error)
  | replaceId (path : Text) (e : ProgramId.ReplaceError)
  | programTable (path : Text) (e : ProgramTable.Error)

def WorkspaceError.message : WorkspaceError → Text
  | discover d e => "discover " ++ d ++ ": " ++ e.message
  | cancelled => "context canceled"
  | readManifest e => "read build manifest: " ++ e.message
  | encodeManifest e => "encode build manifest: " ++ e.message
  | read p e => "read " ++ p ++ ": " ++ e.message
  | create d e => "create " ++ d ++ ": " ++ e.message
  | write p e => "write " ++ p ++ ": " ++ e.message
  | keypair p e => e.message p
  | replaceId p e => "rewrite " ++ p ++ ": " ++ e.message
  | programTable p e => e.message p

abbrev Work := ExceptT WorkspaceError (StateM FileTree)

namespace Workspace

def path (c : Config) (p : Text) : Text :=
  if Path.isAbsolute p then p else Path.join [c.workspace.root, p]

def examine {α ε : Type} (wrap : ε → WorkspaceError) (f : FileTree → Except ε α) : Work α := do
  match f (← get) with
  | .ok a => return a
  | .error e => throw (wrap e)

def change {ε : Type} (wrap : ε → WorkspaceError) (f : FileTree → Except ε FileTree) :
    Work Unit := do
  set (← examine wrap f)

def writeBelow (p data : Text) : Work Unit := do
  change (.create (Path.parent p)) fun t => t.makeDirectories (Path.parent p)
  change (.write p) fun t => t.write p data

def isSource (p : Text) : Bool :=
  (Text.ofString ".ts").isSuffixOf p && !(Text.ofString ".d.ts").isSuffixOf p

/-- A directory that holds installed packages. -/
def isPackages (name : Text) : Bool := name = "node_modules"

def isHidden (name : Text) : Bool := name.head? = some 46

mutual
def sourcesAt (p name : Text) : FileTree → List Text
  | .file _ => if isSource p then [p] else []
  | .directory es => if isHidden name || isPackages name then [] else sourcesBelow p es

def sourcesBelow (p : Text) : List (Text × FileTree) → List Text
  | [] => []
  | (n, t) :: es => sourcesAt (Path.join [p, n]) n t ++ sourcesBelow p es
end

def sourcesOf (p : Text) : FileTree → List Text
  | .file _ => if isSource p then [p] else []
  | .directory es => if isPackages (Path.base p) then [] else sourcesBelow p es

def discover (c : Config) (t : FileTree) : Except WorkspaceError (List Text) :=
  let dir := path c c.workspace.programsDir
  match t.find dir with
  | .error e => .error (.discover dir ⟨"lstat", dir, e⟩)
  | .ok u => .ok ((sourcesOf dir u).mergeSort fun a b => decide (a ≤ b))

end Workspace

end AnchorScript
