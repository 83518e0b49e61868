import AnchorScript.Text.Basic

/-!
# Trees of files

Operations on the text of a path do not look at any file.

A working directory is a tree of named files and directories. A path is followed name by name, and
every name but the last has to be a directory.
-/

namespace AnchorScript

namespace Path

def slash : UInt8 := 47

def isAbsolute (p : Text) : Bool := p.head? = some slash

/-- The names of a path with single dots left out and double dots resolved. The names read so far
come last first; at the root a double dot stays at the root. -/
def resolve (rooted : Bool) : (read : List Text) → List Text → List Text
  | read, [] => read.reverse
  | read, n :: ns =>
    if n = [] || n = "." then resolve rooted read ns
    else if n = ".." then
      match read with
      | [] => resolve rooted (if rooted then [] else [n]) ns
      | r :: rs => if r = ".." then resolve rooted (n :: r :: rs) ns else resolve rooted rs ns
    else resolve rooted (n :: read) ns

/-- The shortest path that means the same; an empty path means the current directory. -/
def clean (p : Text) : Text :=
  let names := Text.join "/" (resolve (isAbsolute p) [] (Text.splitOn slash p))
  if isAbsolute p then slash :: names else if names.isEmpty then "." else names

/-- The parts that are not empty, one below the other. -/
def join (parts : List Text) : Text :=
  match parts.filter (!·.isEmpty) with
  | [] => []
  | ps => clean (Text.join "/" ps)

def upToSlash (p : Text) : Text := Text.trimRight (· ≠ slash) p

def parent (p : Text) : Text := clean (upToSlash p)

def base (p : Text) : Text :=
  if p.isEmpty then "."
  else
    let q := Text.trimRight (· = slash) p
    if q.isEmpty then "/" else q.drop (upToSlash q).length

/-- The ending of the last name, from its last dot on. -/
def extension (p : Text) : Text :=
  let name := p.drop (upToSlash p).length
  if name.contains 46 then name.drop ((Text.trimRight (· ≠ 46) name).length - 1) else []

def stem (p : Text) : Text :=
  (Text.dropEnd? (extension p) (base p)).getD (base p)

end Path

inductive FileTree where
  | file (data : Text)
  | directory (entries : List (Text × FileTree))

inductive FileFault where
  | noEntry
  | notDirectory
  | isDirectory
  | entryExists
  deriving DecidableEq

def FileFault.text : FileFault → Text
  | noEntry => "no such file or directory"
  | notDirectory => "not a directory"
  | isDirectory => "is a directory"
  | entryExists => "file exists"

/-- What was attempted on which path, and why it failed. -/
structure FileError where
  operation : Text
  path : Text
  fault : FileFault
  deriving DecidableEq

def FileError.message (e : FileError) : Text :=
  e.operation ++ " " ++ e.path ++ ": " ++ e.fault.text

namespace FileTree

def empty : FileTree := directory []

def isDirectory : FileTree → Bool
  | file _ => false
  | directory _ => true

/-- What stands at a place, given by its names from the top. -/
def get? : FileTree → List Text → Option FileTree
  | t, [] => some t
  | file _, _ :: _ => none
  | directory es, n :: ns => (es.lookup n).bind (·.get? ns)

/-- The entries with the first one of this name replaced, or with a new one. -/
def putEntry (name : Text) (t : FileTree) : List (Text × FileTree) → List (Text × FileTree)
  | [] => [(name, t)]
  | (n, u) :: es => if n = name then (n, t) :: es else (n, u) :: putEntry name t es

def put (new : FileTree) : FileTree → List Text → FileTree
  | _, [] => new
  | file d, _ :: _ => file d
  | directory es, n :: ns =>
    match es.lookup n with
    | some t => directory (putEntry n (put new t ns) es)
    | none => if ns.isEmpty then directory (putEntry n new es) else directory es

def erase : FileTree → List Text → FileTree
  | t, [] => t
  | file d, _ :: _ => file d
  | directory es, [n] => directory (es.filter (·.1 ≠ n))
  | directory es, n :: ns =>
    match es.lookup n with
    | some t => directory (putEntry n (erase t ns) es)
    | none => directory es

/-- Follows the names of a path from a place. Every place passed is a directory; the last need not
exist. -/
def follow (t : FileTree) : (here : List Text) → List Text → Except FileFault (List Text)
  | here, [] => .ok here
  | here, n :: ns =>
    match t.get? here with
    | none => .error .noEntry
    | some (file _) => .error .notDirectory
    | some (directory _) =>
      if n = [] || n = "." then follow t here ns
      else if n = ".." then follow t here.dropLast ns
      else follow t (here ++ [n]) ns

def locate (t : FileTree) (path : Text) : Except FileFault (List Text) :=
  if path.isEmpty then .error .noEntry else follow t [] (Text.splitOn Path.slash path)

def find (t : FileTree) (path : Text) : Except FileFault FileTree := do
  match t.get? (← t.locate path) with
  | some u => return u
  | none => throw .noEntry

def read (t : FileTree) (path : Text) : Except FileError Text :=
  match t.find path with
  | .error e => .error ⟨"open", path, e⟩
  | .ok (directory _) => .error ⟨"read", path, .isDirectory⟩
  | .ok (file d) => .ok d

/-- The tree with this file written, over what it held before. -/
def write (t : FileTree) (path data : Text) : Except FileError FileTree :=
  match t.locate path with
  | .error e => .error ⟨"open", path, e⟩
  | .ok place =>
    match t.get? place with
    | some (directory _) => .error ⟨"open", path, .isDirectory⟩
    | _ => .ok (put (file data) t place)

def makeDirectory (t : FileTree) (path : Text) : Except FileError FileTree :=
  let isSlash (b : UInt8) : Bool := b = Path.slash
  match t.locate (if path.all isSlash then path else Text.trimRight isSlash path) with
  | .error e => .error ⟨"mkdir", path, e⟩
  | .ok place =>
    match t.get? place with
    | some _ => .error ⟨"mkdir", path, .entryExists⟩
    | none => .ok (put empty t place)

def makeDirectories (t : FileTree) (path : Text) : Except FileError FileTree :=
  match t.find path with
  | .ok (directory _) => .ok t
  | .ok (file _) => .error ⟨"mkdir", path, .notDirectory⟩
  | .error _ =>
    let above := Path.upToSlash (Text.trimRight (· = Path.slash) path)
    if _h : 0 < above.length ∧ above.length < path.length then do
      makeDirectory (← makeDirectories t above) path
    else makeDirectory t path
termination_by path.length
decreasing_by exact _h.2

mutual
def files (here : List Text) : FileTree → List (List Text × Text)
  | file d => [(here, d)]
  | directory es => filesOf here es

def filesOf (here : List Text) : List (Text × FileTree) → List (List Text × Text)
  | [] => []
  | (n, t) :: es => files (here ++ [n]) t ++ filesOf here es
end

end FileTree

end AnchorScript
