import AnchorScript.Workspace.Build
import Mathlib.Logic.Relation

/-!
# Builds with several workers

A build starts its sources in order, as many at a time as the configuration allows, and what is
started goes on by itself, one step on the files at a time. Writing a file takes two steps: it is
emptied when it is opened, and gets its text later. After a failure the sources that only begin end
as cancelled. When all have ended, the manifest is saved.
-/

namespace AnchorScript

/-- An open file gets its text. What it holds beyond the end of that text stays. -/
def FileTree.overwrite (t : FileTree) (path data : Text) : Except FileError FileTree := do
  t.write path (data ++ (← t.read path).drop data.length)

namespace Workspace

def filesOf (r : BuildResult) (out : CompileOutput) : List (Text × Text) :=
  (r.output, out.rust) :: out.interface.toList.map (r.interface, ·)

/-- How far a build has come with a source. -/
inductive Stage where
  | queued
  | begun
  | unread
  /-- Next the output is read, to be compared with the record. -/
  | comparing (src : Text) (a : Artifact)
  | comparingInterface (src : Text) (a : Artifact) (output : Text)
  /-- Next the directory of a file is made, and other files are to be written after it. -/
  | creating (b : BuildResult × Option Artifact) (path text : Text) (files : List (Text × Text))
  | opening (b : BuildResult × Option Artifact) (path text : Text) (files : List (Text × Text))
  | writing (b : BuildResult × Option Artifact) (path text : Text) (files : List (Text × Text))
  | built (b : BuildResult × Option Artifact)
  | failed (e : WorkspaceError)

namespace Stage

def isQueued : Stage → Bool
  | queued => true
  | _ => false

def built? : Stage → Option (BuildResult × Option Artifact)
  | built b => some b
  | _ => none

def fault? : Stage → Option WorkspaceError
  | failed e => some e
  | _ => none

def hasEnded (s : Stage) : Bool := s.built?.isSome || s.fault?.isSome

def isRunning (s : Stage) : Bool := !s.isQueued && !s.hasEnded

def saving (b : BuildResult × Option Artifact) : List (Text × Text) → Stage
  | [] => built b
  | (path, text) :: files => creating b path text files

def compiled (c : Config) (p src : Text) : Stage :=
  let r := target c p
  match compile c.options p src with
  | .error d => built ({ r with failure := some d }, none)
  | .ok out =>
    saving ({ r with program := out.program.name },
      some (Artifact.ofOutput p r.output r.interface src c.options out)) (filesOf r out)

/-- A source is skipped if what was read agrees with its record. -/
def compared (c : Config) (p src : Text) (a : Artifact) (output : Text) (interface : Option Text) :
    Stage :=
  if a.isUpToDate c.options src output interface then
    built ({ target c p with program := a.program, isSkipped := true }, none)
  else compiled c p src

/-- The next step with a source, on these files. -/
def advance (c : Config) (m : Manifest) (force stopped : Bool) (p : Text) (t : FileTree) :
    Stage → Option (FileTree × Stage)
  | queued | built _ | failed _ => none
  | begun => some (t, if stopped then failed .cancelled else unread)
  | unread => some (t, match t.read p with
    | .error e => failed (.read p e)
    | .ok src => match m.lookup p with
      | some a => if !force && a.interface = (target c p).interface then comparing src a
        else compiled c p src
      | none => compiled c p src)
  | comparing src a => some (t, match t.read (target c p).output with
    | .error _ => compiled c p src
    | .ok output =>
      if (target c p).interface.isEmpty then compared c p src a output none
      else comparingInterface src a output)
  | comparingInterface src a output => some (t, match t.read (target c p).interface with
    | .error _ => compiled c p src
    | .ok text => compared c p src a output (some text))
  | creating b path text files => some (match t.makeDirectories (Path.parent path) with
    | .error e => (t, failed (.create (Path.parent path) e))
    | .ok t' => (t', opening b path text files))
  | opening b path text files => some (match t.write path [] with
    | .error e => (t, failed (.write path e))
    | .ok t' => (t', writing b path text files))
  | writing b path text files => some (match t.overwrite path text with
    | .error e => (t, failed (.write path e))
    | .ok t' => (t', saving b files))

end Stage

/-- The files, the sources with their stages and the first failure. -/
structure Pool where
  tree : FileTree
  sources : List (Text × Stage)
  fault : Option WorkspaceError := none

namespace Pool

def initial (t : FileTree) (ps : List Text) : Pool := { tree := t, sources := ps.map (·, .queued) }

/-- Whether one more source may run. A negative limit is none. -/
def hasRoom (c : Config) (sources : List (Text × Stage)) : Prop :=
  c.workspace.parallelism < 0 ∨
    (sources.countP (·.2.isRunning) : Int) < c.workspace.parallelism

/-- The first source that waits is started, or any that runs goes on. -/
inductive Next (c : Config) (m : Manifest) (force cancelled : Bool) : Pool → Pool → Prop
  | start {t : FileTree} {before after : List (Text × Stage)} {p : Text}
      {fault : Option WorkspaceError} (hOrder : ∀ s ∈ before, s.2.isQueued = false)
      (hRoom : hasRoom c (before ++ (p, .queued) :: after)) :
      Next c m force cancelled ⟨t, before ++ (p, .queued) :: after, fault⟩
        ⟨t, before ++ (p, .begun) :: after, fault⟩
  | advance {t t' : FileTree} {before after : List (Text × Stage)} {p : Text} {s u : Stage}
      {fault : Option WorkspaceError}
      (hAdvance : s.advance c m force (cancelled || fault.isSome) p t = some (t', u)) :
      Next c m force cancelled ⟨t, before ++ (p, s) :: after, fault⟩
        ⟨t', before ++ (p, u) :: after, fault.or u.fault?⟩

def hasEnded (pool : Pool) : Prop := ∀ s ∈ pool.sources, s.2.hasEnded = true

def built (pool : Pool) : List (BuildResult × Option Artifact) :=
  pool.sources.filterMap (·.2.built?)

end Pool

/-- A build of this tree may end with this result and leave this tree. -/
inductive BuildsTo (c : Config) (force cancelled : Bool) (t : FileTree) :
    Except WorkspaceError (List BuildResult) → FileTree → Prop
  | undiscovered {e : WorkspaceError} (hDiscover : discover c t = .error e) :
      BuildsTo c force cancelled t (.error e) t
  | unloaded {ps : List Text} {e : WorkspaceError} (hDiscover : discover c t = .ok ps)
      (hLoad : loadManifest c t = .error e) : BuildsTo c force cancelled t (.error e) t
  | failed {ps : List Text} {m : Manifest} {pool : Pool} {e : WorkspaceError}
      (hDiscover : discover c t = .ok ps) (hLoad : loadManifest c t = .ok m)
      (hSteps : Relation.ReflTransGen (Pool.Next c m force cancelled) (.initial t ps) pool)
      (hEnded : pool.hasEnded) (hFault : pool.fault = some e) :
      BuildsTo c force cancelled t (.error e) pool.tree
  | saved {ps : List Text} {m : Manifest} {pool : Pool} {res : Except WorkspaceError Unit}
      {t' : FileTree} (hDiscover : discover c t = .ok ps) (hLoad : loadManifest c t = .ok m)
      (hSteps : Relation.ReflTransGen (Pool.Next c m force cancelled) (.initial t ps) pool)
      (hEnded : pool.hasEnded) (hFault : pool.fault = none)
      (hSave : (saveManifest c ((pool.built.filterMap (·.2)).foldl Manifest.put m)).run.run
        pool.tree = (res, t')) :
      BuildsTo c force cancelled t (res.map fun _ => pool.built.map (·.1)) t'

end Workspace

end AnchorScript
