import AnchorScript.Manifest.Basic
import AnchorScript.Json
import AnchorScript.Diagnostic
import AnchorScript.Quicksort
import AnchorScript.Text.Integer

/-!
# Manifests as documents

A manifest is kept as a JSON document with its records in the order of their sources. Reading takes
the members it knows, in any order and under any spelling of case, and leaves out the others; a
repeated member updates what the earlier one gave, and a null changes nothing but a list of records,
which it empties.
-/

namespace AnchorScript

namespace Artifact

/-- A member that is left out when its text is empty. -/
def optionalMember (key value : Text) : List (Text × Json) :=
  if value.isEmpty then [] else [(key, .string value)]

def toJson (a : Artifact) : Json :=
  let member (key value : Text) : Text × Json := (key, .string value)
  .object ([member "source" a.source, member "output" a.output] ++
    optionalMember "idl" a.interface ++
    [member "program" a.program, member "program_id" a.programId, member "compiler" a.compiler,
      member "options" a.options, member "source_hash" a.sourceHash,
      member "output_hash" a.outputHash] ++
    optionalMember "idl_hash" a.interfaceHash)

/-- A character without its case; the long s and the Kelvin sign count as letters of ASCII. -/
def foldChar (c : Char) : Char :=
  if c = '\u017f' then 's' else if c = '\u212a' then 'k' else c.toLower

/-- A member's name without case. -/
def foldKey (k : Text) : Text := Text.ofChars ((Text.chars k).map foldChar)

/-- How a member changes a record; `none` where no member has this name. -/
def setter? (key : Text) : Option (Artifact → Text → Artifact) :=
  let key := foldKey key
  if key = "source" then some fun a s => { a with source := s }
  else if key = "output" then some fun a s => { a with output := s }
  else if key = "idl" then some fun a s => { a with interface := s }
  else if key = "program" then some fun a s => { a with program := s }
  else if key = "program_id" then some fun a s => { a with programId := s }
  else if key = "compiler" then some fun a s => { a with compiler := s }
  else if key = "options" then some fun a s => { a with options := s }
  else if key = "source_hash" then some fun a s => { a with sourceHash := s }
  else if key = "output_hash" then some fun a s => { a with outputHash := s }
  else if key = "idl_hash" then some fun a s => { a with interfaceHash := s }
  else none

def updateMember (a : Artifact) (key : Text) (v : Json) : Option Artifact :=
  match setter? key, v with
  | none, _ => some a
  | some _, .null => some a
  | some set, .string s => some (set a s)
  | some _, _ => none

/-- The record changed by a document; `none` where a value has the wrong type. -/
def update (a : Artifact) : Json → Option Artifact
  | .null => some a
  | .object ms => ms.foldlM (fun a (k, v) => updateMember a k v) a
  | _ => none

/-- Each element updates the record at its place, or a fresh one. -/
def updateAll : List Artifact → List Json → Option (List Artifact)
  | _, [] => some []
  | [], e :: es => do return (← update {} e) :: (← updateAll [] es)
  | a :: as, e :: es => do return (← update a e) :: (← updateAll as es)

end Artifact

namespace Manifest

/-- The order of the records in a document. Distinct sources have one order; records of one source
come as the quicksort leaves them. -/
def sorted (as : List Artifact) : List Artifact :=
  if (as.map (·.source)).Nodup then as.mergeSort fun a b => decide (a.source ≤ b.source)
  else Quicksort.sort (fun a b => decide (a.source < b.source)) as

def toJson (version : Int) (artifacts : List Artifact) : Json :=
  let listed : Json := if artifacts.isEmpty then .null else .array (artifacts.map Artifact.toJson)
  .object [("version", .number version), ("compiler", .string compilerId), ("artifacts", listed)]

def encode (m : Manifest) : Except Artifact.Error Text := do
  let artifacts := sorted m.artifacts
  artifacts.forM Artifact.validate
  let version := if m.version = 0 then formatVersion else m.version
  return (toJson version artifacts).text ++ "\n"

/-- A manifest that is being read, with the records that a shorter list of records has left behind.
A later list updates them again. -/
structure Draft where
  manifest : Manifest := {}
  left : List Artifact := []

namespace Draft

/-- Lists update records place by place; an empty list forgets all of them. -/
def updateArtifacts (d : Draft) (elements : List Json) : Option Draft :=
  if elements.isEmpty then some ⟨{ d.manifest with artifacts := [] }, []⟩
  else do
    let known := d.manifest.artifacts ++ d.left
    let artifacts ← Artifact.updateAll known elements
    return ⟨{ d.manifest with artifacts := artifacts }, known.drop elements.length⟩

def updateMember (d : Draft) (key : Text) (v : Json) : Option Draft :=
  let key := Artifact.foldKey key
  if key = "version" then match v with
    | .null => some d
    | .number n =>
      if fitsWord n then some { d with manifest := { d.manifest with version := n } } else none
    | _ => none
  else if key = "compiler" then match v with
    | .null => some d
    | .string s => some { d with manifest := { d.manifest with compiler := s } }
    | _ => none
  else if key = "artifacts" then match v with
    | .null => d.updateArtifacts []
    | .array es => d.updateArtifacts es
    | _ => none
  else some d

end Draft

def ofJson? : Json → Option Manifest
  | .null => some {}
  | .object ms => do return (← ms.foldlM (fun (d : Draft) (k, v) => d.updateMember k v) {}).manifest
  | _ => none

inductive Error where
  | malformed
  | version (found : Int)
  | artifact (e : Artifact.Error)

def Error.message : Error → Text
  | malformed => "invalid manifest: " ++ Failure.documentFault
  | version n =>
    "unsupported manifest version: got=" ++ Text.ofInt n ++ " want=" ++ Text.ofInt formatVersion
  | artifact e => e.message

def decode (s : Text) : Except Error Manifest := do
  let some m := (Json.ofText? s).bind ofJson? | throw .malformed
  if m.version ≠ formatVersion then throw (.version m.version)
  m.artifacts.forM fun a => a.validate.mapError .artifact
  return m

end Manifest

end AnchorScript
