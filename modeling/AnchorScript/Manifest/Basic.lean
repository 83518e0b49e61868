import AnchorScript.Compiler
import AnchorScript.Hash.Keccak256
import AnchorScript.Text.Trim

/-!
# Build manifests

A manifest records what a build produced: for every source the outputs, the options and the digests
of all texts. A source whose record still matches need not be compiled again.
-/

namespace AnchorScript

def packageVersion : Text := "0.3.0"

def compilerId : Text := "anchorgen/" ++ packageVersion

/-- The record of one source. The paths are as the build named them; a source without an interface
description has an empty path and digest for it. -/
structure Artifact where
  source : Text := []
  output : Text := []
  interface : Text := []
  program : Text := []
  programId : Text := []
  compiler : Text := []
  options : Text := []
  sourceHash : Text := []
  outputHash : Text := []
  interfaceHash : Text := []
  deriving DecidableEq

namespace Artifact

def ofOutput (source output interface src : Text) (o : CompileOptions) (out : CompileOutput) :
    Artifact :=
  let base : Artifact :=
    { source, output
      program := out.program.name
      programId := out.program.programId
      compiler := compilerId
      options := o.fingerprint
      sourceHash := Keccak256.hex src
      outputHash := Keccak256.hex out.rust }
  match out.interface with
  | some text =>
    if interface.isEmpty then base
    else { base with interface, interfaceHash := Keccak256.hex text }
  | none => base

def sameHash (a b : Text) : Bool := a.map Text.lowerByte = b.map Text.lowerByte

/-- Compiling the source with these options would reproduce what is there: compiler and options are
the recorded ones, and the digests of source, output and description match. -/
def isUpToDate (a : Artifact) (o : CompileOptions) (src output : Text) (interface : Option Text) :
    Bool :=
  a.compiler = compilerId && a.options = o.fingerprint &&
    sameHash a.sourceHash (Keccak256.hex src) &&
    sameHash a.outputHash (Keccak256.hex output) &&
    match interface with
    | none => a.interfaceHash.isEmpty
    | some text => !a.interfaceHash.isEmpty && sameHash a.interfaceHash (Keccak256.hex text)

inductive HashError where
  | empty
  | unmarked
  | wrongSize
  | badDigit (byte : UInt8)

/-- A code point with its character, where that is printable. -/
def codePoint (n : Nat) : Text :=
  let code : Text := "U+" ++ (Text.Quoted.hexDigits 4 n).map fun b =>
    if Text.isLower b then b - 32 else b
  let char := Char.ofNat n
  if Text.isPrintable char then code ++ " '" ++ String.utf8EncodeChar char ++ "'" else code

def HashError.message : HashError → Text
  | empty => "empty hash"
  | unmarked => "hash must start with 0x"
  | wrongSize => "hash must be 32 bytes"
  | badDigit b => "encoding/hex: invalid byte: " ++ codePoint b.toNat

/-- A digest is written as `0x` and 64 hexadecimal digits, in either case. -/
def checkHash (s : Text) : Except HashError Unit :=
  let t := Text.trimSpace (Text.toLower s)
  if t.isEmpty then .error .empty
  else match Text.dropStart? "0x" t with
    | none => .error .unmarked
    | some digits =>
      if digits.length ≠ 64 then .error .wrongSize
      else match digits.find? fun b => (Text.hexValue? b).isNone with
        | some b => .error (.badDigit b)
        | none => .ok ()

inductive Error where
  | noSource
  | badHash (what source : Text) (e : HashError)

def Error.message : Error → Text
  | noSource => "artifact source path is required"
  | badHash what source e => "invalid " ++ what ++ " hash for " ++ source ++ ": " ++ e.message

def validate (a : Artifact) : Except Error Unit := do
  if (Text.trimSpace a.source).isEmpty then throw .noSource
  (checkHash a.sourceHash).mapError (.badHash "source" a.source)
  (checkHash a.outputHash).mapError (.badHash "output" a.source)
  if !a.interfaceHash.isEmpty then
    (checkHash a.interfaceHash).mapError (.badHash "idl" a.source)

end Artifact

structure Manifest where
  version : Int := 0
  compiler : Text := []
  artifacts : List Artifact := []
  deriving DecidableEq

namespace Manifest

def formatVersion : Int := 1

/-- The record of a source: the first one with its path. -/
def lookup (m : Manifest) (source : Text) : Option Artifact := m.artifacts.find? (·.source = source)

/-- The records with the first one of the same source replaced, or with this one added. -/
def putArtifact (a : Artifact) : List Artifact → List Artifact
  | [] => [a]
  | b :: bs => if b.source = a.source then a :: bs else b :: putArtifact a bs

def put (m : Manifest) (a : Artifact) : Manifest :=
  { m with artifacts := putArtifact a m.artifacts }

end Manifest

end AnchorScript
