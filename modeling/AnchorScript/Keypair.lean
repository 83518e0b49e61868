import AnchorScript.Json
import AnchorScript.Base58
import AnchorScript.Diagnostic
import AnchorScript.FileTree.Basic
import AnchorScript.Text.Integer

/-!
# Keypair files

A keypair file is a JSON array of 64 byte values: a secret key and, in the second half, the public
key whose base-58 form is the program id.
-/

namespace AnchorScript.Keypair

inductive Error where
  | unreadable (e : FileError)
  | malformed
  | outOfRange (n : Int)
  | wrongSize (n : Nat)

def Error.message (path : Text) : Error → Text
  | unreadable e => "read keypair " ++ path ++ ": " ++ e.message
  | malformed => "parse keypair " ++ path ++ ": " ++ Failure.documentFault
  | outOfRange n =>
    "parse keypair " ++ path ++ ": byte value " ++ Text.ofInt n ++ " out of range"
  | wrongSize n =>
    "keypair " ++ path ++ ": key length mismatch, expected: 64, got: " ++ Text.ofNat n

/-- A number of the document; a null counts as zero. -/
def number? : Json → Option Int
  | .null => some 0
  | .number n => if fitsWord n then some n else none
  | _ => none

/-- The numbers of a document that is an array, or null. -/
def numbers? : Json → Option (List Int)
  | .null => some []
  | .array es => es.mapM number?
  | _ => none

def toByte (n : Int) : Except Error UInt8 :=
  if n < 0 || 255 < n then .error (.outOfRange n) else .ok n.toNat.toUInt8

def programId (s : Text) : Except Error Text := do
  let some ns := (Json.ofText? s).bind numbers? | throw .malformed
  let key ← ns.mapM toByte
  if key.length ≠ 64 then throw (.wrongSize key.length)
  return Base58.encode (key.drop 32)

def programIdAt (t : FileTree) (path : Text) : Except Error Text := do
  programId (← (t.read path).mapError .unreadable)

end AnchorScript.Keypair
