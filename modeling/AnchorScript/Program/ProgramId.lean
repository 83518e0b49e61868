import AnchorScript.Base58
import AnchorScript.Text.Quoted

/-!
# Program ids

A program's address is the base-58 form of a 32-byte key.
-/

namespace AnchorScript.ProgramId

inductive Error where
  | notBase58 (id : Text) (cause : Base58.Error)
  | wrongLength (id : Text) (length : Nat)

def Error.message : Error → Text
  | .notBase58 id cause => Text.quoted id ++ " is not valid base58: " ++ cause.message
  | .wrongLength id n => Text.quoted id ++ " decodes to " ++ Text.ofNat n ++ " bytes, want 32"

def decode (id : Text) : Except Error Text :=
  match Base58.decode id with
  | .error e => .error (.notBase58 id e)
  | .ok key => if key.length = 32 then .ok key else .error (.wrongLength id key.length)

end AnchorScript.ProgramId
