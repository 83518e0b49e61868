import AnchorScript.Program.Basic
import AnchorScript.Base58

/-!
# Account data

The values of a state account's fields, the values that a caller offers for them, and what can be
wrong with either.
-/

namespace AnchorScript

abbrev KeyBytes := { k : Text // k.length = 32 }

inductive FieldValue where
  | int (n : Int)
  | bool (b : Bool)
  | string (s : Text)
  | key (k : KeyBytes)
  deriving DecidableEq

namespace FieldValue

def zero : ValueKind → FieldValue
  | .int _ => int 0
  | .bool => bool false
  | .string _ => string []
  | .pubkey => key ⟨List.replicate 32 0, by simp⟩

def text : FieldValue → Text
  | int n => Text.ofInt n
  | bool true => "true"
  | bool false => "false"
  | string s => Text.quoted s
  | key k => Base58.encode k

end FieldValue

namespace AccountData

/-- A value offered for a field, under the name of its own type; a type whose values no field can
hold offers none. -/
structure Offer where
  typeName : Text
  value : Option FieldValue

inductive Error where
  | tooShort (size : Nat) (type : Text) (minSize : Nat)
  | discriminator (found : Text) (type expected : Text)
  | truncated (type : Text)
  | notBool (type : Text) (byte : UInt8)
  | overfull (field : Text) (size room : Nat)
  | mismatch (field offered type : Text)
  | tooLong (field : Text) (size room : Nat)
  | outOfRange (field : Text) (n : Int) (type : Text)

def Error.message : Error → Text
  | tooShort n t m =>
    "account data is " ++ Text.ofNat n ++ " bytes, " ++ t ++ " needs at least " ++ Text.ofNat m
  | discriminator f t e =>
    "account discriminator " ++ Text.hex f ++ " does not match " ++ t ++ " (" ++ Text.hex e ++ ")"
  | truncated t => "decode " ++ t ++ ": failed to read required bytes"
  | notBool t b => "decode " ++ t ++ ": expected bool is 0 or 1, got " ++ Text.ofNat b.toNat
  | overfull f n m =>
    "field " ++ f ++ " holds " ++ Text.ofNat n ++ " bytes, more than its " ++ Text.ofNat m ++
      "-byte reservation"
  | mismatch f o t => "field " ++ f ++ ": cannot store " ++ o ++ " in " ++ t
  | tooLong f n m =>
    "field " ++ f ++ ": " ++ Text.ofNat n ++ " bytes exceed the " ++ Text.ofNat m ++
      "-byte reservation"
  | outOfRange f n t => "field " ++ f ++ ": " ++ Text.ofInt n ++ " does not fit " ++ t

/-- The `width` bytes of a number, least significant first. -/
def littleEndian : (width : Nat) → (n : Nat) → Text
  | 0, _ => []
  | w + 1, n => (n % 256).toUInt8 :: littleEndian w (n / 256)

def littleEndianValue : Text → Nat
  | [] => 0
  | b :: r => b.toNat + 256 * littleEndianValue r

end AccountData

end AnchorScript
