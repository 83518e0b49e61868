import AnchorScript.AccountData.Basic
import AnchorScript.Interface.Discriminator

/-!
# Writing account data

The data of an account is its type's discriminator, the fields in order, and zeros up to the space
allocated for it. Integers are little-endian, negative ones in two's complement, and a string is
preceded by its length.
-/

namespace AnchorScript.AccountData

def store (f : StateField) (o : Offer) : Except Error FieldValue :=
  let mismatch : Except Error FieldValue := .error (.mismatch f.name o.typeName f.type.name)
  match f.type.kind, o.value with
  | .bool, some (.bool b) => .ok (.bool b)
  | .string max, some (.string s) =>
    if 0 < max && max < s.length then .error (.tooLong f.name s.length max) else .ok (.string s)
  | .pubkey, some (.key k) => .ok (.key k)
  | .int t, some (.int n) =>
    if t.fits n then .ok (.int n) else .error (.outOfRange f.name n f.type.name)
  | _, _ => mismatch

/-- The value that the offers give a field; without an offer it is zero. -/
def fieldValue (offers : Text → Option Offer) (f : StateField) : Except Error FieldValue :=
  match offers f.name with
  | some o => store f o
  | none => .ok (.zero f.type.kind)

def valueBytes : ValueKind → FieldValue → Text
  | .int t, .int n => littleEndian (t.bits / 8) (n % t.modulus).toNat
  | _, .int _ => []
  | _, .bool b => [if b then 1 else 0]
  | _, .string s => littleEndian 4 s.length ++ s
  | _, .key k => k

/-- Zeros after the data, up to `size` bytes. -/
def padTo (size : Int) (data : Text) : Text :=
  data ++ List.replicate (size.toNat - data.length) 0

def encode (st : StateType) (offers : Text → Option Offer) : Except Error Text := do
  let values ← st.fields.mapM (fieldValue offers)
  let body := (st.fields.zip values).flatMap fun (f, v) => valueBytes f.type.kind v
  return padTo st.space (Interface.accountDiscriminator st.name ++ body)

end AnchorScript.AccountData
