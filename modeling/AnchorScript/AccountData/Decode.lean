import AnchorScript.AccountData.Basic
import AnchorScript.Interface.Discriminator

/-!
# Reading account data

The fields of an account are read in order after its discriminator; bytes after the last one are
not looked at. Every field is read before any of them is checked against its reservation.
-/

namespace AnchorScript.AccountData

def takeBytes (type : Text) (n : Nat) (s : Text) :
    Except Error ({ b : Text // b.length = n } × Text) :=
  if h : (s.take n).length = n then .ok (⟨s.take n, h⟩, s.drop n) else .error (.truncated type)

def ofTwosComplement (t : IntType) (n : Nat) : Int :=
  if t.signed && t.modulus / 2 ≤ n then n - t.modulus else n

/-- Reads one value of this kind, for a message about account type `type`. -/
def readValue (type : Text) : ValueKind → Text → Except Error (FieldValue × Text)
  | .int t, s => do
    let (b, r) ← takeBytes type (t.bits / 8) s
    return (.int (ofTwosComplement t (littleEndianValue b)), r)
  | .bool, s => do
    let (b, r) ← takeBytes type 1 s
    match b.1 with
    | [0] => return (.bool false, r)
    | [1] => return (.bool true, r)
    | x => .error (.notBool type (x.headD 0))
  | .string _, s => do
    let (b, r) ← takeBytes type 4 s
    let (t, r) ← takeBytes type (littleEndianValue b) r
    return (.string t, r)
  | .pubkey, s => do
    let (b, r) ← takeBytes type 32 s
    return (.key b, r)

def readFields (type : Text) : List StateField → Text → Except Error (List FieldValue)
  | [], _ => .ok []
  | f :: fs, s => do
    let (v, r) ← readValue type f.type.kind s
    return v :: (← readFields type fs r)

/-- A stored string is no longer than its field's reservation. -/
def checkRoom (f : StateField) (v : FieldValue) : Except Error Unit :=
  match f.type.kind, v with
  | .string max, .string s =>
    if 0 < max && max < s.length then .error (.overfull f.name s.length max) else .ok ()
  | _, _ => .ok ()

/-- The fields of an account of this type, in order. -/
def decode (st : StateType) (data : Text) : Except Error (List (StateField × FieldValue)) :=
  let found := data.take StateType.discriminatorSize
  let expected := Interface.accountDiscriminator st.name
  if data.length < st.minSize then .error (.tooShort data.length st.name st.minSize)
  else if found ≠ expected then .error (.discriminator found st.name expected)
  else do
    let values ← readFields st.name st.fields (data.drop StateType.discriminatorSize)
    let fields := st.fields.zip values
    fields.forM fun (f, v) => checkRoom f v
    return fields

end AnchorScript.AccountData
