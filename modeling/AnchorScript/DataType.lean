import AnchorScript.Text.Basic
import AnchorScript.Text.Integer

/-!
# Types

The fixed vocabulary of types: the roles an account can play in an instruction and the types of
plain values, with their meaning in Rust and in interface descriptions.
-/

namespace AnchorScript

inductive Role where
  | signer
  | systemAccount
  | unchecked
  | mint
  | tokenAccount
  | associatedToken
  | tokenProgram
  | state (name : Text)
  deriving DecidableEq

namespace Role

def fixed : List Role :=
  [signer, systemAccount, unchecked, mint, tokenAccount, associatedToken, tokenProgram]

def typeName : Role → Text
  | signer => "Signer"
  | systemAccount => "SystemAccount"
  | unchecked => "UncheckedAccount"
  | mint => "Mint"
  | tokenAccount => "TokenAccount"
  | associatedToken => "AssociatedTokenAccount"
  | tokenProgram => "TokenProgram"
  | state n => n

def text : Role → Text
  | signer => "signer"
  | systemAccount => "system-account"
  | unchecked => "unchecked"
  | mint => "mint"
  | tokenAccount => "token-account"
  | associatedToken => "associated-token-account"
  | tokenProgram => "token-program"
  | state _ => "state"

/-- Signers, state and everything else. -/
def category : Role → Text
  | signer => "signer"
  | state _ => "state"
  | _ => "auxiliary"

def isToken : Role → Bool
  | mint | tokenAccount | associatedToken | tokenProgram => true
  | _ => false

def isState : Role → Bool
  | state _ => true
  | _ => false

def rust : Role → Text
  | signer => "Signer<'info>"
  | systemAccount => "SystemAccount<'info>"
  | unchecked => "UncheckedAccount<'info>"
  | mint => "Account<'info, Mint>"
  | tokenAccount | associatedToken => "Account<'info, TokenAccount>"
  | tokenProgram => "Program<'info, Token>"
  | state n => "Account<'info, " ++ n ++ ">"

end Role

inductive IntWidth where
  | w8 | w16 | w32 | w64 | w128
  deriving DecidableEq

def IntWidth.bits : IntWidth → Nat
  | w8 => 8
  | w16 => 16
  | w32 => 32
  | w64 => 64
  | w128 => 128

structure IntType where
  width : IntWidth
  signed : Bool
  deriving DecidableEq

namespace IntType

def all : List IntType :=
  [⟨.w8, false⟩, ⟨.w16, false⟩, ⟨.w32, false⟩, ⟨.w64, false⟩, ⟨.w128, false⟩,
    ⟨.w8, true⟩, ⟨.w16, true⟩, ⟨.w32, true⟩, ⟨.w64, true⟩, ⟨.w128, true⟩]

def bits (t : IntType) : Nat := t.width.bits

def name (t : IntType) : Text := (if t.signed then "i" else "u") ++ Text.ofNat t.bits

/-- How many numbers the type has. -/
def modulus (t : IntType) : Nat := Nat.pow 2 t.bits

def least (t : IntType) : Int := if t.signed then -(t.modulus / 2) else 0

/-- One more than the greatest number of the type. -/
def limit (t : IntType) : Int := if t.signed then t.modulus / 2 else t.modulus

def fits (t : IntType) (n : Int) : Bool := t.least ≤ n && n < t.limit

end IntType

/-- What a plain value is. A string has room for a number of bytes. -/
inductive ValueKind where
  | int (t : IntType)
  | bool
  | string (maxLen : Nat)
  | pubkey
  deriving DecidableEq

namespace ValueKind

def text : ValueKind → Text
  | int _ => "integer"
  | bool => "bool"
  | string _ => "string"
  | pubkey => "pubkey"

/-- Bytes of a stored value, a string at its full length. -/
def byteSize : ValueKind → Nat
  | int t => t.bits / 8
  | bool => 1
  | string n => 4 + n
  | pubkey => 32

/-- Bytes that every value of the kind has: an empty string keeps its length. -/
def minSize : ValueKind → Nat
  | string _ => 4
  | k => k.byteSize

def rust : ValueKind → Text
  | int t => t.name
  | bool => "bool"
  | string _ => "String"
  | pubkey => "Pubkey"

def interfaceName : ValueKind → Text
  | int t => t.name
  | bool => "bool"
  | string _ => "string"
  | pubkey => "pubkey"

def isInt : ValueKind → Bool
  | int _ => true
  | _ => false

def fits : ValueKind → Int → Bool
  | int t, n => t.fits n
  | _, _ => false

/-- Values of equal kinds can be assigned, whatever their widths and lengths. -/
def assignableFrom : ValueKind → ValueKind → Bool
  | int _, int _ => true
  | bool, bool => true
  | string _, string _ => true
  | pubkey, pubkey => true
  | _, _ => false

end ValueKind

/-- A kind of value under the name it was written with. -/
structure ValueType where
  name : Text
  kind : ValueKind
  deriving DecidableEq

namespace ValueType

def ofInt (t : IntType) : ValueType := ⟨t.name, .int t⟩

def u8 : ValueType := ofInt ⟨.w8, false⟩

def u64 : ValueType := ofInt ⟨.w64, false⟩

def pubkey : ValueType := ⟨"Pubkey", .pubkey⟩

/-- The type of a number literal that nothing else gives a type. -/
def intLiteral : ValueType := ⟨"integer", .int ⟨.w64, false⟩⟩

end ValueType

inductive DataType where
  | account (r : Role)
  | value (t : ValueType)
  deriving DecidableEq

namespace DataType

def name : DataType → Text
  | account r => r.typeName
  | value t => t.name

def isAccount : DataType → Bool
  | account _ => true
  | value _ => false

def role? : DataType → Option Role
  | account r => some r
  | value _ => none

def value? : DataType → Option ValueType
  | account _ => none
  | value t => some t

/-- Bytes reserved for a string field without a length of its own. -/
def defaultMaxLen : Nat := 32

/-- A sign or none, and digits, within the signed 64-bit words. -/
def wordOfDecimal? (s : Text) : Option Int :=
  let (negative, ds) : Bool × Text := match s with
    | 45 :: r => (true, r)
    | 43 :: r => (false, r)
    | _ => (false, s)
  if ds.isEmpty || !ds.all Text.isDigit then none
  else
    let n : Int := if negative then -(Text.natValue ds) else Text.natValue ds
    if fitsWord n then some n else none

/-- The reservation of a string written with an argument: a positive number. -/
def maxLenOfArg? (arg : Text) : Option Nat :=
  match wordOfDecimal? arg with
  | some n => if 0 < n then some n.toNat else none
  | none => none

def valueType? (stringMaxLen : Nat) (name : Text) : Option ValueType :=
  match IntType.all.find? (·.name = name) with
  | some t => some (.ofInt t)
  | none =>
    if name = "boolean" || name = "bool" then some ⟨name, .bool⟩
    else if name = "string" then some ⟨name, .string stringMaxLen⟩
    else if name = "Pubkey" then some .pubkey
    else none

/-- The type a name and argument stand for. The vocabulary comes before the program's own state
types, and only strings take an argument. -/
def lookup? (name : Text) (arg : Option Text) (isState : Text → Bool) (stringMaxLen : Nat) :
    Option DataType :=
  match arg with
  | some a =>
    if name = "Str" then
      (maxLenOfArg? a).map fun n => .value ⟨"Str<" ++ a ++ ">", .string n⟩
    else none
  | none =>
    match valueType? stringMaxLen name with
    | some t => some (.value t)
    | none =>
      match Role.fixed.find? (·.typeName = name) with
      | some r => some (.account r)
      | none => if isState name then some (.account (.state name)) else none

end DataType

end AnchorScript
