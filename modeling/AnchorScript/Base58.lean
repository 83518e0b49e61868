import AnchorScript.Text.Quoted

/-!
# Base-58 numbers

A byte string is written as a number in base 58, with one digit one for each leading zero byte.
-/

namespace AnchorScript.Base58

def alphabet : Text := "123456789ABCDEFGHJKLMNPQRSTUVWXYZabcdefghijkmnopqrstuvwxyz"

def digit? (b : UInt8) : Option Nat := alphabet.findIdx? (· = b)

inductive Error where
  | empty
  | nonAscii
  | badDigit (c : Char)

def quotedChar (c : Char) : Text :=
  if c = '\'' then "'\\''"
  else if c = '"' then "'\"'"
  else "'" ++ Text.Quoted.escapeChar c ++ "'"

def Error.message : Error → Text
  | .empty => "zero length string"
  | .nonAscii => "high-bit set on invalid digit"
  | .badDigit c => "invalid base58 digit (" ++ quotedChar c ++ ")"

/-- The value of `n` followed by the digits, or what is wrong with the first character that is
none. -/
def value (n : Nat) : List Char → Except Error Nat
  | [] => .ok n
  | c :: cs =>
    if c.toNat > 127 then .error .nonAscii
    else match digit? c.toUInt8 with
      | none => .error (.badDigit c)
      | some d => value (58 * n + d) cs

def bigEndian (n : Nat) : Text :=
  if n = 0 then [] else bigEndian (n / 256) ++ [(n % 256).toUInt8]
termination_by n

def decode (s : Text) : Except Error Text :=
  if s.isEmpty then .error .empty
  else do
    let n ← value 0 (Text.chars s)
    return (s.takeWhile (· = 49)).map (fun _ => 0) ++ bigEndian n

def bigEndianValue (s : Text) : Nat := s.foldl (fun n b => 256 * n + b.toNat) 0

def digits (n : Nat) : Text :=
  if n = 0 then [] else digits (n / 58) ++ [alphabet.getD (n % 58) 49]
termination_by n

def encode (s : Text) : Text :=
  (s.takeWhile (· = 0)).map (fun _ => 49) ++ digits (bigEndianValue s)

end AnchorScript.Base58
