import AnchorScript.Text.Quoted
import AnchorScript.Rust.Name
import AnchorScript.Program.Basic

/-!
# Expressions in Rust

String literals and the expressions that handlers and account constraints are written with. Names in
them are identifiers already.
-/

namespace AnchorScript.Rust

def hexNat (n : Nat) : Text :=
  if n < 16 then [Text.hexDigit n.toUInt8] else hexNat (n / 16) ++ [Text.hexDigit (n % 16).toUInt8]
termination_by n

def escapeChar (c : Char) : Text :=
  if c = '"' then "\\\""
  else if c = '\\' then "\\\\"
  else if c = '\n' then "\\n"
  else if c = '\r' then "\\r"
  else if c = '\t' then "\\t"
  else if c = '\x00' then "\\0"
  else if c.toNat < 0x20 || c.toNat = 0x7F then "\\u\x7b" ++ hexNat c.toNat ++ "\x7d"
  else String.utf8EncodeChar c

def stringLiteral (s : Text) : Text := "\"" ++ (Text.chars s).flatMap escapeChar ++ "\""

def escapeByte (b : UInt8) : Text :=
  if b = 34 || b = 92 then [92, b]
  else if 0x20 ≤ b && b < 0x7F then [b]
  else "\\x" ++ Text.hexByte b

def byteString (s : Text) : Text := "b\"" ++ s.flatMap escapeByte ++ "\""

inductive Expr where
  | int (literal : Text)
  | bool (value : Bool)
  | string (value : Text)
  | bytes (value : Text)
  | var (name : Text)
  | member (object : Expr) (name : Text)
  | call (object : Expr) (method : Text)
  | slice (element : Expr)
  | binary (op : ArithOp) (left right : Expr)
  | neg (operand : Expr)
  | paren (inner : Expr)
  deriving DecidableEq

namespace Expr

def text : Expr → Text
  | int lit => lit
  | bool true => "true"
  | bool false => "false"
  | string s => "String::from(" ++ stringLiteral s ++ ")"
  | bytes s => byteString s
  | var n => n
  | member e n => e.text ++ "." ++ n
  | call e m => e.text ++ "." ++ m ++ "()"
  | slice e => "&[" ++ e.text ++ "]"
  | binary op l r => l.text ++ " " ++ op.text ++ " " ++ r.text
  | neg e => "-" ++ e.text
  | paren e => "(" ++ e.text ++ ")"

def contextAccount (id : Text) : Expr := ((var "ctx").member "accounts").member id

def accountInfo (id : Text) : Expr := (contextAccount id).call "to_account_info"

def contextField (account field : Text) : Expr := (contextAccount account).member field

/-- The bump that the address constraint of an account found. -/
def contextBump (id : Text) : Expr := ((var "ctx").member "bumps").member id

/-- A place of string type is cloned when it is read, so that nothing is moved out of it. -/
def owned (e : Expr) (kind : ValueKind) : Expr :=
  match kind with
  | .string _ => e.call "clone"
  | _ => e

end Expr

end AnchorScript.Rust
