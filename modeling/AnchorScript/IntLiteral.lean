import AnchorScript.Text.Trim

/-!
# Integer literals

Digits of base 10, or of base 16, 2 or 8 behind `0x`, `0b` or `0o`. Case does not matter and
underscores are passed over. A leading zero alone changes nothing: the literal stays decimal.
-/

namespace AnchorScript.IntLiteral

def bare (lit : Text) : Text := (lit.map Text.lowerByte).filter (· != 95)

def split : Text → Nat × Text
  | 48 :: 120 :: r => (16, r)
  | 48 :: 98 :: r => (2, r)
  | 48 :: 111 :: r => (8, r)
  | s => (10, s)

def digit? (base : Nat) (b : UInt8) : Option Nat :=
  (Text.hexValue? b).filter (· < base)

def digitSet (base : Nat) : Text := Text.ofString "0123456789abcdef" |>.take base

def isValid (lit : Text) : Bool :=
  let (base, ds) := split (bare lit)
  !ds.isEmpty && ds.all (digitSet base).contains

/-- The number that `n` followed by the digits is. -/
def readDigits (base : Nat) (n : Nat) : Text → Option Nat
  | [] => some n
  | b :: bs =>
    match digit? base b with
    | some d => readDigits base (base * n + d) bs
    | none => none

def value? (lit : Text) : Option Nat :=
  let (base, ds) := split (bare lit)
  if ds.isEmpty then none else readDigits base 0 ds

def rust (lit : Text) : Text := Text.toLower lit

end AnchorScript.IntLiteral
