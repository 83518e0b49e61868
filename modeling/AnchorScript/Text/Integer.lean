import AnchorScript.Text.Basic

/-!
# Integers

Whole numbers that a signed 64-bit word holds, and the word that any other number wraps to.

An integer in the settings may have a sign, a base behind `0x`, `0b` or `0o`, base eight behind a bare
zero, and underscores between digits. It has to fit in 64 bits with sign.
-/

namespace AnchorScript

def leastWord : Int := -9223372036854775808

def fitsWord (n : Int) : Bool := leastWord ≤ n && n < -leastWord

/-- A natural number read as a signed 64-bit word. -/
def signedWord (n : Nat) : Int := (n : Int).bmod 18446744073709551616

def bitLength (n : Nat) : Nat := if n = 0 then 0 else Nat.log2 n + 1

namespace Text

def splitBase (s : Text) : Nat × Text :=
  match s with
  | 48 :: b :: d :: r =>
    if lowerByte b = byte 'x' then (16, d :: r)
    else if lowerByte b = byte 'b' then (2, d :: r)
    else if lowerByte b = byte 'o' then (8, d :: r)
    else (8, b :: d :: r)
  | 48 :: r => (8, r)
  | _ => (10, s)

/-- Every underscore stands between two digits; a base counts as one. -/
def underscoresDivide (afterDigit : Bool) : Text → Bool
  | [] => true
  | [b] => b ≠ 95
  | b :: c :: r => (b ≠ 95 || (afterDigit && c ≠ 95)) && underscoresDivide (b ≠ 95) (c :: r)

/-- The number that `n` followed by the digits is, underscores passed over. -/
def digitsValue? (base : Nat) : (n : Nat) → Text → Option Nat
  | n, [] => some n
  | n, b :: r =>
    if b = 95 then digitsValue? base n r
    else match hexValue? b with
      | some d => if d < base then digitsValue? base (base * n + d) r else none
      | none => none

def natValue? (s : Text) : Option Nat :=
  let (base, ds) := splitBase s
  if s.isEmpty || !underscoresDivide (base ≠ 10) ds then none else digitsValue? base 0 ds

/-- A number with or without a sign, of any size. -/
def signedValue? (s : Text) : Option Int :=
  match s with
  | 45 :: r => (natValue? r).map fun n => -(n : Int)
  | 43 :: r => (natValue? r).map Int.ofNat
  | _ => (natValue? s).map Int.ofNat

def intValue? (s : Text) : Option Int := (signedValue? s).filter fitsWord

end Text

end AnchorScript
