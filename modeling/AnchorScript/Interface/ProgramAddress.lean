import AnchorScript.Text.Basic
import AnchorScript.Hash.Sha256

/-!
# Addresses derived by a program

The address of seeds under a program is a hash that is no point of the curve edwards25519, so that
nobody holds a key for it. A bump is appended to the seeds to find one, from 255 down to one.
Thirty-two bytes encode a point of the curve when the coordinate they give has a partner on it.
-/

namespace AnchorScript

namespace Edwards25519

def prime : Nat := Nat.pow 2 255 - 19

/-- The curve is `y² - x² = 1 + d x² y²`. -/
def coefficient : Nat :=
  37095705934669439343138083508754565189542113879843219016388785533085940283555

def powMod (base exponent modulus : Nat) : Nat :=
  if exponent = 0 then 1 % modulus
  else
    let half := powMod (base * base % modulus) (exponent / 2) modulus
    if exponent % 2 = 1 then half * base % modulus else half
termination_by exponent

/-- Euler's criterion; zero is a square. -/
def isSquare (n : Nat) : Bool := powMod n ((prime - 1) / 2) prime ≤ 1

def littleEndian : Text → Nat
  | [] => 0
  | b :: r => b.toNat + 256 * littleEndian r

/-- The bytes are the encoding of a point: their highest bit is a sign and the rest a coordinate
`y` for which `(y² - 1) / (d y² + 1)` is a square. -/
def isPoint (bytes : Text) : Bool :=
  let y := littleEndian bytes % Nat.pow 2 255 % prime
  let ySquare := y * y % prime
  isSquare ((ySquare + prime - 1) * (coefficient * ySquare + 1) % prime)

end Edwards25519

namespace ProgramAddress

def candidate (seeds : List Text) (programId : Text) (bump : UInt8) : Text :=
  Sha256.hash (seeds.flatten ++ bump :: programId ++ "ProgramDerivedAddress")

def bumps : List UInt8 := (List.range 255).map fun i => (255 - i).toUInt8

/-- A candidate is an address unless it is a point. -/
def address? (seeds : List Text) (programId : Text) (bump : UInt8) : Option Text :=
  let key := candidate seeds programId bump
  if Edwards25519.isPoint key then none else some key

def find? (seeds : List Text) (programId : Text) : Option Text :=
  bumps.findSome? (address? seeds programId)

end ProgramAddress

end AnchorScript
