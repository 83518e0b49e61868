import AnchorScript.Text.Basic

/-!
# Keccak-256

The hash that was in use before padding changed: a text is padded with a one bit.
-/

namespace AnchorScript.Keccak256

def roundConstants : List UInt64 :=
  [0x0000000000000001, 0x0000000000008082, 0x800000000000808a, 0x8000000080008000,
    0x000000000000808b, 0x0000000080000001, 0x8000000080008081, 0x8000000000008009,
    0x000000000000008a, 0x0000000000000088, 0x0000000080008009, 0x000000008000000a,
    0x000000008000808b, 0x800000000000008b, 0x8000000000008089, 0x8000000000008003,
    0x8000000000008002, 0x8000000000000080, 0x000000000000800a, 0x800000008000000a,
    0x8000000080008081, 0x8000000000008080, 0x0000000080000001, 0x8000000080008008]

/-- Rotation of the lane in column `x` and row `y`, at `x + 5 * y`. -/
def rotations : Array UInt64 :=
  #[0, 1, 62, 28, 27, 36, 44, 6, 55, 20, 3, 10, 43, 25, 39, 41, 45, 15, 21, 8, 18, 2, 61, 56, 14]

def rotateLeft (x n : UInt64) : UInt64 := if n = 0 then x else (x <<< n) ||| (x >>> (64 - n))

/-- Twenty-five lanes, row by row. -/
abbrev State := Array UInt64

def lane (s : State) (x y : Nat) : UInt64 := s.getD (x % 5 + 5 * (y % 5)) 0

def lanes (f : Nat → Nat → UInt64) : State := (Array.range 25).map fun i => f (i % 5) (i / 5)

def theta (s : State) : State :=
  let column : Array UInt64 := (Array.range 5).map fun x =>
    lane s x 0 ^^^ lane s x 1 ^^^ lane s x 2 ^^^ lane s x 3 ^^^ lane s x 4
  let c (x : Nat) : UInt64 := column.getD (x % 5) 0
  lanes fun x y => lane s x y ^^^ c (x + 4) ^^^ rotateLeft (c (x + 1)) 1

/-- Rotates every lane and moves the lane at `(x, y)` to `(y, 2 * x + 3 * y)`. -/
def rhoPi (s : State) : State :=
  lanes fun x y =>
    let sourceX := x + 3 * y
    rotateLeft (lane s sourceX x) (rotations.getD (sourceX % 5 + 5 * x) 0)

def chi (s : State) : State :=
  lanes fun x y => lane s x y ^^^ (~~~ lane s (x + 1) y &&& lane s (x + 2) y)

def round (s : State) (k : UInt64) : State :=
  let t := chi (rhoPi (theta s))
  t.modify 0 (· ^^^ k)

def permute (s : State) : State := roundConstants.foldl round s

/-- Bytes taken in at a time. -/
def rate : Nat := 136

def laneOfBytes (bs : Text) : UInt64 :=
  bs.reverse.foldl (fun w b => (w <<< 8) ||| b.toUInt64) 0

def absorb (s : State) (block : Text) : State :=
  let block := block.toArray
  permute (s.mapIdx fun i w =>
    if i < rate / 8 then w ^^^ laneOfBytes (block.extract (8 * i) (8 * i + 8)).toList else w)

/-- A one bit, zeros and a one bit, up to a multiple of the rate. -/
def padded (s : Text) : Text :=
  let n := rate - s.length % rate
  if n = 1 then s ++ [0x81] else s ++ 0x01 :: List.replicate (n - 2) 0 ++ [0x80]

def absorbAll (s : State) (text : Text) : State :=
  if text.length < rate then s else absorbAll (absorb s (text.take rate)) (text.drop rate)
termination_by text.length
decreasing_by simp_all [rate]; omega

def laneBytes (w : UInt64) : Text :=
  (List.range 8).map fun i => (w >>> (8 * i).toUInt64).toUInt8

def hash (s : Text) : Text :=
  let final := absorbAll (Array.replicate 25 0) (padded s)
  (final.toList.take 4).flatMap laneBytes

def hex (s : Text) : Text := "0x" ++ Text.hex (hash s)

end AnchorScript.Keccak256
