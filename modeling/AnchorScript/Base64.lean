import AnchorScript.Text.Basic

/-!
# Base-64 text

Four characters stand for three bytes, and padding completes the last four. Line breaks are passed
over wherever they stand.
-/

namespace AnchorScript.Base64

def alphabet : Text := "ABCDEFGHIJKLMNOPQRSTUVWXYZabcdefghijklmnopqrstuvwxyz0123456789+/"

def digit? (b : UInt8) : Option Nat := alphabet.findIdx? (· = b)

/-- The byte at this offset of the text is out of place. -/
structure Error where
  offset : Nat

def Error.message (e : Error) : Text :=
  "illegal base64 data at input byte " ++ Text.ofNat e.offset

def isBreak (b : UInt8) : Bool := b = 10 || b = 13

/-- The bytes of a text with their offsets, without line breaks. -/
def marked (s : Text) : List (Nat × UInt8) := s.zipIdx.filterMap fun (b, i) =>
  if isBreak b then none else some (i, b)

def groupBytes (ds : List Nat) : Text :=
  let n := ds.foldl (fun n d => 64 * n + d) 0
  match ds.length with
  | 2 => [(n / 16).toUInt8]
  | 3 => [(n / 1024).toUInt8, (n / 4).toUInt8]
  | 4 => [(n / 65536).toUInt8, (n / 256).toUInt8, n.toUInt8]
  | _ => []

/-- Reads the padding of a group that has these digits; `size` is the length of the text. -/
def readPadding (size : Nat) (digits : List Nat) (pos : Nat) (rest : List (Nat × UInt8)) :
    Except Error Text :=
  if digits.length < 2 then .error ⟨pos⟩
  else
    let after : Except Error (List (Nat × UInt8)) :=
      if digits.length = 3 then .ok rest
      else match rest with
        | [] => .error ⟨size⟩
        | (i, b) :: r => if b = 61 then .ok r else .error ⟨i - 1⟩
    match after with
    | .error e => .error e
    | .ok [] => .ok (groupBytes digits)
    | .ok ((i, _) :: _) => .error ⟨i⟩

/-- Reads groups; `digits` are those of the present one. -/
def readGroups (size : Nat) : (digits : List Nat) → List (Nat × UInt8) → Except Error Text
  | [], [] => .ok []
  | ds, [] => .error ⟨size - ds.length⟩
  | ds, (i, b) :: r =>
    match digit? b with
    | some d =>
      if ds.length = 3 then do return groupBytes (ds ++ [d]) ++ (← readGroups size [] r)
      else readGroups size (ds ++ [d]) r
    | none => if b = 61 then readPadding size ds i r else .error ⟨i⟩

def decode (s : Text) : Except Error Text := readGroups s.length [] (marked s)

end AnchorScript.Base64
