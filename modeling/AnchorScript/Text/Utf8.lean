import AnchorScript.Text.Basic

/-!
# Characters of a byte text

A text is read as a sequence of pieces: a character where its UTF-8 bytes stand, a stray byte
everywhere else. Reading loses nothing, so joining the pieces gives the text back.
-/

namespace AnchorScript.Text

inductive Piece where
  | char (c : Char)
  | stray (b : UInt8)
  deriving DecidableEq

def Piece.bytes : Piece → Text
  | .char c => String.utf8EncodeChar c
  | .stray b => [b]

theorem Piece.length_bytes_pos (p : Piece) : 0 < p.bytes.length := by
  cases p with
  | char c =>
    rw [Piece.bytes, String.length_utf8EncodeChar]
    exact Char.utf8Size_pos c
  | stray b => exact Nat.zero_lt_one

/-- A stray byte reads as the replacement character. -/
def Piece.toChar : Piece → Char
  | .char c => c
  | .stray _ => '\ufffd'

def firstChar? (s : Text) : Option Char := (s.take 4).toByteArray.utf8DecodeChar? 0

def firstPiece (b : UInt8) (r : Text) : Piece :=
  match firstChar? (b :: r) with
  | some c => .char c
  | none => .stray b

def pieces : Text → List Piece
  | [] => []
  | b :: r =>
    let u := firstPiece b r
    u :: pieces ((b :: r).drop u.bytes.length)
termination_by s => s.length
decreasing_by
  have := (firstPiece b r).length_bytes_pos
  rw [List.length_drop, List.length_cons]
  omega

/-- The characters of a text, stray bytes read as U+FFFD. -/
def chars (s : Text) : List Char := (pieces s).map Piece.toChar

def ofChars (cs : List Char) : Text := cs.flatMap String.utf8EncodeChar

def isUtf8 (s : Text) : Bool :=
  (pieces s).all fun
    | .char _ => true
    | .stray _ => false

/-- The string with these bytes, when they are UTF-8. -/
def toString? (s : Text) : Option String :=
  if isUtf8 s then some (String.ofList (chars s)) else none

end AnchorScript.Text
