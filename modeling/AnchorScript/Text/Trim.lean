import AnchorScript.Text.Utf8
import AnchorScript.Text.LetterCase

/-!
# White space and case of whole texts

Trimming removes the characters Unicode calls white space from both ends. Lower-casing reads the
text as characters, so stray bytes become the replacement character.
-/

namespace AnchorScript.Text

def isSpaceChar (c : Char) : Bool :=
  (9 ≤ c.toNat && c.toNat ≤ 13) || c.toNat = 0x20 || c.toNat = 0x85 || c.toNat = 0xA0 ||
    c.toNat = 0x1680 || (0x2000 ≤ c.toNat && c.toNat ≤ 0x200A) || c.toNat = 0x2028 ||
    c.toNat = 0x2029 || c.toNat = 0x202F || c.toNat = 0x205F || c.toNat = 0x3000

def Piece.isSpace : Piece → Bool
  | .char c => isSpaceChar c
  | .stray _ => false

def trimSpace (s : Text) : Text :=
  (((pieces s).dropWhile Piece.isSpace).reverse.dropWhile Piece.isSpace).reverse.flatMap Piece.bytes

def toLower (s : Text) : Text := ofChars ((chars s).map toLowerLetter)

end AnchorScript.Text
