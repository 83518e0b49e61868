/-!
# Byte text

Source files, names, messages and emitted code are byte strings: columns and lengths count bytes,
and a source file need not be valid UTF-8. A text is a list of bytes, and a string literal stands
for its UTF-8 bytes.
-/

namespace AnchorScript

abbrev Text := List UInt8

namespace Text

def ofString (s : String) : Text := s.toList.flatMap String.utf8EncodeChar

instance : Coe String Text := ⟨ofString⟩

/-- The characters of a literal are at hand, where `String.toList` decodes them from its bytes. The
literal is seen as their list by `simp (disch := rfl) only`. -/
theorem ofString_literal {s : String} {cs : List Char} (h : s = String.ofList cs) :
    ofString s = cs.flatMap String.utf8EncodeChar := by
  rw [h, ofString, String.toList_ofList]

abbrev byte (c : Char) : UInt8 := c.toUInt8

def ofNat (n : Nat) : Text :=
  if n < 10 then [48 + n.toUInt8] else ofNat (n / 10) ++ [48 + (n % 10).toUInt8]
termination_by n

def ofInt : Int → Text
  | .ofNat n => ofNat n
  | .negSucc n => byte '-' :: ofNat (n + 1)

def join (sep : Text) (parts : List Text) : Text := List.intercalate sep parts

def isDigit (b : UInt8) : Bool := 48 ≤ b && b ≤ 57

def isLower (b : UInt8) : Bool := 97 ≤ b && b ≤ 122

def isUpper (b : UInt8) : Bool := 65 ≤ b && b ≤ 90

def isLetter (b : UInt8) : Bool := isLower b || isUpper b

/-- Space, tab, line feed, vertical tab, form feed and carriage return. -/
def isSpace (b : UInt8) : Bool := b = 32 || (9 ≤ b && b ≤ 13)

def hexDigit (n : UInt8) : UInt8 := if n < 10 then 48 + n else 87 + n

def hexByte (b : UInt8) : Text := [hexDigit (b / 16), hexDigit (b % 16)]

def hex (s : Text) : Text := s.flatMap hexByte

def hexValue? (b : UInt8) : Option Nat :=
  if isDigit b then some (b.toNat - 48)
  else if 97 ≤ b && b ≤ 102 then some (b.toNat - 87)
  else if 65 ≤ b && b ≤ 70 then some (b.toNat - 55)
  else none

/-- The value of a text of decimal digits, read from the left. -/
def natValue (s : Text) : Nat := s.foldl (fun n b => 10 * n + (b.toNat - 48)) 0

def lowerByte (b : UInt8) : UInt8 := if isUpper b then b + 32 else b

/-- What follows `start`, when the text begins with it. -/
def dropStart? (start : Text) (s : Text) : Option Text :=
  if start.isPrefixOf s then some (s.drop start.length) else none

/-- What precedes `ending`, when the text ends in it. -/
def dropEnd? (ending : Text) (s : Text) : Option Text :=
  if ending.isSuffixOf s then some (s.take (s.length - ending.length)) else none

/-- The pieces between the occurrences of byte `b`; there is always at least one. -/
def splitOn (b : UInt8) : Text → List Text
  | [] => [[]]
  | c :: r =>
    if c = b then [] :: splitOn b r
    else match splitOn b r with
      | [] => [[c]]
      | p :: ps => (c :: p) :: ps

/-- Lines as separated by line feeds; a final line feed leaves an empty last line. -/
def lines (s : Text) : List Text := splitOn 10 s

def unlines (ls : List Text) : Text := join [10] ls

def trimLeft (drop : UInt8 → Bool) (s : Text) : Text := s.dropWhile drop

def trimRight (drop : UInt8 → Bool) (s : Text) : Text := (s.reverse.dropWhile drop).reverse

theorem join_cons_cons (sep p q : Text) (ps : List Text) :
    join sep (p :: q :: ps) = p ++ sep ++ join sep (q :: ps) := by
  simp [join, List.intercalate]

theorem splitOn_ne_nil (b : UInt8) (s : Text) : splitOn b s ≠ [] := by
  cases s with
  | nil => simp [splitOn]
  | cons c r =>
    simp only [splitOn]
    split
    · simp
    · split <;> simp

end Text

end AnchorScript
