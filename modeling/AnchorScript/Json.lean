import AnchorScript.Text.Quoted

/-!
# JSON documents

Values and their indented text. Members of an object keep their order. Strings are written so that
they can stand inside web pages: the characters of markup and the line separators are escaped.

Documents are read by the strict grammar of JSON on bytes. Inside strings a stray byte and a lone
surrogate read as the replacement character. The reader of values is bounded by a number of steps;
every step consumes a byte, so the length of the input is enough.
-/

namespace AnchorScript

inductive Json where
  | null
  | bool (value : Bool)
  | number (value : Int)
  /-- A number with a fraction or an exponent, as it is written. -/
  | decimal (literal : Text)
  | string (value : Text)
  | array (elems : List Json)
  | object (members : List (Text × Json))

namespace Json

def escapeChar (c : Char) : Text :=
  if c = '"' then "\\\""
  else if c = '\\' then "\\\\"
  else if c = '\x08' then "\\b"
  else if c = '\x0c' then "\\f"
  else if c = '\n' then "\\n"
  else if c = '\r' then "\\r"
  else if c = '\t' then "\\t"
  else if c.toNat < 0x20 || c = '<' || c = '>' || c = '&' || c.toNat = 0x2028 || c.toNat = 0x2029
  then "\\u" ++ Text.Quoted.hexDigits 4 c.toNat
  else String.utf8EncodeChar c

/-- A stray byte is written as the replacement character's escape. -/
def escapePiece : Text.Piece → Text
  | .char c => escapeChar c
  | .stray _ => "\\ufffd"

def quoted (s : Text) : Text := "\"" ++ (Text.pieces s).flatMap escapePiece ++ "\""

def newline (depth : Nat) : Text := 10 :: List.replicate (2 * depth) 32

mutual
def render (depth : Nat) : Json → Text
  | .null => "null"
  | .bool true => "true"
  | .bool false => "false"
  | .number n => Text.ofInt n
  | .decimal s => s
  | .string s => quoted s
  | .array [] => "[]"
  | .array (e :: es) =>
    "[" ++ newline (depth + 1) ++ render (depth + 1) e ++ renderElems (depth + 1) es ++
      newline depth ++ "]"
  | .object [] => "\x7b\x7d"
  | .object ((k, v) :: ms) =>
    "\x7b" ++ newline (depth + 1) ++ quoted k ++ ": " ++ render (depth + 1) v ++
      renderMembers (depth + 1) ms ++ newline depth ++ "\x7d"

def renderElems (depth : Nat) : List Json → Text
  | [] => []
  | e :: es => "," ++ newline depth ++ render depth e ++ renderElems depth es

def renderMembers (depth : Nat) : List (Text × Json) → Text
  | [] => []
  | (k, v) :: ms =>
    "," ++ newline depth ++ quoted k ++ ": " ++ render depth v ++ renderMembers depth ms
end

def text (j : Json) : Text := render 0 j

mutual
/-- How many arrays and objects stand inside one another. -/
def depth : Json → Nat
  | .array es => depthOfElems es + 1
  | .object ms => depthOfMembers ms + 1
  | _ => 0

def depthOfElems : List Json → Nat
  | [] => 0
  | e :: es => max (depth e) (depthOfElems es)

def depthOfMembers : List (Text × Json) → Nat
  | [] => 0
  | (_, v) :: ms => max (depth v) (depthOfMembers ms)
end

def isBlank (b : UInt8) : Bool := b = 32 || b = 9 || b = 10 || b = 13

def skipBlanks (s : Text) : Text := s.dropWhile isBlank

def hex4? (a b c d : UInt8) : Option Nat := do
  let a ← Text.hexValue? a
  let b ← Text.hexValue? b
  let c ← Text.hexValue? c
  let d ← Text.hexValue? d
  return ((a * 16 + b) * 16 + c) * 16 + d

def ofSurrogates? (high low : Nat) : Option Char :=
  if 0xD800 ≤ high && high < 0xDC00 && 0xDC00 ≤ low && low < 0xE000 then
    some (Char.ofNat (0x10000 + (high - 0xD800) * 0x400 + (low - 0xDC00)))
  else none

def ofUnit (n : Nat) : Char := if 0xD800 ≤ n && n < 0xE000 then '\ufffd' else Char.ofNat n

/-- What the byte after a backslash stands for, except for code units. -/
def simpleEscape? (b : UInt8) : Option UInt8 :=
  if b = Text.byte '"' || b = Text.byte '\\' || b = Text.byte '/' then some b
  else if b = Text.byte 'b' then some 8
  else if b = Text.byte 'f' then some 12
  else if b = Text.byte 'n' then some 10
  else if b = Text.byte 'r' then some 13
  else if b = Text.byte 't' then some 9
  else none

/-- The bytes of a string whose opening quote is read, and what follows its closing quote. -/
def stringBody : Text → Option (Text × Text)
  | [] => none
  | 34 :: r => some ([], r)
  | 92 :: 117 :: a :: b :: c :: d :: r => do
    let n ← hex4? a b c d
    let single : Option (Text × Text) :=
      (stringBody r).map fun (t, rest) => (String.utf8EncodeChar (ofUnit n) ++ t, rest)
    match r with
    | 92 :: 117 :: e :: f :: g :: h :: r' =>
      match (hex4? e f g h).bind (ofSurrogates? n) with
      | some ch => (stringBody r').map fun (t, rest) => (String.utf8EncodeChar ch ++ t, rest)
      | none => single
    | _ => single
  | 92 :: b :: r => do
    let e ← simpleEscape? b
    let (t, rest) ← stringBody r
    return (e :: t, rest)
  | b :: r =>
    if b < 32 || b = 92 then none
    else do
      let (t, rest) ← stringBody r
      return (b :: t, rest)

theorem stringBody_quote (r : Text) : stringBody (34 :: r) = some ([], r) := by
  rw [stringBody]

def readString (s : Text) : Option (Text × Text) :=
  (stringBody s).map fun (t, r) => (Text.ofChars (Text.chars t), r)

def readDigits (s : Text) : Option (Text × Text) :=
  if (s.takeWhile Text.isDigit).isEmpty then none
  else some (s.takeWhile Text.isDigit, s.dropWhile Text.isDigit)

/-- The part of a number from its point on, empty where there is none. -/
def readFraction : Text → Option (Text × Text)
  | 46 :: r => (readDigits r).map fun (ds, r) => (46 :: ds, r)
  | s => some ([], s)

/-- The exponent of a number, empty where there is none. -/
def readExponent : Text → Option (Text × Text)
  | e :: r =>
    if e = Text.byte 'e' || e = Text.byte 'E' then
      match r with
      | s :: r' =>
        if s = Text.byte '+' || s = Text.byte '-' then
          (readDigits r').map fun (ds, r) => (e :: s :: ds, r)
        else (readDigits r).map fun (ds, r) => (e :: ds, r)
      | [] => none
    else some ([], e :: r)
  | [] => some ([], [])

/-- A zero that stands alone, or digits that do not begin with one. -/
def readWhole : Text → Option (Text × Text)
  | 48 :: r => some ([48], r)
  | s => readDigits s

def readNumber (s : Text) : Option (Json × Text) := do
  let negative := s.head? = some 45
  let (whole, r) ← readWhole (if negative then s.drop 1 else s)
  let (fraction, r) ← readFraction r
  let (exponent, r) ← readExponent r
  let sign : Text := if negative then [45] else []
  if fraction.isEmpty && exponent.isEmpty then
    let n : Int := Text.natValue whole
    return (.number (if negative then -n else n), r)
  else return (.decimal (sign ++ whole ++ fraction ++ exponent), r)

mutual
/-- Reads a value, after blanks, in at most this many steps. -/
def readValue : (steps : Nat) → Text → Option (Json × Text)
  | 0, _ => none
  | n + 1, s =>
    match skipBlanks s with
    | 123 :: r =>
      match skipBlanks r with
      | 125 :: r => some (.object [], r)
      | r => (readMembers n r).map fun (ms, r) => (.object ms, r)
    | 91 :: r =>
      match skipBlanks r with
      | 93 :: r => some (.array [], r)
      | r => (readElems n r).map fun (es, r) => (.array es, r)
    | 34 :: r => (readString r).map fun (t, r) => (.string t, r)
    | s =>
      match Text.dropStart? "null" s with
      | some r => some (.null, r)
      | none => match Text.dropStart? "true" s with
        | some r => some (.bool true, r)
        | none => match Text.dropStart? "false" s with
          | some r => some (.bool false, r)
          | none => readNumber s

def readElems : (steps : Nat) → Text → Option (List Json × Text)
  | 0, _ => none
  | n + 1, s => do
    let (v, r) ← readValue n s
    match skipBlanks r with
    | 93 :: r => return ([v], r)
    | 44 :: r =>
      let (vs, r) ← readElems n r
      return (v :: vs, r)
    | _ => none

def readMembers : (steps : Nat) → Text → Option (List (Text × Json) × Text)
  | 0, _ => none
  | n + 1, s => do
    let 34 :: r := skipBlanks s | none
    let (k, r) ← readString r
    let 58 :: r := skipBlanks r | none
    let (v, r) ← readValue n r
    match skipBlanks r with
    | 125 :: r => return ([(k, v)], r)
    | 44 :: r =>
      let (ms, r) ← readMembers n r
      return ((k, v) :: ms, r)
    | _ => none
end

def maxDepth : Nat := 10000

def ofText? (s : Text) : Option Json := do
  let (v, r) ← readValue (s.length + 1) s
  if (skipBlanks r).isEmpty && v.depth ≤ maxDepth then some v else none

end Json

end AnchorScript
