import AnchorScript.Text.Quoted

/-!
# TOML documents

A document is a table of keys. Headers name tables by the keys that lead to them; a table on the
way that no header names is made silently, and no table and no key is defined twice.

Bare keys are letters, digits, underscores and hyphens. Below a header the entries need no line of
their own, elsewhere each line holds one. The reader of values is bounded by a number of steps;
every step consumes a byte, so the length of the input is enough.
-/

namespace AnchorScript

inductive Toml where
  | string (value : Text)
  | bool (value : Bool)
  /-- A number or a date, as it is written. -/
  | literal (text : Text)
  | array (elems : List Toml)
  /-- A table; `defined` where a header or a brace of its own introduces it. -/
  | table (defined : Bool) (entries : List (Text × Toml))
  /-- The tables that repeated double headers introduce. -/
  | tables (elems : List (List (Text × Toml)))

namespace Toml

inductive Item where
  | header (names : List Text)
  | arrayHeader (names : List Text)
  | entry (key : Text) (value : Toml)

/-- The entries with the value of a key replaced, or with a new key at the end. -/
def putEntry (key : Text) (v : Toml) : List (Text × Toml) → List (Text × Toml)
  | [] => [(key, v)]
  | (k, w) :: es => if k = key then (k, v) :: es else (k, w) :: putEntry key v es

/-- Changes what stands at the end of a way of keys. Tables on the way are entered, of repeated
ones the last; a way through anything else is refused. -/
def update (f : Option Toml → Option Toml) :
    List Text → List (Text × Toml) → Option (List (Text × Toml))
  | [], _ => none
  | [n], es => (f (es.lookup n)).map fun v => putEntry n v es
  | n :: ns, es =>
    match es.lookup n with
    | none => (update f ns []).map fun t => putEntry n (.table false t) es
    | some (.table d t) => (update f ns t).map fun t => putEntry n (.table d t) es
    | some (.tables ts) =>
      match ts.getLast? with
      | some t => (update f ns t).map fun t => putEntry n (.tables (ts.dropLast ++ [t])) es
      | none => none
    | some _ => none

/-- A table can be defined where there is none, or where one was made silently. -/
def defineTable : Option Toml → Option Toml
  | none => some (.table true [])
  | some (.table false es) => some (.table true es)
  | some _ => none

def addTable : Option Toml → Option Toml
  | none => some (.tables [[]])
  | some (.tables ts) => some (.tables (ts ++ [[]]))
  | some _ => none

def setOnce (v : Toml) : Option Toml → Option Toml
  | none => some v
  | some _ => none

/-- The entries of the items; `current` leads to the table that the last header named. -/
def build : (current : List Text) → List (Text × Toml) → List Item → Option (List (Text × Toml))
  | _, es, [] => some es
  | _, es, .header ns :: is => do build ns (← update defineTable ns es) is
  | _, es, .arrayHeader ns :: is => do build ns (← update addTable ns es) is
  | current, es, .entry k v :: is => do
    build current (← update (setOnce v) (current ++ [k]) es) is

def isBlank (b : UInt8) : Bool := b = 32 || b = 9

def isBreak (b : UInt8) : Bool := b = 10 || b = 13

def isGap (b : UInt8) : Bool := isBlank b || isBreak b

def skipBlanks (s : Text) : Text := s.dropWhile isBlank

def skipGaps (s : Text) : Text := s.dropWhile isGap

/-- What follows a comment, where one begins here. -/
def skipComment : Text → Text
  | 35 :: r => r.dropWhile fun b => 32 ≤ b || b = 9
  | s => s

/-- Passes over blanks, breaks and a comment among them. -/
def skipSpace (s : Text) : Text := skipGaps (skipComment (skipGaps s))

/-- The value of hexadecimal digits; `none` where a byte is no digit. -/
def hexNumber? (ds : Text) : Option Nat :=
  ds.foldlM (fun n b => (Text.hexValue? b).map (16 * n + ·)) 0

def codePoint? (n : Nat) : Option Text :=
  if n < 0xD800 || (0xE000 ≤ n && n < 0x110000) then some (String.utf8EncodeChar (Char.ofNat n))
  else none

def simpleEscape? (b : UInt8) : Option UInt8 :=
  if b = Text.byte '"' || b = Text.byte '\\' then some b
  else if b = Text.byte 'b' then some 8
  else if b = Text.byte 't' then some 9
  else if b = Text.byte 'n' then some 10
  else if b = Text.byte 'f' then some 12
  else if b = Text.byte 'r' then some 13
  else none

/-- The text of a string in double quotes, after its opening quote. Where `multi` is set, line
breaks belong to the text and a backslash before one drops it with all gaps that follow. -/
def basicBody (multi : Bool) : (steps : Nat) → Text → Option (Text × Text)
  | 0, _ => none
  | n + 1, s =>
    let more (head r : Text) : Option (Text × Text) :=
      (basicBody multi n r).map fun (t, r) => (head ++ t, r)
    match s with
    | [] => none
    | 34 :: r => some ([], r)
    | 92 :: 117 :: r => do
      if r.length < 4 then none
      more (← codePoint? (← hexNumber? (r.take 4))) (r.drop 4)
    | 92 :: 85 :: r => do
      if r.length < 8 then none
      more (← codePoint? (← hexNumber? (r.take 8))) (r.drop 8)
    | 92 :: b :: r =>
      if multi && isBreak b then more [] (skipGaps r)
      else do more [← simpleEscape? b] r
    | b :: r =>
      if (32 ≤ b && b ≠ 92) || (multi && isBreak b) then more [b] r else none

/-- The text of a string in single quotes, after its opening quote. -/
def literalBody (s : Text) : Option (Text × Text) :=
  let t := s.takeWhile fun b => (32 ≤ b || b = 9) && b ≠ 39
  match s.drop t.length with
  | 39 :: r => some (t, r)
  | _ => none

def multiLiteralBody : Text → Option (Text × Text)
  | 39 :: 39 :: 39 :: r => some ([], r)
  | b :: r =>
    if 32 ≤ b || isGap b then (multiLiteralBody r).map fun (t, r) => (b :: t, r) else none
  | [] => none

def dropBreak : Text → Text
  | 13 :: 10 :: r => r
  | 10 :: r => r
  | s => s

def readString (s : Text) : Option (Text × Text) :=
  match Text.dropStart? "'''" s with
  | some r => multiLiteralBody (dropBreak r)
  | none => match s with
    | 39 :: r => literalBody r
    | 34 :: r =>
      match Text.dropStart? "\"\"" r with
      | some body => do
        let (t, r) ← basicBody true (body.length + 1) (dropBreak body)
        return (t, ← Text.dropStart? "\"\"" r)
      | none => basicBody false (r.length + 1) r
    | _ => none

def isKeyByte (b : UInt8) : Bool := Text.isLetter b || Text.isDigit b || b = 95 || b = 45

def readKey (s : Text) : Option (Text × Text) :=
  let k := s.takeWhile isKeyByte
  if k.isEmpty then
    match s with
    | 34 :: r => basicBody false (r.length + 1) r
    | _ => none
  else some (k, s.drop k.length)

/-- Keys with points between them, in at most this many steps. -/
def readNames : (steps : Nat) → Text → Option (List Text × Text)
  | 0, _ => none
  | n + 1, s => do
    let (k, r) ← readKey s
    match skipBlanks r with
    | 46 :: r' =>
      match readNames n (skipBlanks r') with
      | some (ks, r) => return (k :: ks, r)
      | none => return ([k], r)
    | _ => return ([k], r)

/-- Digits after a first one, with single underscores between digits. -/
def digitRun : Text → Text
  | 95 :: b :: r => if Text.isDigit b then 95 :: b :: digitRun r else []
  | b :: r => if Text.isDigit b then b :: digitRun r else []
  | [] => []

def wholeLength (s : Text) : Option Nat :=
  let sign := if s.head? = some 43 || s.head? = some 45 then 1 else 0
  match s.drop sign with
  | b :: r =>
    if !Text.isDigit b then none
    else if b = 48 then some (sign + 1) else some (sign + 1 + (digitRun r).length)
  | [] => none

/-- The length of a point or mark, the signs allowed behind it, and digits. -/
def partLength (marks : Text) (signed : Bool) : Text → Nat
  | m :: r =>
    let sign := if signed && (r.head? = some 43 || r.head? = some 45) then 1 else 0
    match r.drop sign with
    | b :: r => if marks.contains m && Text.isDigit b then sign + 2 + (digitRun r).length else 0
    | [] => 0
  | [] => 0

def numberLength (s : Text) : Option Nat := do
  let whole ← wholeLength s
  let fraction := partLength "." false (s.drop whole)
  return whole + fraction + partLength "eE" true (s.drop (whole + fraction))

/-- The bytes match a pattern in which each zero stands for a digit. -/
def fitsPattern : (pattern : Text) → Text → Bool
  | [], _ => true
  | _ :: _, [] => false
  | p :: ps, b :: bs => (if p = 48 then Text.isDigit b else b = p) && fitsPattern ps bs

def secondsFraction (s : Text) : Nat :=
  match s with
  | 46 :: r =>
    let digits := r.takeWhile Text.isDigit
    if digits.isEmpty then 0 else 1 + digits.length
  | _ => 0

def offsetLength (s : Text) : Option Nat :=
  if s.head? = some (Text.byte 'Z') then some 1
  else if fitsPattern "+00:00" s || fitsPattern "-00:00" s then some 6
  else none

def dateLength (s : Text) : Option Nat :=
  if fitsPattern "0000-00-00T00:00:00" s then
    let time := 19 + secondsFraction (s.drop 19)
    some (time + (offsetLength (s.drop time)).getD 0)
  else if fitsPattern "0000-00-00" s then some 10
  else if fitsPattern "00:00:00" s then some (8 + secondsFraction (s.drop 8))
  else none

def readLiteral (s : Text) : Option (Toml × Text) := do
  let n ← (dateLength s).or (numberLength s)
  return (.literal (s.take n), s.drop n)

mutual
def readValue : (steps : Nat) → Text → Option (Toml × Text)
  | 0, _ => none
  | n + 1, s =>
    match readLiteral s with
    | some v => some v
    | none => match readString s with
      | some (t, r) => some (.string t, r)
      | none => match Text.dropStart? "true" s with
        | some r => some (.bool true, r)
        | none => match Text.dropStart? "false" s with
          | some r => some (.bool false, r)
          | none => match s with
            | 91 :: r =>
              match skipSpace r with
              | 93 :: r => some (.array [], r)
              | r => (readElems n r).map fun (es, r) => (.array es, r)
            | 123 :: r => do
              let (es, r) ← readPairs n (skipBlanks r)
              return (.table true (← build [] [] (es.map fun (k, v) => .entry k v)), r)
            | _ => none

def readElems : (steps : Nat) → Text → Option (List Toml × Text)
  | 0, _ => none
  | n + 1, s => do
    let (v, r) ← readValue n s
    match skipSpace r with
    | 93 :: r => return ([v], r)
    | 44 :: r =>
      match skipSpace r with
      | 93 :: r => return ([v], r)
      | r =>
        let (vs, r) ← readElems n r
        return (v :: vs, r)
    | _ => none

def readPairs : (steps : Nat) → Text → Option (List (Text × Toml) × Text)
  | 0, _ => none
  | _ + 1, 125 :: r => some ([], r)
  | n + 1, s => do
    let (k, v, r) ← readPair n s
    let r := match skipBlanks r with
      | 44 :: r => skipBlanks r
      | r => r
    let (es, r) ← readPairs n r
    return ((k, v) :: es, r)

def readPair : (steps : Nat) → Text → Option (Text × Toml × Text)
  | 0, _ => none
  | n + 1, s => do
    let (k, r) ← readKey s
    let 61 :: r := skipBlanks r | none
    let (v, r) ← readValue n (skipBlanks r)
    return (k, v, r)
end

def readEntry (s : Text) : Option (Item × Text) := do
  let (k, v, r) ← readPair (s.length + 2) s
  return (.entry k v, skipComment (skipBlanks r))

def readHeader (s : Text) : Option (Item × Text) :=
  let single : Option (Item × Text) := do
    let r ← Text.dropStart? "[" s
    let (ns, r) ← readNames (r.length + 1) (skipBlanks r)
    return (.header ns, ← Text.dropStart? "]" (skipBlanks r))
  match single with
  | some h => some h
  | none => do
    let r ← Text.dropStart? "[[" s
    let (ns, r) ← readNames (r.length + 1) (skipBlanks r)
    return (.arrayHeader ns, ← Text.dropStart? "]]" (skipBlanks r))

/-- The entries below a header, as many as there are. -/
def readBody : (steps : Nat) → Text → List Item × Text
  | 0, s => ([], s)
  | n + 1, s =>
    match readEntry (skipGaps s) with
    | some (i, r) =>
      let (is, r) := readBody n r
      (i :: is, r)
    | none => ([], s)

/-- A header with its entries, an entry, or a line that says nothing. -/
def readExpression (s : Text) : List Item × Text :=
  let s := skipBlanks s
  match readHeader s with
  | some (h, r) =>
    let (is, r) := readBody r.length (skipComment (skipBlanks r))
    (h :: is, r)
  | none => match readEntry s with
    | some (i, r) => ([i], r)
    | none => ([], skipComment s)

def readItems : (steps : Nat) → Text → Option (List Item)
  | 0, _ => none
  | n + 1, s =>
    let (is, r) := readExpression s
    match r with
    | [] => some is
    | b :: _ =>
      if isBreak b then (readItems n (r.dropWhile isBreak)).map (is ++ ·) else none

/-- The entries of the document with this text; stray bytes read as the replacement character. -/
def ofText? (s : Text) : Option (List (Text × Toml)) := do
  let s := Text.ofChars (Text.chars s)
  build [] [] (← readItems (s.length + 1) s)

end Toml

end AnchorScript
