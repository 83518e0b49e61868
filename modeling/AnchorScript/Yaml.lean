import AnchorScript.Text.Integer
import AnchorScript.Text.Utf8

/-!
# YAML documents

A document is a scalar, a mapping or a sequence. What a plain scalar means depends on how it is
written; a quoted one is always a string. A number with a fraction is one of double precision, with 53
binary digits: a quotient is rounded to the nearest such number, and of two equally near ones to the
one whose last digit is even.

The reader knows block mappings and sequences by indentation, flow collections, plain and quoted
scalars, and comments. A document is read as lines; a flow collection or a quoted scalar may run over
several of them. The readers are bounded by a number of steps, and every step consumes a byte or a
line.
-/

namespace AnchorScript

namespace Binary64

def precision : Nat := 53

/-- The first power of two above all finite numbers. -/
def bound : Nat := Nat.pow 2 1024

/-- The quotient rounded to the nearest whole number, a half to the even one. -/
def roundDiv (num den : Nat) : Nat :=
  let twice := 2 * (num % den)
  if den < twice || (twice = den && num / den % 2 = 1) then num / den + 1 else num / den

/-- The whole part of the number nearest to a quotient; none where that number is not finite. -/
def wholePart? (num den : Nat) : Option Nat :=
  let digits := bitLength (num / den)
  let n :=
    if digits ≤ precision then
      let scale := Nat.pow 2 (precision - digits)
      roundDiv (num * scale) den / scale
    else
      let scale := Nat.pow 2 (digits - precision)
      roundDiv num (den * scale) * scale
  if n < bound then some n else none

end Binary64

inductive Yaml where
  | scalar (text : Text) (isPlain : Bool)
  | mapping (entries : List (Text × Yaml))
  | sequence (items : List Yaml)

namespace Yaml

/-- What a scalar means. A number of double precision is given by its whole part. -/
inductive Meaning where
  | null
  | bool (b : Bool)
  | int (n : Int)
  | double (whole : Int)
  | string (s : Text)

def nullWords : List Text := ["~", "null", "Null", "NULL"].map Text.ofString

def trueWords : List Text := ["true", "True", "TRUE"].map Text.ofString

def falseWords : List Text := ["false", "False", "FALSE"].map Text.ofString

def infinityWords : List Text :=
  [".inf", ".Inf", ".INF", "+.inf", "+.Inf", "+.INF"].map Text.ofString

def negativeInfinityWords : List Text := ["-.inf", "-.Inf", "-.INF"].map Text.ofString

/-- The digits and the exponent of a decimal number without sign: digits before the point, digits
behind it, and the power of ten. -/
def splitDecimal? (s : Text) : Option (Text × Text × Int) :=
  let whole := s.takeWhile Text.isDigit
  let r := s.drop whole.length
  let (point, fraction, r) : Bool × Text × Text := match r with
    | 46 :: r => (true, r.takeWhile Text.isDigit, r.dropWhile Text.isDigit)
    | _ => (false, [], r)
  let exponent : Option Int := match r with
    | [] => some 0
    | e :: r =>
      if e ≠ Text.byte 'e' && e ≠ Text.byte 'E' then none
      else
        let (negative, ds) : Bool × Text := match r with
          | 45 :: ds => (true, ds)
          | 43 :: ds => (false, ds)
          | _ => (false, r)
        if ds.isEmpty || !ds.all Text.isDigit then none
        else some (if negative then -(Text.natValue ds : Int) else Text.natValue ds)
  if (whole.isEmpty && (!point || fraction.isEmpty)) then none
  else exponent.map fun e => (whole, fraction, e)

/-- The sign of a number, and the number without it. -/
def splitSign : Text → Bool × Text
  | 45 :: r => (true, r)
  | 43 :: r => (false, r)
  | s => (false, s)

/-- The whole part of a decimal number in double precision. Numbers below a tenth have none, and
those above all powers of two in that precision are no numbers. -/
def wholePart? (s : Text) : Option Int := do
  let (isNegative, r) := splitSign s
  let (whole, fraction, e) ← splitDecimal? r
  let digits := (whole ++ fraction).dropWhile (· = 48)
  let shift : Int := e - fraction.length
  let n ←
    if digits.isEmpty || shift + digits.length < 0 then some 0
    else if 310 < shift + digits.length then none
    else if 0 ≤ shift then
      Binary64.wholePart? (Text.natValue digits * Nat.pow 10 shift.toNat) 1
    else Binary64.wholePart? (Text.natValue digits) (Nat.pow 10 (-shift).toNat)
  return if isNegative then -(n : Int) else n

/-- A whole number that fits in a word, or without a sign in a word of natural numbers. -/
def wholeNumber? (s : Text) : Option Int :=
  (Text.signedValue? s).filter fun n =>
    fitsWord n || (s.head?.any Text.isDigit && n < 2 * -leastWord)

/-- A number of base two or eight with its sign behind the mark of the base. -/
def signBehindMark? (s : Text) : Option Int := do
  let (base, r) ← match s with
    | 48 :: b :: r =>
      if b = Text.byte 'b' then some (2, r) else if b = Text.byte 'o' then some (8, r) else none
    | _ => none
  let (isNegative, ds) := splitSign r
  if ds.isEmpty || ds.contains 95 then none
  let n ← Text.digitsValue? base 0 ds
  let n : Int := if isNegative then -(n : Int) else n
  if fitsWord n then some n else none

def underscoresBetweenDigits (afterDigit : Bool) : Text → Bool
  | [] => true
  | [b] => b ≠ 95
  | b :: c :: r =>
    (b ≠ 95 || (afterDigit && Text.isDigit c)) && underscoresBetweenDigits (Text.isDigit b) (c :: r)

/-- The meaning of a plain scalar that begins like a number. Underscores count for nothing, but in a
number that begins with its point they have to stand between digits. -/
def numberMeaning (s : Text) : Meaning :=
  let bare := s.filter (· ≠ 95)
  let decimal? := (wholePart? bare).map Meaning.double
  let number? :=
    if s.head? = some 46 then if underscoresBetweenDigits false s then decimal? else none
    else ((wholeNumber? bare).map Meaning.int).or
      (decimal?.or ((signBehindMark? bare).map Meaning.int))
  number?.getD (.string s)

/-- The meaning of a plain scalar. An infinity is a number beyond all others. -/
def plainMeaning (s : Text) : Meaning :=
  if s.isEmpty || nullWords.contains s then .null
  else if trueWords.contains s then .bool true
  else if falseWords.contains s then .bool false
  else if infinityWords.contains s then .double Binary64.bound
  else if negativeInfinityWords.contains s then .double (-Binary64.bound)
  else if s.head?.any fun b => Text.isDigit b || b = 43 || b = 45 || b = 46 then numberMeaning s
  else .string s

def meaning (s : Text) (isPlain : Bool) : Meaning := if isPlain then plainMeaning s else .string s

def isBlank (b : UInt8) : Bool := b = 32 || b = 9

def isGap (b : UInt8) : Bool := isBlank b || b = 10

def isFlowMark (b : UInt8) : Bool := b = 44 || b = 91 || b = 93 || b = 123 || b = 125

def isIndicator (b : UInt8) : Bool :=
  isFlowMark b || [35, 38, 42, 33, 124, 62, 39, 34, 37, 64, 96].contains b

/-- A hyphen, a question mark or a colon begins a plain scalar only when more of it follows. -/
def beginsPlain (inFlow : Bool) : Text → Bool
  | [] => false
  | b :: r =>
    if b = 45 || b = 63 || b = 58 then
      match r with
      | c :: _ => !isGap c && !(inFlow && isFlowMark c)
      | [] => false
    else !isIndicator b && !isGap b

/-- Drops blanks and breaks, with the comments that stand behind them. -/
def skipFlowSpace : (steps : Nat) → (afterGap : Bool) → Text → Text
  | 0, _, s => s
  | n + 1, afterGap, s =>
    match s with
    | b :: r =>
      if isGap b then skipFlowSpace n true r
      else if b = 35 && afterGap then skipFlowSpace n true (r.dropWhile (· ≠ 10))
      else s
    | [] => []

/-- Breaks inside a quoted scalar: one becomes a space, further ones stay. -/
def foldBreaks (s : Text) : Text × Text :=
  let gap := s.takeWhile isGap
  let breaks := (gap.filter (· = 10)).length
  if breaks = 0 then (gap, s.drop gap.length)
  else (if breaks = 1 then [32] else List.replicate (breaks - 1) 10, s.drop gap.length)

/-- The text in single quotes, after the opening one; a quote inside is written twice. -/
def singleQuoted : (steps : Nat) → Text → Option (Text × Text)
  | 0, _ => none
  | n + 1, s =>
    match s with
    | [] => none
    | 39 :: 39 :: r => (singleQuoted n r).map fun (t, r) => (39 :: t, r)
    | 39 :: r => some ([], r)
    | b :: r =>
      if isGap b then
        let (g, r) := foldBreaks s
        (singleQuoted n r).map fun (t, r) => (g ++ t, r)
      else (singleQuoted n r).map fun (t, r) => (b :: t, r)

def hexNumber? (ds : Text) : Option Nat :=
  ds.foldlM (fun n b => (Text.hexValue? b).map (16 * n + ·)) 0

def hexEscape (width : Nat) (r : Text) : Option (Text × Text) := do
  if r.length < width then none
  let n ← hexNumber? (r.take width)
  if (0xD800 ≤ n && n < 0xE000) || 0x10FFFF < n then none
  return (String.utf8EncodeChar (Char.ofNat n), r.drop width)

/-- What an escape stands for; the backslash is read. -/
def escape? : Text → Option (Text × Text)
  | [] => none
  | b :: r =>
    let one (t : Text) : Option (Text × Text) := some (t, r)
    let char (c : Char) : Option (Text × Text) := one (String.utf8EncodeChar c)
    if b = Text.byte '0' then one [0]
    else if b = Text.byte 'a' then one [7]
    else if b = Text.byte 'b' then one [8]
    else if b = Text.byte 't' || b = 9 then one [9]
    else if b = Text.byte 'n' then one [10]
    else if b = Text.byte 'v' then one [11]
    else if b = Text.byte 'f' then one [12]
    else if b = Text.byte 'r' then one [13]
    else if b = Text.byte 'e' then one [27]
    else if b = 32 || b = Text.byte '"' || b = Text.byte '/' || b = Text.byte '\\' then one [b]
    else if b = Text.byte 'N' then char '\u0085'
    else if b = Text.byte '_' then char '\u00a0'
    else if b = Text.byte 'L' then char '\u2028'
    else if b = Text.byte 'P' then char '\u2029'
    else if b = Text.byte 'x' then hexEscape 2 r
    else if b = Text.byte 'u' then hexEscape 4 r
    else if b = Text.byte 'U' then hexEscape 8 r
    else if b = 10 then some ([], r.dropWhile isGap)
    else none

/-- The text in double quotes, after the opening one. -/
def doubleQuoted : (steps : Nat) → Text → Option (Text × Text)
  | 0, _ => none
  | n + 1, s =>
    match s with
    | [] => none
    | 34 :: r => some ([], r)
    | 92 :: r => do
      let (e, r) ← escape? r
      let (t, r) ← doubleQuoted n r
      return (e ++ t, r)
    | b :: r =>
      if isGap b then
        let (g, r) := foldBreaks s
        (doubleQuoted n r).map fun (t, r) => (g ++ t, r)
      else (doubleQuoted n r).map fun (t, r) => (b :: t, r)

def readQuoted : Text → Option (Text × Text)
  | 39 :: r => singleQuoted (r.length + 1) r
  | 34 :: r => doubleQuoted (r.length + 1) r
  | _ => none

/-- The text of a plain scalar in a flow collection: up to a mark, a comment, or a colon that ends a
key. -/
def flowPlain : (afterGap : Bool) → Text → Text
  | _, [] => []
  | afterGap, b :: r =>
    if isFlowMark b || b = 10 then []
    else if b = 35 && afterGap then []
    else if b = 58 && (match r with | c :: _ => isGap c || isFlowMark c | [] => true) then []
    else b :: flowPlain (isBlank b) r

def trimBlanks (s : Text) : Text := Text.trimRight isBlank s

mutual
def readFlow : (steps : Nat) → Text → Option (Yaml × Text)
  | 0, _ => none
  | n + 1, s =>
    match s with
    | 123 :: r => (readFlowEntries n (skipFlowSpace r.length false r)).map fun (es, r) =>
        (.mapping es, r)
    | 91 :: r => (readFlowItems n (skipFlowSpace r.length false r)).map fun (is, r) =>
        (.sequence is, r)
    | 39 :: _ | 34 :: _ => (readQuoted s).map fun (t, r) => (.scalar t false, r)
    | _ =>
      if beginsPlain true s then
        let t := flowPlain false s
        some (.scalar (trimBlanks t) true, s.drop t.length)
      else none

def readFlowEntries : (steps : Nat) → Text → Option (List (Text × Yaml) × Text)
  | 0, _ => none
  | _ + 1, 125 :: r => some ([], r)
  | n + 1, s => do
    let (key, r) ← readFlow n s
    let .scalar k _ := key | none
    let r := skipFlowSpace r.length false r
    let (v, r) ← match r with
      | 58 :: r =>
        let r := skipFlowSpace r.length false r
        match r with
        | 44 :: _ | 125 :: _ => some (Yaml.scalar [] true, r)
        | _ => readFlow n r
      | r => some (Yaml.scalar [] true, r)
    let r := skipFlowSpace r.length false r
    match r with
    | 125 :: r => return ([(k, v)], r)
    | 44 :: r =>
      let (es, r) ← readFlowEntries n (skipFlowSpace r.length false r)
      return ((k, v) :: es, r)
    | _ => none

def readFlowItems : (steps : Nat) → Text → Option (List Yaml × Text)
  | 0, _ => none
  | _ + 1, 93 :: r => some ([], r)
  | n + 1, s => do
    let (v, r) ← readFlow n s
    let r := skipFlowSpace r.length false r
    match r with
    | 93 :: r => return ([v], r)
    | 44 :: r =>
      let (vs, r) ← readFlowItems n (skipFlowSpace r.length false r)
      return (v :: vs, r)
    | _ => none
end

def indentOf (l : Text) : Nat := (l.takeWhile (· = 32)).length

def contentOf (l : Text) : Text := l.dropWhile (· = 32)

/-- The line holds nothing, or a comment only. -/
def isSilent (l : Text) : Bool :=
  match l.dropWhile isBlank with
  | [] => true
  | b :: _ => b = 35

def skipSilent (ls : List Text) : List Text := ls.dropWhile isSilent

def beforeComment : (afterGap : Bool) → Text → Text
  | _, [] => []
  | afterGap, b :: r => if b = 35 && afterGap then [] else b :: beforeComment (isBlank b) r

/-- Where a colon ends a key: the text before it and the text behind it. -/
def splitKey? : Text → Option (Text × Text)
  | [] => none
  | 58 :: r =>
    match r with
    | [] => some ([], [])
    | c :: _ => if isBlank c then some ([], r)
      else (splitKey? r).map fun (k, v) => (58 :: k, v)
  | b :: r => (splitKey? r).map fun (k, v) => (b :: k, v)

/-- The key of a line that is an entry of a block mapping, and the text of its value. -/
def entryOf? (content : Text) : Option (Text × Text) :=
  match content with
  | 39 :: _ | 34 :: _ => do
    let (k, r) ← readQuoted content
    match r.dropWhile isBlank with
    | 58 :: v => if v.head?.all isGap then some (k, v) else none
    | _ => none
  | _ =>
    if !beginsPlain false content then none
    else (splitKey? (beforeComment false content)).map fun (k, v) => (trimBlanks k, v)

def itemOf? : Text → Option Text
  | [45] => some []
  | 45 :: b :: r => if isBlank b then some (b :: r) else none
  | _ => none

/-- What follows a flow collection or quoted scalar that began on the first line: nothing more on
its last line, and the lines after that. -/
def closeLine (rest : Text) : Option (List Text) :=
  match Text.lines rest with
  | l :: ls =>
    match l with
    | [] => some ls
    | b :: _ => if isSilent l && isBlank b then some ls else none
  | [] => some []

/-- A plain scalar that begins with `first` and goes on over lines indented more than `indent`. -/
def plainLines (indent : Nat) (first : Text) : List Text → Option (Text × List Text)
  | [] => some (first, [])
  | l :: ls =>
    if isSilent l then
      if l.all isBlank then plainLines indent first ls else some (first, l :: ls)
    else if indentOf l ≤ indent then some (first, l :: ls)
    else
      let t := trimBlanks (beforeComment true (l.dropWhile isBlank))
      if (splitKey? t).isSome || l.contains 35 then none
      else plainLines indent (first ++ 32 :: t) ls

mutual
/-- The value whose text begins on an entry's own line; `indent` is that of the entry. -/
def readInline : (steps : Nat) → (indent : Int) → Text → List Text → Option (Yaml × List Text)
  | 0, _, _, _ => none
  | n + 1, indent, v, ls =>
    match v.dropWhile isBlank with
    | [] => readBelow n indent ls
    | b :: r =>
      if b = 35 then if v.head?.any isBlank then readBelow n indent ls else none
      else if b = 123 || b = 91 then do
        let s := Text.unlines ((b :: r) :: ls)
        let (y, rest) ← readFlow (s.length + 2) s
        return (y, ← closeLine rest)
      else if b = 39 || b = 34 then do
        let (t, rest) ← readQuoted (Text.unlines ((b :: r) :: ls))
        return (.scalar t false, ← closeLine rest)
      else if !beginsPlain false (b :: r) then none
      else
        let t := trimBlanks (beforeComment false (b :: r))
        if (splitKey? t).isSome then none
        else if t.length < (trimBlanks (b :: r)).length then some (.scalar t true, ls)
        else (plainLines indent.toNat t ls).map fun (t, ls) => (.scalar t true, ls)

/-- The value of an entry whose line ends behind the colon: a block indented more, or null. A
sequence may stand at the indentation of the key. -/
def readBelow : (steps : Nat) → (indent : Int) → List Text → Option (Yaml × List Text)
  | 0, _, _ => none
  | n + 1, indent, ls =>
    match skipSilent ls with
    | [] => some (.scalar [] true, [])
    | l :: rest =>
      if indent < indentOf l then readBlock n (indentOf l) (l :: rest)
      else if indent = indentOf l && (itemOf? (contentOf l)).isSome then
        readBlock n (indentOf l) (l :: rest)
      else some (.scalar [] true, l :: rest)

/-- The block that begins on the first line, at this indentation. -/
def readBlock : (steps : Nat) → (indent : Nat) → List Text → Option (Yaml × List Text)
  | 0, _, _ => none
  | n + 1, indent, ls =>
    match ls with
    | [] => some (.scalar [] true, [])
    | l :: rest =>
      if (contentOf l).head? = some 9 then none
      else if (itemOf? (contentOf l)).isSome then
        (readItems n indent ls).map fun (is, ls) => (.sequence is, ls)
      else match entryOf? (contentOf l) with
        | some _ => (readEntries n indent ls).map fun (es, ls) => (.mapping es, ls)
        | none => readInline n (indent - 1 : Int) (contentOf l) rest

def readEntries : (steps : Nat) → (indent : Nat) → List Text →
    Option (List (Text × Yaml) × List Text)
  | 0, _, _ => none
  | n + 1, indent, ls =>
    match skipSilent ls with
    | [] => some ([], [])
    | l :: rest =>
      if indentOf l < indent then some ([], l :: rest)
      else if indent < indentOf l || (contentOf l).head? = some 9 then none
      else do
        let (k, v) ← entryOf? (contentOf l)
        let (y, ls) ← readInline n indent v rest
        let (es, ls) ← readEntries n indent ls
        return ((k, y) :: es, ls)

/-- The items of a block sequence at this indentation. An item that is a block of its own is read
as if the hyphen were a blank. -/
def readItems : (steps : Nat) → (indent : Nat) → List Text → Option (List Yaml × List Text)
  | 0, _, _ => none
  | n + 1, indent, ls =>
    match skipSilent ls with
    | [] => some ([], [])
    | l :: rest =>
      if indentOf l < indent then some ([], l :: rest)
      else if indent < indentOf l then none
      else match itemOf? (contentOf l) with
        | none => some ([], l :: rest)
        | some v => do
          let content := v.dropWhile isBlank
          let nested := List.replicate (indent + 1) 32 ++ v
          let (y, ls) ← if isSilent v then readBelow n indent rest
            else if (entryOf? content).isSome || (itemOf? content).isSome then
              readBlock n (indentOf nested) (nested :: rest)
            else readInline n indent v rest
          let (is, ls) ← readItems n indent ls
          return (y :: is, ls)
end

def isAllowed (c : Char) : Bool :=
  c = '\t' || c = '\n' || c = '\r' || (0x20 ≤ c.toNat && c.toNat ≤ 0x7E) || c.toNat = 0x85 ||
    (0xA0 ≤ c.toNat && c.toNat ≠ 0xFFFE && c.toNat ≠ 0xFFFF)

/-- Every line break is a line feed; U+0085 is a break too. -/
def normalBreaks : Text → Text
  | 13 :: 10 :: r => 10 :: normalBreaks r
  | 13 :: r => 10 :: normalBreaks r
  | 0xC2 :: 0x85 :: r => 10 :: normalBreaks r
  | b :: r => b :: normalBreaks r
  | [] => []

/-- The line divides documents, or ends one. -/
def isMarker (mark : Text) (l : Text) : Bool :=
  match Text.dropStart? mark l with
  | some r => r.head?.all isGap
  | none => false

def firstDocument (ls : List Text) : List Text :=
  let body : List Text := match skipSilent ls with
    | l :: rest => if isMarker "---" l then (List.replicate 3 32 ++ l.drop 3) :: rest else l :: rest
    | [] => []
  body.takeWhile fun l => !isMarker "---" l && !isMarker "..." l

/-- The first document of a text; an empty one is null. -/
def ofText? (s : Text) : Option Yaml := do
  let s := (Text.dropStart? [0xEF, 0xBB, 0xBF] s).getD s
  if !Text.isUtf8 s || !(Text.chars s).all isAllowed then none
  let ls := firstDocument (Text.lines (normalBreaks s))
  let steps := 4 * s.length + 16
  match skipSilent ls with
  | [] => return .scalar [] true
  | l :: rest =>
    let (y, ls) ← readBlock steps (indentOf l) (l :: rest)
    if (skipSilent ls).isEmpty then some y else none

end Yaml

end AnchorScript
