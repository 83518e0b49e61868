import AnchorScript.Token
import AnchorScript.Text.Basic

/-!
# Reading tokens

A source is a sequence of tokens with blanks between them: white space and complete comments. Every
token takes at least one byte, and blanks and tokens together make up the source.

A string literal stands between two equal quotes of any of the three kinds. A backslash gives the byte
after it a meaning of its own or keeps it as it is.
-/

namespace AnchorScript

namespace Lexer

def isBlank (b : UInt8) : Bool := b = 32 || b = 9 || b = 10 || b = 13

def isIdentStart (b : UInt8) : Bool := Text.isLetter b || b = 95 || b = 36

def isIdentPart (b : UInt8) : Bool := isIdentStart b || Text.isDigit b

/-- A block comment's text through its closing mark, and what follows; none if it never closes. -/
def commentBody? : Text → Option (Text × Text)
  | [] => none
  | 42 :: 47 :: r => some ([42, 47], r)
  | c :: r => (commentBody? r).map fun (body, rest) => (c :: body, rest)

theorem commentBody?_append {s body rest : Text} (h : commentBody? s = some (body, rest)) :
    body ++ rest = s := by
  fun_induction commentBody? s generalizing body rest with
  | case1 => simp at h
  | case2 r => simp at h; simp [← h.1, ← h.2]
  | case3 c r _ ih =>
    obtain ⟨⟨b, t⟩, hb, he⟩ := Option.map_eq_some_iff.1 h
    simp at he
    simp [← he.1, ← he.2, ih hb]

/-- The blanks a source begins with, and what follows them. -/
def blanks : Text → Text × Text
  | [] => ([], [])
  | c :: r =>
    if isBlank c then
      let (skipped, rest) := blanks r
      (c :: skipped, rest)
    else if c = 47 then
      match r with
      | 47 :: line =>
        let (skipped, rest) := blanks (line.dropWhile (· != 10))
        (47 :: 47 :: line.takeWhile (· != 10) ++ skipped, rest)
      | 42 :: inside =>
        match _h : commentBody? inside with
        | some (body, after) =>
          let (skipped, rest) := blanks after
          (47 :: 42 :: body ++ skipped, rest)
        | none => ([], c :: r)
      | _ => ([], c :: r)
    else ([], c :: r)
termination_by s => s.length
decreasing_by
  · simp
  · have := (List.dropWhile_sublist (· != 10) (l := line)).length_le
    simp; omega
  · have := congrArg List.length (commentBody?_append _h)
    simp at this ⊢; omega

theorem blanks_append (s : Text) : (blanks s).1 ++ (blanks s).2 = s := by
  fun_induction blanks s with
  | case1 => rfl
  | case2 c r _ skipped rest h ih => simpa [h] using ih
  | case3 line skipped rest h _ ih =>
    rw [h] at ih
    simp [ih]
  | case4 inside body after hb skipped rest h _ ih =>
    rw [h] at ih
    simp [ih, commentBody?_append hb]
  | case5 => simp
  | case6 => simp
  | case7 => simp

/-- The operator that begins with byte `c`, and how many bytes after `c` belong to it. A doubled
comparison sign may be followed by one more equals sign. -/
def operator? (c : UInt8) (r : Text) : Option (Punct × Nat) :=
  match c with
  | 40 => some (.lparen, 0)
  | 41 => some (.rparen, 0)
  | 123 => some (.lbrace, 0)
  | 125 => some (.rbrace, 0)
  | 91 => some (.lbracket, 0)
  | 93 => some (.rbracket, 0)
  | 58 => some (.colon, 0)
  | 59 => some (.semicolon, 0)
  | 44 => some (.comma, 0)
  | 46 => some (.dot, 0)
  | 63 => some (.question, 0)
  | 43 => some (.plus, 0)
  | 45 => some (.minus, 0)
  | 42 => some (.star, 0)
  | 47 => some (.slash, 0)
  | 37 => some (.percent, 0)
  | 61 =>
    match r with
    | 62 :: _ => some (.fatArrow, 1)
    | 61 :: 61 :: _ => some (.eq, 2)
    | 61 :: _ => some (.eq, 1)
    | _ => some (.assign, 0)
  | 33 =>
    match r with
    | 61 :: 61 :: _ => some (.ne, 2)
    | 61 :: _ => some (.ne, 1)
    | _ => some (.bang, 0)
  | 60 =>
    match r with
    | 61 :: _ => some (.le, 1)
    | _ => some (.lt, 0)
  | 62 =>
    match r with
    | 61 :: _ => some (.ge, 1)
    | _ => some (.gt, 0)
  | 38 =>
    match r with
    | 38 :: _ => some (.andAnd, 1)
    | _ => none
  | 124 =>
    match r with
    | 124 :: _ => some (.orOr, 1)
    | _ => none
  | _ => none

def isQuote (b : UInt8) : Bool := b = 34 || b = 39 || b = 96

/-- A string's text through its closing quote, or to the end of the input. A backslash keeps the
byte after it from closing the string. -/
def stringLength (quote : UInt8) : Text → Nat
  | [] => 0
  | [92] => 1
  | 92 :: _ :: r => stringLength quote r + 2
  | c :: r => if c = quote then 1 else stringLength quote r + 1

/-- What one token is: its kind, the text it carries, and its bytes after the first. -/
structure Lexeme where
  kind : TokenKind
  literal : Text
  tail : Text

/-- The token that begins with byte `c`, where no blank can begin. -/
def lexeme (c : UInt8) (r : Text) : Lexeme :=
  if c = 47 && r.head? = some 42 then ⟨.illegal, "/*", r⟩
  else match operator? c r with
    | some (p, n) => ⟨.punct p, p.text, r.take n⟩
    | none =>
      if isQuote c then
        let tail := r.take (stringLength c r)
        ⟨.string, c :: tail, tail⟩
      else if isIdentStart c then
        let word := c :: r.takeWhile isIdentPart
        match Keyword.ofText? word with
        | some k => ⟨.keyword k, word, r.takeWhile isIdentPart⟩
        | none => ⟨.ident, word, r.takeWhile isIdentPart⟩
      else if Text.isDigit c then
        ⟨.number, c :: r.takeWhile isIdentPart, r.takeWhile isIdentPart⟩
      else ⟨.illegal, [c], []⟩

/-- The end of a token: the place of its last byte, or for an open comment the end of input. -/
def stopOf (k : Lexeme) (after : Location) : Location :=
  if k.kind = .illegal && k.literal = "/*" then after else after.previous

/-- The tokens of `s`, which stands at `l`, through the token for the end of the input. -/
def tokensFrom (l : Location) (s : Text) : List Token :=
  let gap := (blanks s).1
  let start := l.after gap
  match _h : (blanks s).2 with
  | [] => [⟨.endOfInput, [], start, start, gap.contains 10⟩]
  | c :: r =>
    let k := lexeme c r
    let stop := start.after (c :: k.tail)
    let newline := gap.contains 10 || (k.kind = .illegal && k.tail.contains 10)
    ⟨k.kind, k.literal, start, stopOf k stop, newline⟩ :: tokensFrom stop (r.drop k.tail.length)
termination_by s.length
decreasing_by
  have := congrArg List.length (blanks_append s)
  simp [_h] at this ⊢; omega

end Lexer

def tokens (src : Text) : List Token := Lexer.tokensFrom .start src

namespace StringLiteral

def escaped (b : UInt8) : UInt8 :=
  if b = 110 then 10
  else if b = 116 then 9
  else if b = 114 then 13
  else if b = 48 then 0
  else b

/-- The text between the quotes with its escapes resolved; none if the last backslash has no byte
after it. -/
def unescape? : Text → Option Text
  | [] => some []
  | [92] => none
  | 92 :: b :: r => (unescape? r).map (escaped b :: ·)
  | c :: r => (unescape? r).map (c :: ·)

/-- The value of a literal, quotes included in its text. -/
def value? : Text → Option Text
  | [] => none
  | quote :: r =>
    if (quote = 34 || quote = 39 || quote = 96) && r.getLast? = some quote then
      unescape? r.dropLast
    else none

end StringLiteral

end AnchorScript
