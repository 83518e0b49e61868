import AnchorScript.Text.Basic

/-!
# Tokens

The words of a program source: their kinds, the text they carry and where they stand.
-/

namespace AnchorScript

/-- A one-based position in a source file, as programs and diagnostics report it. -/
structure SourcePos where
  line : Int
  column : Int
  deriving DecidableEq

def SourcePos.text (p : SourcePos) : Text := Text.ofInt p.line ++ ":" ++ Text.ofInt p.column

inductive Punct where
  | lparen | rparen | lbrace | rbrace | lbracket | rbracket
  | colon | semicolon | comma | dot | question
  | fatArrow | assign | eq | ne | lt | le | gt | ge
  | bang | andAnd | orOr | plus | minus | star | slash | percent
  deriving DecidableEq

namespace Punct

def all : List Punct :=
  [lparen, rparen, lbrace, rbrace, lbracket, rbracket, colon, semicolon, comma, dot, question,
    fatArrow, assign, eq, ne, lt, le, gt, ge, bang, andAnd, orOr, plus, minus, star, slash, percent]

def text : Punct → Text
  | lparen => "(" | rparen => ")" | lbrace => "\x7b" | rbrace => "\x7d" | lbracket => "["
  | rbracket => "]" | colon => ":" | semicolon => ";" | comma => "," | dot => "."
  | question => "?" | fatArrow => "=>" | assign => "=" | eq => "==" | ne => "!="
  | lt => "<" | le => "<=" | gt => ">" | ge => ">=" | bang => "!" | andAnd => "&&"
  | orOr => "||" | plus => "+" | minus => "-" | star => "*" | slash => "/" | percent => "%"

end Punct

inductive Keyword where
  | kwImport | kwExport | kwDefault | kwClass | kwInterface | kwExtends | kwStatic | kwPublic
  | kwConst | kwLet | kwReturn | kwNew | kwTrue | kwFalse
  deriving DecidableEq

namespace Keyword

def all : List Keyword :=
  [kwImport, kwExport, kwDefault, kwClass, kwInterface, kwExtends, kwStatic, kwPublic,
    kwConst, kwLet, kwReturn, kwNew, kwTrue, kwFalse]

def text : Keyword → Text
  | kwImport => "import" | kwExport => "export" | kwDefault => "default" | kwClass => "class"
  | kwInterface => "interface" | kwExtends => "extends" | kwStatic => "static"
  | kwPublic => "public" | kwConst => "const" | kwLet => "let" | kwReturn => "return"
  | kwNew => "new" | kwTrue => "true" | kwFalse => "false"

def ofText? (s : Text) : Option Keyword := all.find? (·.text = s)

end Keyword

inductive TokenKind where
  | illegal
  | endOfInput
  | ident
  | number
  | string
  | punct (p : Punct)
  | keyword (k : Keyword)
  deriving DecidableEq

namespace TokenKind

def all : List TokenKind :=
  [illegal, endOfInput, ident, number, string] ++ Punct.all.map punct ++ Keyword.all.map keyword

def text : TokenKind → Text
  | illegal => "ILLEGAL"
  | endOfInput => "EOF"
  | ident => "IDENT"
  | number => "NUMBER"
  | string => "STRING"
  | punct p => p.text
  | keyword k => k.text

end TokenKind

/-- A place in a source file: bytes before it, and its line and column, counted from one. -/
structure Location where
  offset : Nat
  line : Nat
  column : Nat
  deriving DecidableEq

namespace Location

def start : Location := ⟨0, 1, 1⟩

def next (l : Location) (b : UInt8) : Location :=
  if b = 10 then ⟨l.offset + 1, l.line + 1, 1⟩ else ⟨l.offset + 1, l.line, l.column + 1⟩

def after (l : Location) (s : Text) : Location := s.foldl next l

/-- The place of the byte before this one, under this one's offset. After a line feed the line
length is forgotten, and column one of the line before stands for it. -/
def previous (l : Location) : Location :=
  if l.column ≤ 1 then ⟨l.offset, l.line - 1, 1⟩ else ⟨l.offset, l.line, l.column - 1⟩

def pos (l : Location) : SourcePos := ⟨l.line, l.column⟩

def text (l : Location) : Text :=
  Text.ofNat l.offset ++ ":" ++ Text.ofNat l.line ++ ":" ++ Text.ofNat l.column

@[simp] theorem after_nil (l : Location) : l.after [] = l := rfl

@[simp] theorem after_cons (l : Location) (b : UInt8) (s : Text) :
    l.after (b :: s) = (l.next b).after s := rfl

theorem after_append (l : Location) (s t : Text) : l.after (s ++ t) = (l.after s).after t := by
  simp [after]

@[simp] theorem offset_next (l : Location) (b : UInt8) : (l.next b).offset = l.offset + 1 := by
  unfold next; split <;> rfl

theorem offset_after (l : Location) (s : Text) : (l.after s).offset = l.offset + s.length := by
  induction s generalizing l with
  | nil => simp
  | cons b s ih => simp [ih]; omega

end Location

structure Token where
  kind : TokenKind
  literal : Text
  start : Location
  stop : Location
  /-- A line break stands between this token and the one before it. -/
  newlineBefore : Bool
  deriving DecidableEq

namespace Token

def pos (t : Token) : SourcePos := t.start.pos

/-- The token that stands for a block comment the input ends in. -/
def isOpenComment (t : Token) : Bool := t.kind = .illegal && t.literal = "/*"

/-- Keywords are names too where only a name can stand. -/
def isName (t : Token) : Bool :=
  match t.kind with
  | .ident | .keyword _ => true
  | _ => false

end Token

end AnchorScript
