import AnchorScript.Text.Trim

/-!
# Names in Rust

Source names become snake-case identifiers, with keywords escaped, and Pascal-case type names.
-/

namespace AnchorScript.Rust

def keywords : List Text :=
  List.map Text.ofString
    ["as", "async", "await", "box", "break", "const", "continue", "dyn", "else", "enum", "extern",
      "false", "fn", "for", "if", "impl", "in", "let", "loop", "match", "mod", "move", "mut", "pub",
      "ref", "return", "static", "struct", "trait", "true", "type", "unsafe", "use", "where",
      "while", "yield", "abstract", "become", "do", "final", "macro", "override", "priv", "try",
      "typeof", "unsized", "virtual"]

/-- A word begins at an upper-case letter after a lower-case letter or digit, and at the last
upper-case letter of a run that a lower-case letter follows. -/
def beginsWord (previous : Char) (next : Option Char) : Bool :=
  previous != '_' &&
    (Text.isLowerLetter previous || Text.isDecimalDigit previous ||
      (Text.isUpperLetter previous && next.any Text.isLowerLetter))

/-- Words in lower case with underscores between them, after the character `previous`. -/
def snakeChars (previous : Option Char) : List Char → List Char
  | [] => []
  | c :: r =>
    if Text.isUpperLetter c then
      if previous.any (beginsWord · r.head?) then
        '_' :: Text.toLowerLetter c :: snakeChars (some c) r
      else Text.toLowerLetter c :: snakeChars (some c) r
    else c :: snakeChars (some c) r

def snakeCase (name : Text) : Text := Text.ofChars (snakeChars none (Text.chars name))

/-- Underscores removed and what follows each of them in upper case; `raise` for the first
character. -/
def pascalChars (raise : Bool) : List Char → List Char
  | [] => []
  | c :: r =>
    if c = '_' then pascalChars true r
    else if raise then Text.toUpperLetter c :: pascalChars false r
    else c :: pascalChars false r

def pascalCase (name : Text) : Text := Text.ofChars (pascalChars true (Text.chars name))

def ident (name : Text) : Text :=
  let s := snakeCase name
  if keywords.contains s then "r#" ++ s else s

def contextName (instruction : Text) : Text := pascalCase instruction ++ "Context"

end AnchorScript.Rust
