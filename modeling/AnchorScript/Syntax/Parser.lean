import AnchorScript.Syntax.Basic
import AnchorScript.Diagnostic
import AnchorScript.Token.Lexer

/-!
# Reading source files

A file is its imports followed by classes and interfaces. Reading a file gives its tree or the one
failure that ended the reading.

A reader takes the tokens it needs from the front of a sequence. What it leaves is part of its
result, with a bound on its length, so that loops over readers end. Reading stops at the first token
that does not fit.
-/

namespace AnchorScript.Syntax

namespace Parser

/-- The token that does not fit, and what was wanted. -/
structure Failure where
  token : Token
  message : Text

/-- More input could mend the failure: it stands at the end of the input or in a comment that
nothing closes. -/
def Failure.atEnd (f : Failure) : Bool :=
  f.token.kind = .endOfInput || f.token.isOpenComment

def Failure.diagnostic (file : Text) (f : Failure) : Diagnostic :=
  { kind := .syntaxError
    message := f.message
    span := ⟨file, f.token.start.pos, f.token.stop.pos⟩ }

/-- A value, and fewer than `n` tokens after it. -/
structure Parsed (α : Type) (n : Nat) where
  value : α
  rest : List Token
  bound : rest.length < n

abbrev Reader (α : Type) (n : Nat) := Except Failure (Parsed α n)

theorem length_lt_cons (t : Token) (r : List Token) : r.length < (t :: r).length :=
  Nat.lt_succ_self _

theorem length_lt_succ (ts : List Token) : ts.length < ts.length + 1 :=
  Nat.lt_succ_self _

theorem length_tail_lt_succ (ts : List Token) : ts.tail.length < ts.length + 1 := by
  rw [List.length_tail]
  omega

/-- What a second reading leaves is bounded by what stood before the first. -/
theorem length_lt_cons_succ (t : Token) {r r₁ r₂ : List Token} (h₁ : r₁.length < r.length)
    (h₂ : r₂.length < r₁.length + 1) : r₂.length < (t :: r).length + 1 := by
  rw [List.length_cons]
  omega

/-- A comment that never closes is the fault wherever it is met. -/
def fail {α : Type} (t : Token) (message : Text) : Except Failure α :=
  .error ⟨t, if t.isOpenComment then "unterminated block comment" else message⟩

def noToken : Token := ⟨.endOfInput, [], .start, .start, false⟩

def current (ts : List Token) : Token := ts.headD noToken

def atKind (k : TokenKind) (ts : List Token) : Bool := (current ts).kind = k

def atPunct (p : Punct) (ts : List Token) : Bool := atKind (.punct p) ts

def atKeyword (k : Keyword) (ts : List Token) : Bool := atKind (.keyword k) ts

/-- A token that passes `accept`, or the failure that `message` describes. -/
def takeIf (accept : Token → Bool) (message : Text) (ts : List Token) : Reader Token ts.length :=
  match ts with
  | [] => fail noToken message
  | t :: r => if accept t then .ok ⟨t, r, length_lt_cons t r⟩ else fail t message

def take (k : TokenKind) (message : Text) (ts : List Token) : Reader Token ts.length :=
  takeIf (·.kind = k) message ts

def takePunct (p : Punct) (message : Text) (ts : List Token) : Reader Token ts.length :=
  take (.punct p) message ts

def takeKeyword (k : Keyword) (message : Text) (ts : List Token) : Reader Token ts.length :=
  take (.keyword k) message ts

def takeIdent (message : Text) (ts : List Token) : Reader Token ts.length :=
  take .ident message ts

def skip? (k : TokenKind) (ts : List Token) : Parsed Bool (ts.length + 1) :=
  if atKind k ts then ⟨true, ts.tail, length_tail_lt_succ ts⟩ else ⟨false, ts, length_lt_succ ts⟩

/-- The end of a statement: a semicolon, or without one a line break, a closing brace or the end of
the input. -/
def endOfStatement (what : Text) (ts : List Token) : Reader PUnit (ts.length + 1) :=
  if atPunct .semicolon ts then .ok ⟨⟨⟩, ts.tail, length_tail_lt_succ ts⟩
  else if atPunct .rbrace ts || atKind .endOfInput ts || (current ts).newlineBefore then
    .ok ⟨⟨⟩, ts, length_lt_succ ts⟩
  else fail (current ts) ("expected ';' after " ++ what ++ ", got '" ++ (current ts).literal ++ "'")

/-!
## Expressions

Operators bind by level, from assignment, the loosest and the only one that groups to the right,
through disjunction, conjunction, comparison and sums to products. Prefix operators bind tighter
than all of these, and calls, member accesses and indexing tightest.
-/

def unaryOp? : TokenKind → Option UnaryOp
  | .punct .minus => some .neg
  | .punct .bang => some .not
  | _ => none

inductive Infix where
  | assign
  | op (o : BinaryOp)

namespace Infix

def ofKind? : TokenKind → Option Infix
  | .punct .assign => some .assign
  | .punct .orOr => some (.op .or)
  | .punct .andAnd => some (.op .and)
  | .punct .eq => some (.op .eq)
  | .punct .ne => some (.op .ne)
  | .punct .lt => some (.op .lt)
  | .punct .le => some (.op .le)
  | .punct .gt => some (.op .gt)
  | .punct .ge => some (.op .ge)
  | .punct .plus => some (.op .add)
  | .punct .minus => some (.op .sub)
  | .punct .star => some (.op .mul)
  | .punct .slash => some (.op .div)
  | .punct .percent => some (.op .rem)
  | _ => none

def opLevel : BinaryOp → Nat
  | .or => 3
  | .and => 4
  | .eq | .ne | .lt | .le | .gt | .ge => 5
  | .add | .sub => 6
  | .mul | .div | .rem => 7

def level : Infix → Nat
  | assign => 2
  | op o => opLevel o

/-- The loosest operator that the right operand may hold outside brackets. -/
def rightLevel : Infix → Nat
  | assign => 2
  | op o => opLevel o + 1

def apply : Infix → Expr → Expr → Expr
  | assign, l, r => .assign l r
  | op o, l, r => .binary o l r

end Infix

def anyLevel : Nat := 1

mutual

/-- An expression whose operators outside brackets are of level `min` or tighter. -/
def exprAt (min : Nat) (ts : List Token) : Reader Expr ts.length := do
  let ⟨left, r, _⟩ ← operand ts
  let ⟨e, r', _⟩ ← climb min left r
  return ⟨e, r', by omega⟩
termination_by 8 * ts.length + 6

/-- Extends `left` by the operators of level `min` or tighter that follow it. -/
def climb (min : Nat) (left : Expr) (ts : List Token) : Reader Expr (ts.length + 1) :=
  match ts with
  | [] => .ok ⟨left, [], length_lt_succ _⟩
  | t :: r =>
    match Infix.ofKind? t.kind with
    | none => .ok ⟨left, t :: r, length_lt_succ _⟩
    | some i =>
      if min ≤ i.level then do
        let ⟨right, r₁, h₁⟩ ← exprAt i.rightLevel r
        let ⟨e, r₂, h₂⟩ ← climb min (i.apply left right) r₁
        return ⟨e, r₂, length_lt_cons_succ t h₁ h₂⟩
      else .ok ⟨left, t :: r, length_lt_succ _⟩
termination_by 8 * ts.length

def operand (ts : List Token) : Reader Expr ts.length :=
  match ts with
  | [] => fail noToken "unexpected EOF, expected expression"
  | t :: r =>
    match unaryOp? t.kind with
    | some op => do
      let ⟨e, r', _⟩ ← operand r
      return ⟨.unary t.pos op e, r', by simp only [List.length_cons]; omega⟩
    | none => do
      let ⟨e, r₁, _⟩ ← primary t r
      let ⟨e', r₂, _⟩ ← postfixes e r₁
      return ⟨e', r₂, by simp only [List.length_cons]; omega⟩
termination_by 8 * ts.length + 5

/-- The expression that begins with token `t` and holds no operator outside brackets. -/
def primary (t : Token) (r : List Token) : Reader Expr (r.length + 1) :=
  match t.kind with
  | .ident => .ok ⟨.name t.pos t.literal, r, length_lt_succ r⟩
  | .number => .ok ⟨.number t.pos t.literal, r, length_lt_succ r⟩
  | .string =>
    match StringLiteral.value? t.literal with
    | some value => .ok ⟨.string t.pos value, r, length_lt_succ r⟩
    | none => fail t ("invalid string literal " ++ t.literal)
  | .keyword .kwTrue => .ok ⟨.bool t.pos true, r, length_lt_succ r⟩
  | .keyword .kwFalse => .ok ⟨.bool t.pos false, r, length_lt_succ r⟩
  | .punct .lbracket => do
    let ⟨elems, r', _⟩ ← exprsUntil .rbracket "array literal" r
    return ⟨.array t.pos elems, r', by omega⟩
  | .keyword .kwNew => do
    let ⟨name, r₁, _⟩ ← takeIdent "expected class name after 'new'" r
    let ⟨_, r₂, _⟩ ← takePunct .lparen ("expected '(' after 'new " ++ name.literal ++ "'") r₁
    let ⟨args, r₃, _⟩ ← exprsUntil .rparen "constructor arguments" r₂
    return ⟨.construct t.pos name.literal args, r₃, by omega⟩
  | .punct .lparen => do
    let ⟨inner, r₁, _⟩ ← exprAt anyLevel r
    let ⟨_, r₂, _⟩ ← takePunct .rparen "expected ')' to close expression" r₁
    return ⟨.paren t.pos inner, r₂, by omega⟩
  | .endOfInput => fail t "unexpected EOF, expected expression"
  | _ => fail t ("unexpected token '" ++ t.literal ++ "' in expression")
termination_by 8 * r.length + 8

/-- Extends `left` by the calls, member accesses and indexes that follow it. A bracket on a new
line begins a new statement; a dot always continues. -/
def postfixes (left : Expr) (ts : List Token) : Reader Expr (ts.length + 1) :=
  match ts with
  | [] => .ok ⟨left, [], length_lt_succ _⟩
  | t :: r =>
    if t.kind = .punct .dot then do
      let ⟨name, r₁, h₁⟩ ← takeIf Token.isName "expected member name after '.'" r
      let ⟨e, r₂, h₂⟩ ← postfixes (.member left name.pos name.literal) r₁
      return ⟨e, r₂, length_lt_cons_succ t h₁ h₂⟩
    else if t.kind = .punct .lparen && !t.newlineBefore then do
      let ⟨args, r₁, h₁⟩ ← exprsUntil .rparen "argument list" r
      let ⟨e, r₂, h₂⟩ ← postfixes (.call left args) r₁
      return ⟨e, r₂, length_lt_cons_succ t h₁ h₂⟩
    else if t.kind = .punct .lbracket && !t.newlineBefore then do
      let ⟨position, r₁, _⟩ ← exprAt anyLevel r
      let ⟨_, r₂, _⟩ ← takePunct .rbracket "expected ']' after index expression" r₁
      let ⟨e, r₃, _⟩ ← postfixes (.index left position) r₂
      return ⟨e, r₃, by simp only [List.length_cons]; omega⟩
    else .ok ⟨left, t :: r, length_lt_succ _⟩
termination_by 8 * ts.length

/-- Expressions separated by commas through the closing bracket; the last may be followed by a
comma. -/
def exprsUntil (closing : Punct) (what : Text) (ts : List Token) :
    Reader (List Expr) ts.length :=
  if atPunct closing ts then do
    let ⟨_, r, _⟩ ← takePunct closing [] ts
    return ⟨[], r, by omega⟩
  else do
    let ⟨e, r, _⟩ ← exprAt anyLevel ts
    let ⟨more, r₁, _⟩ := skip? (.punct .comma) r
    if more then
      let ⟨es, r₂, _⟩ ← exprsUntil closing what r₁
      return ⟨e :: es, r₂, by omega⟩
    else
      let ⟨_, r₂, _⟩ ← takePunct closing ("expected '" ++ closing.text ++ "' to close " ++ what) r₁
      return ⟨[e], r₂, by omega⟩
termination_by 8 * ts.length + 7

end

def expression (ts : List Token) : Reader Expr ts.length := exprAt anyLevel ts

/-- Items separated by commas through the closing bracket; the last may be followed by a comma. -/
def listUntil {α : Type} (closing : Punct) (message : Text)
    (item : (ts : List Token) → Reader α ts.length) (ts : List Token) :
    Reader (List α) ts.length :=
  if atPunct closing ts then do
    let ⟨_, r, _⟩ ← takePunct closing message ts
    return ⟨[], r, by omega⟩
  else do
    let ⟨a, r, _⟩ ← item ts
    let ⟨more, r₁, _⟩ := skip? (.punct .comma) r
    if more then
      let ⟨as, r₂, _⟩ ← listUntil closing message item r₁
      return ⟨a :: as, r₂, by omega⟩
    else
      let ⟨_, r₂, _⟩ ← takePunct closing message r₁
      return ⟨[a], r₂, by omega⟩
termination_by ts.length

def isTypeArg (t : Token) : Bool := t.kind = .number || t.kind = .ident

def typeArg (name : Text) (ts : List Token) : Reader (Option Text) ts.length := do
  let ⟨arg, r, _⟩ ← takeIf isTypeArg ("expected type argument in '" ++ name ++ "<...>'") ts
  let ⟨_, r₁, _⟩ ← takePunct .gt "expected '>' to close type argument" r
  return ⟨some arg.literal, r₁, by omega⟩

def typeRef (ts : List Token) : Reader TypeRef ts.length := do
  let ⟨name, r, _⟩ ← takeIdent "expected type name" ts
  let ⟨hasArg, r₁, _⟩ := skip? (.punct .lt) r
  let ⟨arg, r₂, _⟩ ←
    if hasArg then do
      let ⟨arg, r₂, _⟩ ← typeArg name.literal r₁
      pure (⟨arg, r₂, by omega⟩ : Parsed (Option Text) (r₁.length + 1))
    else pure ⟨none, r₁, length_lt_succ r₁⟩
  if atPunct .lbracket r₂ then fail (current r₂) "array types are not supported"
  else return ⟨⟨name.literal, arg, name.pos⟩, r₂, by omega⟩

/-- A name and its type; `what` the name is for shows in messages. -/
def field (what : Text) (ts : List Token) : Reader FieldDecl ts.length := do
  let ⟨name, r, _⟩ ← takeIdent ("expected " ++ what ++ " name") ts
  if atPunct .question r then
    fail (current r) ("optional " ++ what ++ " '" ++ name.literal ++ "' is not supported")
  else
    let ⟨_, r₁, _⟩ ← takePunct .colon
      ("expected ':' after " ++ what ++ " name '" ++ name.literal ++ "'") r
    let ⟨type, r₂, _⟩ ← typeRef r₁
    return ⟨⟨name.literal, type, name.pos⟩, r₂, by omega⟩

def typeAnnotation (ts : List Token) : Reader (Option TypeRef) (ts.length + 1) :=
  let ⟨present, r, _⟩ := skip? (.punct .colon) ts
  if present then do
    let ⟨type, r₁, _⟩ ← typeRef r
    return ⟨some type, r₁, by omega⟩
  else .ok ⟨none, r, by omega⟩

def binding (word : Token) (kind : BindingKind) (ts : List Token) : Reader Statement ts.length := do
  let ⟨name, r, _⟩ ← takeIdent ("expected variable name after '" ++ kind.text ++ "'") ts
  let ⟨type, r₁, _⟩ ← typeAnnotation r
  let ⟨_, r₂, _⟩ ← takePunct .assign ("expected '=' in declaration of '" ++ name.literal ++ "'") r₁
  let ⟨value, r₃, _⟩ ← expression r₂
  let ⟨_, r₄, _⟩ ← endOfStatement "variable declaration" r₃
  return ⟨.binding word.pos kind name.literal type value, r₄, by omega⟩

/-- A returned expression begins on the line of the word that returns it. -/
def returned (ts : List Token) : Reader (Option Expr) (ts.length + 1) :=
  if atPunct .semicolon ts || atPunct .rbrace ts || (current ts).newlineBefore then
    .ok ⟨none, ts, length_lt_succ ts⟩
  else do
    let ⟨value, r, _⟩ ← expression ts
    return ⟨some value, r, by omega⟩

def statement (t : Token) (r : List Token) : Reader Statement (r.length + 1) :=
  match t.kind with
  | .keyword .kwConst => do
    let ⟨s, r₁, _⟩ ← binding t .const r
    return ⟨s, r₁, by omega⟩
  | .keyword .kwLet => do
    let ⟨s, r₁, _⟩ ← binding t .letting r
    return ⟨s, r₁, by omega⟩
  | .keyword .kwReturn => do
    let ⟨value, r₁, _⟩ ← returned r
    let ⟨_, r₂, _⟩ ← endOfStatement "return statement" r₁
    return ⟨.ret t.pos value, r₂, by omega⟩
  | _ => do
    let ⟨value, r₁, _⟩ ← expression (t :: r)
    let ⟨_, r₂, _⟩ ← endOfStatement "expression statement" r₁
    return ⟨.expr t.pos value, r₂, by simp only [List.length_cons] at *; omega⟩

def statements (what : Text) (ts : List Token) : Reader (List Statement) ts.length :=
  match ts with
  | [] => fail noToken ("unexpected EOF while parsing " ++ what)
  | t :: r =>
    if t.kind = .punct .rbrace then .ok ⟨[], r, length_lt_succ r⟩
    else if t.kind = .endOfInput then fail t ("unexpected EOF while parsing " ++ what)
    else if t.kind = .punct .semicolon then do
      let ⟨ss, r₁, _⟩ ← statements what r
      return ⟨ss, r₁, by simp only [List.length_cons]; omega⟩
    else do
      let ⟨s, r₁, _⟩ ← statement t r
      let ⟨ss, r₂, _⟩ ← statements what r₁
      return ⟨s :: ss, r₂, by simp only [List.length_cons]; omega⟩
termination_by ts.length

def block (what : Text) (ts : List Token) : Reader (List Statement) ts.length := do
  let ⟨_, r, _⟩ ← takePunct .lbrace ("expected '\x7b' before " ++ what) ts
  let ⟨body, r₁, _⟩ ← statements what r
  return ⟨body, r₁, by omega⟩

def importedNames (ts : List Token) : Reader (List Text) ts.length :=
  match ts with
  | [] => fail noToken "expected '\x7b' or identifier after 'import'"
  | t :: r =>
    match t.kind with
    | .punct .lbrace => do
      let ⟨names, r₁, _⟩ ← listUntil .rbrace "expected '\x7d' to close import list"
        (takeIdent "expected imported name") r
      return ⟨names.map Token.literal, r₁, by simp only [List.length_cons]; omega⟩
    | .ident => .ok ⟨[t.literal], r, length_lt_succ r⟩
    | _ => fail t "expected '\x7b' or identifier after 'import'"

def isFrom (t : Token) : Bool := t.kind = .ident && t.literal = "from"

def importDecl (ts : List Token) : Reader ImportDecl ts.length := do
  let ⟨word, r, _⟩ ← takeKeyword .kwImport "expected 'import'" ts
  let ⟨names, r₁, _⟩ ← importedNames r
  let ⟨_, r₂, _⟩ ← takeIf isFrom "expected 'from' in import declaration" r₁
  let ⟨literal, r₃, _⟩ ← take .string "expected module path string after 'from'" r₂
  match StringLiteral.value? literal.literal with
  | none => fail literal ("invalid string literal " ++ literal.literal)
  | some module =>
    let ⟨_, r₄, _⟩ ← endOfStatement "import declaration" r₃
    return ⟨⟨names, module, word.pos⟩, r₄, by omega⟩

def importDecls (ts : List Token) : Reader (List ImportDecl) (ts.length + 1) :=
  if atKeyword .kwImport ts then do
    let ⟨d, r, _⟩ ← importDecl ts
    let ⟨ds, r₁, _⟩ ← importDecls r
    return ⟨d :: ds, r₁, by omega⟩
  else .ok ⟨[], ts, length_lt_succ ts⟩
termination_by ts.length

def method (name : Token) (ts : List Token) : Reader MethodDecl ts.length := do
  let ⟨_, r, _⟩ ← takePunct .lparen "expected '(' to start parameter list" ts
  let ⟨params, r₁, _⟩ ← listUntil .rparen "expected ')' after parameter list" (field "parameter") r
  let ⟨returns, r₂, _⟩ ← typeAnnotation r₁
  let ⟨body, r₃, _⟩ ← block "method body" r₂
  return ⟨⟨name.literal, params, returns, body, name.pos⟩, r₃, by omega⟩

inductive Member where
  | property (p : PropertyDecl)
  | method (m : MethodDecl)

def Member.property? : Member → Option PropertyDecl
  | .property p => some p
  | .method _ => none

def Member.method? : Member → Option MethodDecl
  | .property _ => none
  | .method m => some m

def member (ts : List Token) : Reader Member ts.length := do
  let ⟨_, r, _⟩ := skip? (.keyword .kwPublic) ts
  let ⟨isStatic, r₁, _⟩ := skip? (.keyword .kwStatic) r
  let ⟨name, r₂, _⟩ ← takeIdent "expected class member name" r₁
  if atPunct .assign r₂ then
    let ⟨_, r₃, _⟩ ← takePunct .assign [] r₂
    let ⟨value, r₄, _⟩ ← expression r₃
    let ⟨_, r₅, _⟩ ← endOfStatement "property declaration" r₄
    return ⟨.property ⟨name.literal, isStatic, value, name.pos⟩, r₅, by omega⟩
  else if atPunct .lparen r₂ then
    if isStatic then fail name "static methods are not supported"
    else
      let ⟨m, r₃, _⟩ ← method name r₂
      return ⟨.method m, r₃, by omega⟩
  else
    fail (current r₂) ("expected '=' or '(' after class member name '" ++ name.literal ++ "'")

def members (ts : List Token) : Reader (List Member) ts.length :=
  match ts with
  | [] => fail noToken "expected '\x7d' to close class body"
  | t :: r =>
    if t.kind = .punct .rbrace then .ok ⟨[], r, length_lt_succ r⟩
    else if t.kind = .endOfInput then fail t "expected '\x7d' to close class body"
    else if t.kind = .punct .semicolon then do
      let ⟨ms, r₁, _⟩ ← members r
      return ⟨ms, r₁, by simp only [List.length_cons]; omega⟩
    else do
      let ⟨m, r₁, _⟩ ← member (t :: r)
      let ⟨ms, r₂, _⟩ ← members r₁
      return ⟨m :: ms, r₂, by simp only [List.length_cons] at *; omega⟩
termination_by ts.length
decreasing_by all_goals simp only [List.length_cons] at *; omega

def classDecl (isExported isDefault : Bool) (ts : List Token) : Reader ClassDecl ts.length := do
  let ⟨word, r, _⟩ ← takeKeyword .kwClass "expected 'class'" ts
  let ⟨name, r₁, _⟩ ← takeIdent "expected class name" r
  let ⟨_, r₂, _⟩ ← takePunct .lbrace "expected '\x7b' after class name" r₁
  let ⟨ms, r₃, _⟩ ← members r₂
  return ⟨⟨name.literal, isExported, isDefault, ms.filterMap Member.property?,
    ms.filterMap Member.method?, word.pos⟩, r₃, by omega⟩

/-- The end of an interface field: a semicolon or comma, or without one a closing brace or a line
break. -/
def endOfField (name : Text) (ts : List Token) : Reader PUnit (ts.length + 1) :=
  if atPunct .semicolon ts || atPunct .comma ts then .ok ⟨⟨⟩, ts.tail, length_tail_lt_succ ts⟩
  else if atPunct .rbrace ts || (current ts).newlineBefore then .ok ⟨⟨⟩, ts, length_lt_succ ts⟩
  else fail (current ts) ("expected ';' after interface field '" ++ name ++ "'")

def interfaceFields (ts : List Token) : Reader (List FieldDecl) ts.length :=
  if atPunct .rbrace ts || atKind .endOfInput ts then do
    let ⟨_, r, _⟩ ← takePunct .rbrace "expected '\x7d' to close interface body" ts
    return ⟨[], r, by omega⟩
  else do
    let ⟨f, r, _⟩ ← field "field" ts
    let ⟨_, r₁, _⟩ ← endOfField f.name r
    let ⟨fs, r₂, _⟩ ← interfaceFields r₁
    return ⟨f :: fs, r₂, by omega⟩
termination_by ts.length

def baseInterface (ts : List Token) : Reader (Option Text) (ts.length + 1) :=
  let ⟨present, r, _⟩ := skip? (.keyword .kwExtends) ts
  if present then do
    let ⟨base, r₁, _⟩ ← takeIdent "expected base interface name after 'extends'" r
    return ⟨some base.literal, r₁, by omega⟩
  else .ok ⟨none, r, by omega⟩

def interfaceDecl (isExported : Bool) (ts : List Token) : Reader InterfaceDecl ts.length := do
  let ⟨word, r, _⟩ ← takeKeyword .kwInterface "expected 'interface'" ts
  let ⟨name, r₁, _⟩ ← takeIdent "expected interface name" r
  let ⟨base, r₂, _⟩ ← baseInterface r₁
  let ⟨_, r₃, _⟩ ← takePunct .lbrace "expected '\x7b' after interface name" r₂
  let ⟨fields, r₄, _⟩ ← interfaceFields r₃
  return ⟨⟨name.literal, isExported, base, fields, word.pos⟩, r₄, by omega⟩

inductive Declaration where
  | cls (c : ClassDecl)
  | interface (i : InterfaceDecl)

def Declaration.class? : Declaration → Option ClassDecl
  | .cls c => some c
  | .interface _ => none

def Declaration.interface? : Declaration → Option InterfaceDecl
  | .cls _ => none
  | .interface i => some i

/-- Whether `export` and then `default` begin a declaration. -/
def exportWords (ts : List Token) : Parsed (Bool × Bool) (ts.length + 1) :=
  let ⟨isExported, r, _⟩ := skip? (.keyword .kwExport) ts
  if isExported then
    let ⟨isDefault, r₁, _⟩ := skip? (.keyword .kwDefault) r
    ⟨(true, isDefault), r₁, by omega⟩
  else ⟨(false, false), r, by omega⟩

def declaration (ts : List Token) : Reader Declaration ts.length := do
  let ⟨(isExported, isDefault), r, _⟩ := exportWords ts
  let t := current r
  match t.kind with
  | .keyword .kwClass =>
    let ⟨c, r₁, _⟩ ← classDecl isExported isDefault r
    return ⟨.cls c, r₁, by omega⟩
  | .keyword .kwInterface =>
    if isDefault then fail t "default-exported interfaces are not supported"
    else
      let ⟨i, r₁, _⟩ ← interfaceDecl isExported r
      return ⟨.interface i, r₁, by omega⟩
  | .keyword .kwImport => fail t "import declarations must precede all other declarations"
  | _ =>
    fail t ("unexpected token '" ++ t.literal ++
      "' at top level, expected class or interface declaration")

def declarations (ts : List Token) : Except Failure (List Declaration) :=
  match ts with
  | [] => .ok []
  | t :: r =>
    if t.kind = .endOfInput then .ok []
    else if t.kind = .punct .semicolon then declarations r
    else do
      let ⟨d, r₁, _⟩ ← declaration (t :: r)
      return d :: (← declarations r₁)
termination_by ts.length
decreasing_by all_goals simp only [List.length_cons] at *; omega

def file (ts : List Token) : Except Failure File := do
  let ⟨imports, r, _⟩ ← importDecls ts
  let ds ← declarations r
  return ⟨imports, ds.filterMap Declaration.class?, ds.filterMap Declaration.interface?⟩

end Parser

def parse (name src : Text) : Except Diagnostic File :=
  (Parser.file (tokens src)).mapError (Parser.Failure.diagnostic name)

/-- The source is refused only because it ends too early. -/
def isIncomplete (src : Text) : Bool :=
  match Parser.file (tokens src) with
  | .ok _ => false
  | .error f => f.atEnd

end AnchorScript.Syntax
