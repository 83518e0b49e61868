import AnchorScript.Proofs.Rust.Spelling
import AnchorScript.Proofs.Rust.Literals
import AnchorScript.Proofs.Rust.Scoping

/-!
# Programs read from their text

A reader of the Rust that is emitted, lexeme by lexeme. It knows how a program of this shape is
written in Rust and nothing of how it was printed: line breaks, indentation and a comma behind the
last element of a list make no difference to it.
-/

namespace AnchorScript.Rust

/-- A function of the program's module, with its statements up to the final `Ok(())`. -/
structure Function where
  name : Text
  context : Text
  args : List HandlerArg
  body : List Stmt

/-- What the text of a program says. -/
structure Source where
  usesSystemTransfer : Bool
  usesAssociatedToken : Bool
  usesToken : Bool
  programId : Text
  states : List StateStruct
  contexts : List ContextStruct
  module : Text
  functions : List Function

namespace Expr

def ofWord (w : Text) : Expr :=
  if w.head?.any Text.isDigit then .int w
  else if w = "true" then .bool true
  else if w = "false" then .bool false
  else .var w

/-- The expression that a tree stands for, among those that programs are written with. -/
def ofTree : Tree → Option Expr
  | .word w => some (ofWord w)
  | .apply (.word f) (.text literal) =>
    match stringValue? literal with
    | some (s, []) => if f = "String::from" then some (.string s) else none
    | _ => none
  | .member t n => (ofTree t).map (.member · n)
  | .call (.member t m) => (ofTree t).map (.call · m)
  | .neg t => (ofTree t).map .neg
  | .binary op l r =>
    match ofTree l, ofTree r with
    | some x, some y => some (.binary op x y)
    | _, _ => none
  | .paren t => (ofTree t).map .paren
  | .text _ | .apply _ _ | .call _ => none

end Expr

abbrev Reader := StateT (List Lexeme) Option

namespace Reader

/-- Whether the lexemes of `s` are next; they are passed over if so. -/
def given (s : Text) : Reader Bool := fun ls =>
  if lexemes s <+: ls then some (true, ls.drop (lexemes s).length) else some (false, ls)

def expect (s : Text) : Reader Unit := do
  if ← given s then pure () else failure

def word : Reader Text
  | .tok (.word w) :: ls => some (w, ls)
  | _ => none

def literal : Reader Text
  | .tok (.text l) :: ls => match stringValue? l with
    | some (s, []) => some (s, ls)
    | _ => none
  | _ => none

def natural : Reader Nat := do
  let w ← word
  if w.all Text.isDigit then return Text.natValue w else failure

def integer : Reader Int := do
  if ← given "-" then return -(← natural) else return ← natural

/-- At most `n` elements with `sep` between each two, up to `closing`, which it may stand before. -/
def listedWithin {α : Type} (sep closing : Text) (p : Reader α) : Nat → Reader (List α)
  | 0 => failure
  | n + 1 => do
    if ← given closing then return []
    let a ← p
    if ← given sep then return a :: (← listedWithin sep closing p n)
    expect closing
    return [a]

/-- No list has more elements than there are lexemes left. -/
def listed {α : Type} (sep closing : Text) (p : Reader α) : Reader (List α) := fun ls =>
  listedWithin sep closing p (ls.length + 1) ls

def eachWithin {α : Type} (opening : Text) (p : Reader α) : Nat → Reader (List α)
  | 0 => failure
  | n + 1 => do
    if ← given opening then return (← p) :: (← eachWithin opening p n)
    return []

/-- What `p` reads behind every `opening`. -/
def each {α : Type} (opening : Text) (p : Reader α) : Reader (List α) := fun ls =>
  eachWithin opening p (ls.length + 1) ls

def leadingToks : List Lexeme → List Tok
  | .tok t :: ls => t :: leadingToks ls
  | _ => []

def expr : Reader Expr := fun ls =>
  match Reading.exprAt 0 (leadingToks ls) with
  | some (t, rest) =>
    (Expr.ofTree t).map fun e => (e, rest.map .tok ++ ls.drop (leadingToks ls).length)
  | none => none

/-- A seed: bytes, a slice of one element or another expression. -/
def seed : Reader Expr
  | .bytes l :: ls => (byteStringValue? l).map fun s => (.bytes s, ls)
  | ls => (do
    if ← given "&[" then
      let e ← expr
      expect "]"
      return .slice e
    expr : Reader Expr) ls

def type : Reader Text := do
  let w ← word
  if ← given "<'" then
    let lifetime ← word
    if ← given "," then
      let arg ← word
      expect ">"
      return w ++ "<'" ++ lifetime ++ ", " ++ arg ++ ">"
    expect ">"
    return w ++ "<'" ++ lifetime ++ ">"
  return w

def arg : Reader HandlerArg := do
  let name ← word
  expect ":"
  return ⟨name, ← type⟩

/-- Constraints that name another account. -/
def naming : List (Text × (Text → Constraint)) :=
  [("payer", .payer), ("close", .close), ("token::mint", .mint false),
    ("token::authority", .authority false), ("associated_token::mint", .mint true),
    ("associated_token::authority", .authority true)]

def constraint : Reader Constraint := do
  let w ← word
  match naming.lookup w with
  | some c =>
    expect "="
    return c (← word)
  | none =>
    if w = "init" then return .init
    else if w = "mut" then return .mutable
    else if w = "space" then
      expect "="
      return .space (← integer)
    else if w = "seeds" then
      expect "= ["
      return .seeds (← listed "," "]" seed)
    else if w = "bump" then
      if ← given "=" then return .bump (some (← expr)) else return .bump none
    else failure

def constraints : Reader (List Constraint) := do
  if ← given "#[account(" then listed "," ")]" constraint else return []

def structField : Reader StructField := do
  expect "pub"
  let name ← word
  expect ":"
  return ⟨name, ← type⟩

def contextField : Reader ContextField := do
  let cs ← constraints
  let isUnchecked ← given "///"
  let f ← structField
  return ⟨cs, isUnchecked, f.name, f.type⟩

/-- A struct behind its `#[account]`. -/
def stateStruct : Reader StateStruct := do
  expect "pub struct"
  let name ← word
  expect "\x7b"
  return ⟨name, ← listed "," "\x7d" structField⟩

def instructionArgs : Reader (Option (List HandlerArg)) := do
  if ← given "#[instruction(" then return some (← listed "," ")]" arg) else return none

/-- A struct behind its `#[derive(Accounts)]`. -/
def contextStruct : Reader ContextStruct := do
  let args ← instructionArgs
  expect "pub struct"
  let name ← word
  expect "<'info> \x7b"
  return ⟨name, args, ← listed "," "\x7d" contextField⟩

def recordField : Reader (Text × Expr) := do
  let name ← word
  expect ":"
  return (name, ← expr)

/-- The arguments of a context's constructor. -/
def contextParts (name : Text) (isSigned : Bool) : Reader Stmt := do
  let program ← expr
  expect ","
  let accounts ← word
  expect ","
  if isSigned then
    let signer ← word
    expect ","
    expect ")"
    return .context name program accounts (some signer)
  else
    expect ")"
    return .context name program accounts none

/-- A struct, told by the brace behind its name, or another value. -/
def recordOrValue (isMutable : Bool) (name : Text) : Reader Stmt
  | .tok (.word struct) :: .sign 123 :: ls => (do
    return .record name struct (← listed "," "\x7d" recordField) : Reader Stmt) ls
  | ls => (do
    return .bind name isMutable none (← expr) : Reader Stmt) ls

/-- What a variable is bound to where no type is given. -/
def bound (isMutable : Bool) (name : Text) : Reader Stmt := do
  if ← given "CpiContext::new(" then contextParts name false
  else if ← given "CpiContext::new_with_signer(" then contextParts name true
  else recordOrValue isMutable name

/-- What stands behind the name that a statement binds. -/
def named (isMutable : Bool) (name : Text) : Reader Stmt := do
  if ← given ": &[&[&[u8]]; 1] = &[&[" then
    return .seeds name (← listed "," "]]" seed)
  else if ← given ":" then
    let t ← type
    expect "="
    return .bind name isMutable (some t) (← expr)
  else
    expect "="
    bound isMutable name

/-- A statement behind its `let`. -/
def binding : Reader Stmt := do
  let isMutable ← given "mut"
  let name ← word
  named isMutable name

/-- A call of a function, told from an assignment by the bracket behind its first word. -/
def plain : Reader Stmt
  | .tok (.word function) :: .tok .lparen :: ls => (do
    let context ← word
    expect ","
    let amount ← expr
    expect ")?"
    return .invoke function context amount : Reader Stmt) ls
  | ls => (do
    let place ← expr
    expect "="
    return .assign place (← expr) : Reader Stmt) ls

def statement : Reader Stmt := do
  if ← given "let" then binding else plain

/-- The arguments of a function behind its context. -/
def functionArgs : Reader (List HandlerArg) := do
  if ← given "," then listed "," ")" arg else do
    expect ")"
    return []

/-- A function behind its `pub fn`. -/
def function : Reader Function := do
  let name ← word
  expect "(ctx: Context<"
  let context ← word
  expect ">"
  let args ← functionArgs
  expect "-> Result<()> \x7b"
  let body ← listed ";" "Ok(())" statement
  expect "\x7d"
  return ⟨name, context, args, body⟩

/-- What a program imports, and its id. -/
def header : Reader (Bool × Bool × Bool × Text) := do
  expect "use anchor_lang::prelude::*;"
  let usesSystemTransfer ← given "use anchor_lang::system_program::\x7btransfer, Transfer\x7d;"
  let usesAssociatedToken ← given "use anchor_spl::associated_token::AssociatedToken;"
  let usesToken ← given "use anchor_spl::token::\x7bself, Mint, Token, TokenAccount\x7d;"
  expect "declare_id!("
  let programId ← literal
  expect ");"
  return (usesSystemTransfer, usesAssociatedToken, usesToken, programId)

/-- The module of a program: its name and its functions. -/
def module : Reader (Text × List Function) := do
  expect "#[program]"
  expect "pub mod"
  let name ← word
  expect "\x7b"
  expect "use super::*;"
  let functions ← each "pub fn" function
  expect "\x7d"
  return (name, functions)

def source : Reader Source := do
  let (usesSystemTransfer, usesAssociatedToken, usesToken, programId) ← header
  let states ← each "#[account]" stateStruct
  let contexts ← each "#[derive(Accounts)]" contextStruct
  let (module, functions) ← module
  return ⟨usesSystemTransfer, usesAssociatedToken, usesToken, programId, states, contexts, module,
    functions⟩

end Reader

/-- The program that a text is, to its last lexeme. -/
def readSource (s : Text) : Option Source :=
  match Reader.source (lexemes s) with
  | some (program, []) => some program
  | _ => none

end AnchorScript.Rust
