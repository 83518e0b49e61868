import AnchorScript.Rust.Crate

/-!
# Printing Rust

Source is printed as lines, four spaces of indentation for each level.
-/

namespace AnchorScript.Rust

structure Line where
  depth : Nat
  text : Text

namespace Line

def top (s : Text) : Line := ⟨0, s⟩

def blank : Line := ⟨0, []⟩

def deeper (l : Line) : Line := ⟨l.depth + 1, l.text⟩

/-- An empty line has no indentation. -/
def render (l : Line) : Text :=
  if l.text.isEmpty then [10]
  else (List.replicate (4 * l.depth) 32) ++ l.text ++ [10]

end Line

def renderLines (ls : List Line) : Text := ls.flatMap Line.render

def enclosed (opening : Text) (inner : List Line) (closing : Text) : List Line :=
  Line.top opening :: inner.map Line.deeper ++ [Line.top closing]

def maxInlineConstraints : Nat := 3

def constraintLines (cs : List Constraint) : List Line :=
  if cs.isEmpty then []
  else if cs.length ≤ maxInlineConstraints then
    [.top ("#[account(" ++ Text.join ", " (cs.map Constraint.text) ++ ")]")]
  else enclosed "#[account(" (cs.map fun c => .top (c.text ++ ",")) ")]"

def fieldLine (name type : Text) : Line := .top ("pub " ++ name ++ ": " ++ type ++ ",")

def StateStruct.lines (s : StateStruct) : List Line :=
  .top "#[account]" ::
    enclosed ("pub struct " ++ s.name ++ " \x7b") (s.fields.map fun f => fieldLine f.name f.type)
      "\x7d"

def ContextField.lines (f : ContextField) : List Line :=
  constraintLines f.constraints ++
    (if f.isUnchecked then [Line.top "/// CHECK: This acc is safe"] else []) ++
    [fieldLine f.name f.type]

def argText (a : HandlerArg) : Text := a.name ++ ": " ++ a.type

def ContextStruct.lines (c : ContextStruct) : List Line :=
  let args : List Line := match c.args with
    | some as => [.top ("#[instruction(" ++ Text.join ", " (as.map argText) ++ ")]")]
    | none => []
  .top "#[derive(Accounts)]" :: args ++
    enclosed ("pub struct " ++ c.name ++ "<'info> \x7b")
      (c.fields.flatMap ContextField.lines) "\x7d"

def letLine (name : Text) (isMutable : Bool) (type : Option Text) (value : Rust.Expr) : Line :=
  let word : Text := if isMutable then "let mut " else "let "
  let annotation : Text := match type with
    | some t => ": " ++ t
    | none => []
  .top (word ++ name ++ annotation ++ " = " ++ value.text ++ ";")

def signerLines (s : SignerSeeds) : List Line :=
  (s.buffers.map fun b => letLine b.name false none b.value) ++
    enclosed ("let " ++ s.name ++ ": &[&[&[u8]]; 1] = &[&[")
      (s.seeds.map fun e => .top (e.text ++ ",")) "]];"

def invocationLines (i : Invocation) : List Line :=
  let accounts : List Line := i.accounts.map fun (n, e) => .top (n ++ ": " ++ e.text ++ ",")
  let constructor : Text :=
    if i.signer.isSome then "CpiContext::new_with_signer" else "CpiContext::new"
  let signerArg : List Line := match i.signer with
    | some s => [.top (s.name ++ ",")]
    | none => []
  enclosed ("let " ++ i.accountsName ++ " = " ++ i.action.structName ++ " \x7b") accounts "\x7d;" ++
    (match i.signer with
      | some s => signerLines s
      | none => []) ++
    enclosed ("let " ++ i.contextName ++ " = " ++ constructor ++ "(")
      ([Line.top (i.program.text ++ ","), Line.top (i.accountsName ++ ",")] ++ signerArg) ");" ++
    [Line.top (i.action.functionName ++ "(" ++ i.contextName ++ ", " ++ i.amount.text ++ ")?;")]

def stmtLines : HandlerStmt → List Line
  | .write place value => [.top (place.text ++ " = " ++ value.text ++ ";")]
  | .bind name isMutable type value => [letLine name isMutable type value]
  | .invoke i => invocationLines i

def handlerLines (h : Handler) : List Line :=
  let params := ("ctx: Context<" ++ h.context ++ ">") :: h.args.map argText
  enclosed ("pub fn " ++ h.name ++ "(" ++ Text.join ", " params ++ ") -> Result<()> \x7b")
    (h.body.flatMap stmtLines ++ [Line.top "Ok(())"]) "\x7d"

def moduleLines (c : Crate) : List Line :=
  .top "#[program]" ::
    enclosed ("pub mod " ++ c.module ++ " \x7b")
      (.top "use super::*;" :: c.handlers.flatMap fun h => .blank :: handlerLines h) "\x7d"

def headerLines (c : Crate) : List Line :=
  [Line.top "use anchor_lang::prelude::*;"] ++
    (if c.usesSystemTransfer then
      [Line.top "use anchor_lang::system_program::\x7btransfer, Transfer\x7d;"] else []) ++
    (if c.usesAssociatedToken then
      [Line.top "use anchor_spl::associated_token::AssociatedToken;"] else []) ++
    (if c.usesToken then
      [Line.top "use anchor_spl::token::\x7bself, Mint, Token, TokenAccount\x7d;"] else []) ++
    [Line.blank, Line.top ("declare_id!(" ++ Text.quoted c.programId ++ ");"), Line.blank]

def Crate.text (c : Crate) : Text :=
  renderLines (headerLines c ++ (c.states.flatMap fun s => s.lines ++ [Line.blank]) ++
    (c.contexts.flatMap fun s => s.lines ++ [Line.blank]) ++ moduleLines c)

end AnchorScript.Rust
