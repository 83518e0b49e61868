import AnchorScript.Handler.Basic
import AnchorScript.Resolution.Program

/-!
# Handlers of resolved instructions

Values become Rust expressions with the operators where they were. Variables that only the handler
needs are named so that they hide no name of the source.
-/

namespace AnchorScript.Handler

structure Frame where
  program : Program
  instruction : ResolvedInstruction

namespace Frame

def refuse (fr : Frame) (kind : Diagnostic.Kind) (pos : SourcePos) (account : Text)
    (message : Text) : Diagnostic :=
  { kind, message, span := .ofPos fr.program.file pos, instruction := fr.instruction.source.name,
    account }

end Frame

/-- Identifiers of the handler with the source names they come from. -/
abbrev Names := List (Text × Text)

def declare (fr : Frame) (names : Names) (name : Text) (pos : SourcePos) :
    Except Diagnostic Names :=
  let id := Rust.ident name
  if id = "ctx" then
    .error (fr.refuse .unsupportedConstruct pos []
      ("'" ++ name ++ "' clashes with the handler context parameter"))
  else match names.lookup id with
    | some previous =>
      if previous = name then .ok names
      else .error (fr.refuse .duplicateDeclaration pos []
        ("'" ++ previous ++ "' and '" ++ name ++ "' both map to '" ++ id ++ "'"))
    | none => .ok ((id, name) :: names)

def declareParams (fr : Frame) (names : Names) : List Param → Except Diagnostic Names
  | [] => .ok names
  | p :: ps => do declareParams fr (← declare fr names p.name p.pos) ps

def declareVariables (fr : Frame) (names : Names) : List Statement → Except Diagnostic Names
  | [] => .ok names
  | .bind pos l :: rest => do declareVariables fr (← declare fr names l.name pos) rest
  | _ :: rest => declareVariables fr names rest

/-- A field of a state account, as it is read. -/
def fieldExpr (fr : Frame) (pos : SourcePos) (account field : Text) :
    Except Diagnostic Rust.Expr :=
  let state? : Option StateType := match fr.instruction.account? account with
    | some ref => (⟨fr.program, fr.instruction.source⟩ : Surroundings).stateOf? ref
    | none => none
  match state? with
  | none => .error (fr.refuse .unresolvedReference pos account
      ("'" ++ account ++ "' is not a state account parameter"))
  | some st =>
    match st.field? field with
    | none => .error (fr.refuse .unresolvedReference pos account
        ("state type '" ++ st.name ++ "' has no field '" ++ field ++ "'"))
    | some f =>
      .ok ((Rust.Expr.contextField (Rust.ident account) (Rust.ident field)).owned f.type.kind)

/-- A value as an expression of the handler, after the variables in `bound`. -/
def exprOf (fr : Frame) (bound : List Text) : Value → Except Diagnostic Rust.Expr
  | .int _ lit => .ok (.int (IntLiteral.rust lit))
  | .bool _ b => .ok (.bool b)
  | .string _ s => .ok (.string s)
  | .arg _ name _ =>
    match (fr.instruction.source.param? name).bind (·.type.value?) with
    | some t => .ok ((Rust.Expr.var (Rust.ident name)).owned t.kind)
    | none => .ok (.var (Rust.ident name))
  | .var pos name _ =>
    if bound.contains name then
      match fr.instruction.locals.lookup name with
      | some t => .ok ((Rust.Expr.var (Rust.ident name)).owned t.kind)
      | none => .ok (.var (Rust.ident name))
    else .error (fr.refuse .unresolvedReference pos []
      ("'" ++ name ++ "' is not declared before use"))
  | .account pos a => .error (fr.refuse .unsupportedConstruct pos a
      ("cannot translate '" ++ a ++ "'"))
  | .key pos a _ =>
    match fr.instruction.account? a with
    | some _ => .ok ((Rust.Expr.contextAccount (Rust.ident a)).call "key")
    | none => .error (fr.refuse .unresolvedReference pos a
        ("'" ++ a ++ "' is not an account parameter"))
  | .field pos a f _ => fieldExpr fr pos a f
  | .bump pos a =>
    if (fr.instruction.account? a).any (·.isProgramDerived) then
      .ok (.contextBump (Rust.ident a))
    else .error (fr.refuse .unresolvedReference pos a ("'" ++ a ++ "' has no derived bump"))
  | .binary _ op l r => do return .binary op (← exprOf fr bound l) (← exprOf fr bound r)
  | .neg _ v => do return .neg (← exprOf fr bound v)
  | .paren _ v => do return .paren (← exprOf fr bound v)

/-- A value borrowed as bytes, if it needs no buffer of its own. -/
def borrowed? (source : Rust.Expr) : ValueKind → Option Rust.Expr
  | .string _ => some (source.call "as_bytes")
  | .pubkey => some (source.call "as_ref")
  | _ => none

/-- An expression that is borrowed as bytes, through a named buffer if it is an integer. `used` are
the names that the buffer must not take. -/
def borrow (used : List Text) (source : Rust.Expr) (base : Text) (t : ValueType) :
    Rust.Expr × Option SeedBuffer :=
  match borrowed? source t.kind with
  | some e => (e, none)
  | none =>
    let name := FreshName.avoid used (base ++ "_bytes")
    ((Rust.Expr.var name).call "as_ref", some ⟨name, source.call "to_le_bytes"⟩)

def bumpExpr : BumpSource → Rust.Expr
  | .ofVar name => .slice (.var (Rust.ident name))
  | .stored ref => .slice (.contextField (Rust.ident ref.account) (Rust.ident ref.field))
  | .computed account => .slice (.contextBump (Rust.ident account))

/-- One signer seed, and the buffer it needs. -/
def signerSeed (used : List Text) : SeedSource → Rust.Expr × Option SeedBuffer
  | .literal s => (.bytes s, none)
  | .accountKey a => (((Rust.Expr.accountInfo (Rust.ident a)).member "key").call "as_ref", none)
  | .bump b => (bumpExpr b, none)
  | .stateField ref t =>
    borrow used (.contextField (Rust.ident ref.account) (Rust.ident ref.field))
      (Rust.ident ref.account ++ "_" ++ Rust.snakeCase ref.field) t
  | .argument name t => borrow used (.var (Rust.ident name)) (Rust.snakeCase name) t

/-- Signer seeds in order; each buffer is named apart from the names in `used` and from the
buffers before it. -/
def signerSeedList (used : List Text) : List Seed → List SeedBuffer × List Rust.Expr
  | [] => ([], [])
  | s :: rest =>
    let (e, buffer) := signerSeed used s.source
    let (buffers, es) := signerSeedList (buffer.toList.map (·.name) ++ used) rest
    (buffer.toList ++ buffers, e :: es)

def calledProgram (i : ResolvedInstruction) (action : CallAction) : Rust.Expr :=
  if action.isSystem then .accountInfo (Rust.ident ProgramAccount.system.name)
  else .accountInfo (Rust.ident (i.tokenProgram.getD []))

/-- The call at this index of the body. Handler names in `names` are never hidden, and buffers are
named apart from those in `generated`. -/
def invocation (fr : Frame) (names : Names) (generated bound : List Text) (index : Nat)
    (c : CrossProgramCall) : Except Diagnostic Invocation := do
  let taken := names.map Prod.fst
  let amount ← exprOf fr bound c.amount
  let signer := c.signerSeeds.map fun _ =>
    let (buffers, seeds) :=
      signerSeedList (generated ++ taken) ((fr.instruction.seedsAt? index).getD [])
    { name := FreshName.avoid taken "signer_seeds", buffers, seeds : SignerSeeds }
  return {
    action := c.action
    program := calledProgram fr.instruction c.action
    accounts := c.action.fields.map fun (n, a) => (n, .accountInfo (Rust.ident a))
    amount
    accountsName := FreshName.avoid taken (c.action.baseName ++ "_accounts")
    contextName := FreshName.avoid taken "cpi_ctx"
    signer }

def rustType : DataType → Text
  | .account r => r.rust
  | .value t => t.kind.rust

def stmtsOf (fr : Frame) (names : Names) (generated bound : List Text) (index : Nat) :
    List Statement → Except Diagnostic (List HandlerStmt)
  | [] => .ok []
  | .assign _ a :: rest => do
    let value ← exprOf fr bound a.value
    let place := Rust.Expr.contextField (Rust.ident a.account) (Rust.ident a.field)
    return .write place value :: (← stmtsOf fr names generated bound (index + 1) rest)
  | .bind _ l :: rest => do
    let value ← exprOf fr bound l.value
    return .bind (Rust.ident l.name) l.isMutable (l.declared.map rustType) value ::
      (← stmtsOf fr names generated (l.name :: bound) (index + 1) rest)
  | .call _ c :: rest => do
    let i ← invocation fr names generated bound index c
    return .invoke i ::
      (← stmtsOf fr names (i.bufferNames ++ generated) bound (index + 1) rest)
  | .derive .. :: rest | .close .. :: rest => stmtsOf fr names generated bound (index + 1) rest

def argsOf (i : Instruction) : List HandlerArg :=
  i.args.map fun p => ⟨Rust.ident p.name, rustType p.type⟩

def ofInstruction (p : Program) (i : ResolvedInstruction) : Except Diagnostic Handler := do
  let fr : Frame := ⟨p, i⟩
  let names ← declareParams fr [] i.source.params
  let names ← declareVariables fr names i.source.body
  return {
    name := Rust.ident i.source.name
    context := Rust.contextName i.source.name
    args := argsOf i.source
    body := ← stmtsOf fr names [] [] 0 i.source.body }

end Handler

def ResolvedProgram.handlers (p : ResolvedProgram) : Except Diagnostic (List Handler) :=
  p.instructions.mapM (Handler.ofInstruction p.source)

def ResolvedProgram.moduleName (p : ResolvedProgram) : Text := Rust.snakeCase p.source.name

end AnchorScript
