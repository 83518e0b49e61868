import AnchorScript.Program.Basic
import AnchorScript.Syntax.Printer
import AnchorScript.Diagnostic
import AnchorScript.IntLiteral

/-!
# Instruction bodies

The statements of a method read as the statements of an instruction. Names that are parameters are
told apart here; every other name is a variable, looked up later in source order.
-/

namespace AnchorScript.Program

/-- Where a body stands: its file and instruction, the parameters in scope, and the reservation of
strings without a length of their own. -/
structure BodyContext where
  file : Text
  instruction : Text
  params : List Param
  stringMaxLen : Nat

namespace BodyContext

/-- A diagnostic about the instruction and, where one is concerned, an account of it. -/
def refuse (c : BodyContext) (kind : Diagnostic.Kind) (pos : SourcePos) (message : Text)
    (account : Text := []) : Diagnostic :=
  { kind, message, span := .ofPos c.file pos, instruction := c.instruction, account }

def unsupported (c : BodyContext) (pos : SourcePos) (message : Text) (account : Text := []) :
    Diagnostic :=
  c.refuse .unsupportedConstruct pos message account

def param? (c : BodyContext) (name : Text) : Option Param := c.params.find? (·.name = name)

end BodyContext

def arithOp? : Syntax.BinaryOp → Option ArithOp
  | .add => some .add
  | .sub => some .sub
  | .mul => some .mul
  | .div => some .div
  | .rem => some .rem
  | _ => none

/-- The value asked for as bytes, where that has a meaning. -/
def bytesOf? : Value → Option Value
  | .arg p n _ => some (.arg p n true)
  | .var p n _ => some (.var p n true)
  | .field p a f _ => some (.field p a f true)
  | .key p a _ => some (.key p a true)
  | _ => none

def nameValue (c : BodyContext) (pos : SourcePos) (id : Text) : Value :=
  match c.param? id with
  | some p => if p.type.isAccount then .account pos id else .arg pos id false
  | none => .var pos id false

def memberValue (c : BodyContext) (e : Syntax.Expr) : Except Diagnostic Value :=
  match e.path? with
  | some [account, field] =>
    if field = "key" then .ok (.key e.pos account false)
    else .ok (.field e.pos account field false)
  | _ => .error (c.unsupported e.pos ("unsupported member access '" ++ e.text ++ "'"))

def unsupportedCall (c : BodyContext) (e : Syntax.Expr) : Diagnostic :=
  c.unsupported e.pos ("unsupported call '" ++ e.text ++ "' in expression")

def valueOf (c : BodyContext) : Syntax.Expr → Except Diagnostic Value
  | .number pos lit =>
    if IntLiteral.isValid lit then .ok (.int pos lit)
    else .error (c.unsupported pos ("unsupported numeric literal '" ++ lit ++ "'"))
  | .string pos s => .ok (.string pos s)
  | .bool pos b => .ok (.bool pos b)
  | .name pos id => .ok (nameValue c pos id)
  | .member object pos field => memberValue c (.member object pos field)
  | .call (.member object pos method) [] =>
    let whole := Syntax.Expr.call (.member object pos method) []
    if method = "getBump" then
      match object with
      | .name _ account => .ok (.bump pos account)
      | _ => .error (unsupportedCall c whole)
    else if method = "toBytes" then do
      match bytesOf? (← valueOf c object) with
      | some v => .ok v
      | none => .error (unsupportedCall c whole)
    else .error (unsupportedCall c whole)
  | .call callee args => .error (unsupportedCall c (.call callee args))
  | .paren pos inner => do return .paren pos (← valueOf c inner)
  | .unary pos .neg operand => do return .neg pos (← valueOf c operand)
  | .unary pos op _ => .error (c.unsupported pos ("unsupported operator '" ++ op.text ++ "'"))
  | .binary op left right =>
    match arithOp? op with
    | none => .error (c.unsupported left.pos ("unsupported operator '" ++ op.text ++ "'"))
    | some arith => do
      let l ← valueOf c left
      let r ← valueOf c right
      return .binary left.pos arith l r
  | e => .error (c.unsupported e.pos ("unsupported expression '" ++ e.text ++ "'"))

def accountName? (e : Syntax.Expr) : Option Text :=
  match e.path? with
  | some [a] => some a
  | some [a, f] => if f = "key" then some a else none
  | _ => none

def seedValues (c : BodyContext) (elems : List Syntax.Expr) : Except Diagnostic (List Value) :=
  elems.mapM (valueOf c)

def tokenParties (c : BodyContext) (account : Text) (mint authority : Syntax.Expr) :
    Except Diagnostic (Text × Text) :=
  match accountName? mint with
  | none => .error (c.unsupported mint.pos
      ("token mint '" ++ mint.text ++ "' must be an account name") account)
  | some m =>
    match accountName? authority with
    | none => .error (c.unsupported authority.pos
        ("token authority '" ++ authority.text ++ "' must be an account") account)
    | some a => .ok (m, a)

def deriveForm (c : BodyContext) (pos : SourcePos) (account : Text) :
    List Syntax.Expr → Except Diagnostic DeriveForm
  | .array _ elems :: rest => do
    let seeds ← seedValues c elems
    match rest with
    | [] => return .seeds seeds
    | [mint, authority] =>
      let (m, a) ← tokenParties c account mint authority
      return .tokenSeeds seeds m a
    | _ =>
      .error (c.unsupported pos "derive expects ([seeds]) or ([seeds], mint, authority)" account)
  | [mint, authority] => do
    let (m, a) ← tokenParties c account mint authority
    return .associated m a
  | _ => .error (c.unsupported pos "derive expects a seed array" account)

def bumpForm (c : BodyContext) (pos : SourcePos) (account : Text) :
    List Syntax.Expr → Except Diagnostic DeriveForm
  | [.array _ elems, bump] => do
    let seeds ← seedValues c elems
    return .withBump seeds (← valueOf c bump)
  | _ => .error
      (c.unsupported pos "deriveWithBump expects ([seeds], <state>.<bumpField>)" account)

def isDeriveMethod (method : Text) : Bool := method = "derive" || method = "deriveWithBump"

def deriveCall (c : BodyContext) (object : Syntax.Expr) (pos : SourcePos) (method : Text)
    (args : List Syntax.Expr) : Except Diagnostic Derive :=
  match object with
  | .name _ account => do
    let form ← if method = "derive" then deriveForm c pos account args
      else bumpForm c pos account args
    return { account, form, init := none }
  | _ => .error (c.unsupported pos "derive must be called on an account parameter")

def initRequest (c : BodyContext) (pos : SourcePos) (account : Text) :
    List Syntax.Expr → Except Diagnostic InitRequest
  | [] => .ok ⟨none⟩
  | [e] =>
    match accountName? e with
    | some name => .ok ⟨some (name, e.pos)⟩
    | none => .error (c.refuse .invalidPayer e.pos
        ("payer '" ++ e.text ++ "' must be an account name") account)
  | _ => .error (c.unsupported pos ".init() takes at most one payer argument")

/-- The cross-program calls, by receiver and method, as the name they are reported by and the way
their accounts take part. -/
inductive CallKind where
  | systemTransfer | tokenTransfer | mintTo | burn

namespace CallKind

def ofNames? (object method : Text) : Option CallKind :=
  if object = "SystemProgram" && method = "transfer" then some systemTransfer
  else if object = "TokenProgram" && method = "transfer" then some tokenTransfer
  else if object = "TokenProgram" && method = "mintTo" then some mintTo
  else if object = "TokenProgram" && method = "burn" then some burn
  else none

def parties : CallKind → Nat
  | systemTransfer => 2
  | _ => 3

def action (k : CallKind) (a b c : Text) : CallAction :=
  match k with
  | systemTransfer => .systemTransfer a b
  | tokenTransfer => .tokenTransfer a b c
  | mintTo => .mintTo a b c
  | burn => .burn a b c

def text (k : CallKind) : Text := (k.action [] [] []).text

end CallKind

def partyNames (c : BodyContext) (k : CallKind) (i : Nat) :
    List Syntax.Expr → Except Diagnostic (List Text)
  | [] => .ok []
  | e :: es =>
    match accountName? e with
    | none => .error (c.unsupported e.pos (k.text ++ " argument " ++ Text.ofNat i ++
        " must be an account name, got '" ++ e.text ++ "'"))
    | some name => do return name :: (← partyNames c k (i + 1) es)

def signerSeeds (c : BodyContext) (k : CallKind) (signer : Text) :
    List Syntax.Expr → Except Diagnostic (Option (List Value))
  | [] => .ok none
  | .array _ elems :: _ => do return some (← seedValues c elems)
  | e :: _ => .error (c.refuse .invalidSignerSeeds e.pos
      ("signer seeds of " ++ k.text ++ " must be an array literal") signer)

def crossProgramCall (c : BodyContext) (pos : SourcePos) (k : CallKind)
    (args : List Syntax.Expr) : Except Diagnostic CrossProgramCall := do
  match args.drop k.parties with
  | [amount] | [amount, _] =>
    let names ← partyNames c k 1 (args.take k.parties)
    let amount ← valueOf c amount
    let action := k.action (names.getD 0 []) (names.getD 1 []) (names.getD 2 [])
    let seeds ← signerSeeds c k action.signer (args.drop (k.parties + 1))
    return { action, amount, signerSeeds := seeds }
  | _ => .error (c.unsupported pos (k.text ++ " expects " ++ Text.ofNat k.parties ++
      " accounts, an amount and optional signer seeds"))

def closeCall (c : BodyContext) (pos : SourcePos) (account : Text) :
    List Syntax.Expr → Except Diagnostic CloseAccount
  | [e] =>
    match accountName? e with
    | some destination => .ok { account, destination }
    | none => .error (c.unsupported e.pos "close destination must be an account name")
  | _ => .error (c.unsupported pos "close expects exactly one destination account")

def initCall (c : BodyContext) (pos : SourcePos) (object : Syntax.Expr) (args : List Syntax.Expr) :
    Except Diagnostic Statement :=
  match object with
  | .call (.member inner p method) deriveArgs =>
    if isDeriveMethod method then do
      let d ← deriveCall c inner p method deriveArgs
      let request ← initRequest c pos d.account args
      return .derive p { d with init := some request }
    else .error (c.unsupported pos ".init() must follow derive(...)")
  | _ => .error (c.unsupported pos ".init() must follow derive(...)")

def callStatement (c : BodyContext) (callee : Syntax.Expr) (args : List Syntax.Expr) :
    Except Diagnostic Statement :=
  match callee with
  | .member object pos method =>
    if method = "init" then initCall c pos object args
    else
      let refused : Except Diagnostic Statement :=
        .error (c.unsupported pos ("unsupported call '" ++ callee.text ++ "'"))
      match object with
      | .name _ id =>
        match CallKind.ofNames? id method with
        | some k => do return .call pos (← crossProgramCall c pos k args)
        | none =>
          if id = "TokenProgram" then refused
          else if isDeriveMethod method then do
            return .derive pos (← deriveCall c object pos method args)
          else if method = "close" then do return .close pos (← closeCall c pos id args)
          else refused
      | _ => refused
  | _ => .error (c.unsupported callee.pos
      ("unsupported call '" ++ (Syntax.Expr.call callee args).text ++ "'"))

def assignStatement (c : BodyContext) (pos : SourcePos) (target value : Syntax.Expr) :
    Except Diagnostic Statement :=
  match target.path? with
  | some [account, field] => do
    return .assign pos { account, field, value := ← valueOf c value }
  | _ => .error (c.unsupported pos
      ("assignment target '" ++ target.text ++ "' must be <account>.<field>"))

def declaredType (c : BodyContext) (name : Text) :
    Option Syntax.TypeRef → Except Diagnostic (Option DataType)
  | none => .ok none
  | some t =>
    match DataType.lookup? t.name t.arg (fun _ => false) c.stringMaxLen with
    | some type => .ok (some type)
    | none => .error (c.refuse .unknownType t.pos
        ("unknown type '" ++ t.text ++ "' for local '" ++ name ++ "'"))

/-- A declaration of a variable, after those in `declared`. -/
def bindStatement (c : BodyContext) (declared : List Text) (pos : SourcePos)
    (kind : Syntax.BindingKind) (name : Text) (type : Option Syntax.TypeRef)
    (value : Syntax.Expr) : Except Diagnostic Statement :=
  if (c.param? name).isSome || declared.contains name then
    .error (c.refuse .duplicateDeclaration pos ("'" ++ name ++ "' is already declared"))
  else do
    let value ← valueOf c value
    let declared ← declaredType c name type
    return .bind pos { name, isMutable := kind = .letting, declared, value }

/-- The statements of a body, after the variables in `declared`. Only the last statement may
return, and it returns nothing. -/
def bodyOf (c : BodyContext) (declared : List Text) :
    List Syntax.Statement → Except Diagnostic (List Statement)
  | [] => .ok []
  | .ret pos value :: rest =>
    if value.isSome || !rest.isEmpty then
      .error (c.unsupported pos "only a bare trailing 'return' is supported")
    else .ok []
  | .binding pos kind name type value :: rest => do
    let s ← bindStatement c declared pos kind name type value
    return s :: (← bodyOf c (name :: declared) rest)
  | .expr pos (.assign target value) :: rest => do
    let s ← assignStatement c pos target value
    return s :: (← bodyOf c declared rest)
  | .expr _ (.call callee args) :: rest => do
    let s ← callStatement c callee args
    return s :: (← bodyOf c declared rest)
  | .expr pos e :: _ =>
    .error (c.unsupported pos ("expression '" ++ e.text ++ "' has no effect"))

end AnchorScript.Program
