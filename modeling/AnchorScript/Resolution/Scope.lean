import AnchorScript.Resolution.Account
import AnchorScript.Diagnostic
import AnchorScript.IntLiteral

/-!
# Scopes

While the statements of an instruction are resolved in order, the scope holds what is known so far:
the account records, the variables with their types and constant values, and the state fields
written. The surroundings of the instruction do not change.

A value has a type where everything it reads is known and every operator finds operands of one
integer type. A number literal takes its type from its surroundings. Constant values are folded, so
that no constant exceeds the type it is used at and no division is by the constant zero.
-/

namespace AnchorScript

/-- An instruction and the program it belongs to. -/
structure Surroundings where
  program : Program
  instruction : Instruction

namespace Surroundings

def refuse (env : Surroundings) (kind : Diagnostic.Kind) (pos : SourcePos) (account : Text)
    (message : Text) : Diagnostic :=
  { kind, message, span := .ofPos env.program.file pos, instruction := env.instruction.name,
    account }

/-- The derivation of an account anywhere in the body. -/
def derivation? (env : Surroundings) (account : Text) : Option Derive :=
  env.instruction.body.findSome? fun
    | .derive _ d => if d.account = account then some d else none
    | _ => none

/-- The instruction creates the account, in whichever statement. -/
def initializes (env : Surroundings) (account : Text) : Bool :=
  (env.derivation? account).any (·.init.isSome)

end Surroundings

structure Scope where
  accounts : List AccountRef
  locals : List (Text × ValueType) := []
  /-- Variables without a declared type that are bound to constants. -/
  constants : List (Text × Int) := []
  written : List FieldRef := []
  /-- A seed of an account's address reads an argument. -/
  hasArgSeeds : Bool := false
  /-- Signer seeds by the index of the call's statement. -/
  signerSeeds : List (Nat × List Seed) := []

namespace Scope

def account? (sc : Scope) (name : Text) : Option AccountRef := sc.accounts.find? (·.name = name)

def varType? (sc : Scope) (name : Text) : Option ValueType := sc.locals.lookup name

def constant? (sc : Scope) (name : Text) : Option Int := sc.constants.lookup name

def update (sc : Scope) (name : Text) (f : AccountRef → AccountRef) : Scope :=
  { sc with accounts := sc.accounts.map fun a => if a.name = name then f a else a }

def markMutable (sc : Scope) (name : Text) : Scope :=
  sc.update name fun a => { a with isMutable := true }

def initial (i : Instruction) : Scope :=
  { accounts := i.params.filterMap fun p => match p.type with
      | .account role => some { name := p.name, role, pos := p.pos }
      | .value _ => none }

end Scope

def Surroundings.stateOf? (env : Surroundings) (a : AccountRef) : Option StateType :=
  match a.role with
  | .state n => env.program.state? n
  | _ => none

def Scope.stateField (sc : Scope) (env : Surroundings) (account field : Text) (pos : SourcePos) :
    Except Diagnostic StateField :=
  let refused (message : Text) : Except Diagnostic StateField :=
    .error ((env.refuse .unresolvedReference pos account message).withField field)
  match sc.account? account with
  | none => refused ("'" ++ account ++ "' is not an account parameter of '" ++
      env.instruction.name ++ "'")
  | some ref =>
    match env.stateOf? ref with
    | none => refused ("account '" ++ account ++ "' (" ++ ref.role.typeName ++
        ") has no state field '" ++ field ++ "'")
    | some st =>
      match st.field? field with
      | none => refused ("state type '" ++ st.name ++ "' has no field '" ++ field ++ "'")
      | some f => .ok f

def ArithOp.fold : ArithOp → Int → Int → Option Int
  | add, l, r => some (l + r)
  | sub, l, r => some (l - r)
  | mul, l, r => some (l * r)
  | div, l, r => if r = 0 then none else some (l.tdiv r)
  | rem, l, r => if r = 0 then none else some (l.tmod r)

def ArithOp.isDivision : ArithOp → Bool
  | div | rem => true
  | _ => false

namespace Scope

/-- The value of a constant expression: literals and variables bound to constants. -/
def constValue (sc : Scope) : Value → Option Int
  | .int _ lit => (IntLiteral.value? lit).map Int.ofNat
  | .var _ name _ => sc.constant? name
  | .paren _ v => sc.constValue v
  | .neg _ v => (sc.constValue v).map (- ·)
  | .binary _ op l r =>
    match sc.constValue l, sc.constValue r with
    | some x, some y => op.fold x y
    | _, _ => none
  | _ => none

/-- A bump can be read once the account is derived from seeds. -/
def checkBump (sc : Scope) (env : Surroundings) (pos : SourcePos) (account : Text) :
    Except Diagnostic PUnit :=
  match sc.account? account with
  | none => .error (env.refuse .unresolvedReference pos account
      ("'" ++ account ++ "' is not an account parameter"))
  | some ref =>
    if ref.isProgramDerived then .ok ⟨⟩
    else .error (env.refuse .unresolvedReference pos account
      (account ++ ".getBump() is used before '" ++ account ++ "' is derived"))

/-- A field of a state account, readable if the account is not being created or the field is
already written. -/
def fieldType (sc : Scope) (env : Surroundings) (pos : SourcePos) (account field : Text) :
    Except Diagnostic ValueType := do
  let f ← sc.stateField env account field pos
  if env.initializes account && !sc.written.contains ⟨account, field⟩ then
    .error ((env.refuse .unresolvedReference pos account ("field '" ++ account ++ "." ++ field ++
      "' is read before it is written in the instruction that initialises '" ++ account ++
      "'")).withField field)
  else return f.type

/-- The common type of two operands: a literal takes the type of the other. -/
def operandType (env : Surroundings) (pos : SourcePos) (about : Text) (op : ArithOp)
    (l r : ValueType) : Except Diagnostic ValueType :=
  if !l.kind.isInt || !r.kind.isInt then
    .error (env.refuse .typeMismatch pos about ("operator '" ++ op.text ++
      "' needs integers, found " ++ l.name ++ " and " ++ r.name))
  else if l = .intLiteral then .ok r
  else if r = .intLiteral || l = r then .ok l
  else .error (env.refuse .typeMismatch pos about ("operator '" ++ op.text ++ "' mixes " ++
    l.name ++ " and " ++ r.name))

def isNegatable (t : ValueType) : Bool :=
  match t.kind with
  | .int i => i.signed || t = .intLiteral
  | _ => false

def bytesMisplaced (env : Surroundings) (pos : SourcePos) (about : Text) : Diagnostic :=
  env.refuse .unsupportedConstruct pos about "toBytes() is only valid inside a seed list"

/-- The type of a value; `about` is the account it is reported with. -/
def typeOf (sc : Scope) (env : Surroundings) (about : Text) : Value → Except Diagnostic ValueType
  | .int .. => .ok .intLiteral
  | .bool .. => .ok ⟨"boolean", .bool⟩
  | .string .. => .ok ⟨"string", .string 0⟩
  | .arg pos name asBytes =>
    if asBytes then .error (bytesMisplaced env pos about)
    else match (env.instruction.param? name).bind (·.type.value?) with
      | some t => .ok t
      | none => .error (env.refuse .unsupportedConstruct pos about
          ("unsupported value '" ++ name ++ "'"))
  | .var pos name asBytes =>
    if asBytes then .error (bytesMisplaced env pos about)
    else match sc.varType? name with
      | some t => .ok t
      | none => .error (env.refuse .unresolvedReference pos about
          ("'" ++ name ++ "' is not declared before use"))
  | .account pos a => .error (env.refuse .typeMismatch pos a
      ("account '" ++ a ++ "' used as a value; use " ++ a ++ ".key for its address"))
  | .key pos a asBytes =>
    if asBytes then .error (bytesMisplaced env pos about)
    else match sc.account? a with
      | some _ => .ok .pubkey
      | none => .error (env.refuse .unresolvedReference pos a
          ("'" ++ a ++ "' is not an account parameter"))
  | .field pos a f asBytes =>
    if asBytes then .error (bytesMisplaced env pos about)
    else sc.fieldType env pos a f
  | .bump pos a => do
    sc.checkBump env pos a
    return .u8
  | .paren _ v => sc.typeOf env about v
  | .neg pos v => do
    let t ← sc.typeOf env about v
    if isNegatable t then return t
    else .error (env.refuse .typeMismatch pos about ("cannot negate " ++ t.name))
  | .binary pos op l r => do
    let lt ← sc.typeOf env about l
    let rt ← sc.typeOf env about r
    operandType env pos about op lt rt

/-- The constant value, if there is one, is in the range of `t`. -/
def checkRange (sc : Scope) (env : Surroundings) (t : IntType) (about : Text) (v : Value) :
    Except Diagnostic PUnit :=
  match sc.constValue v with
  | some n =>
    if t.fits n then .ok ⟨⟩
    else .error (env.refuse .typeMismatch v.pos about
      (Text.ofInt n ++ " is out of range for " ++ t.name))
  | none => .ok ⟨⟩

/-- An integer expression computed in type `t`: nothing unsigned is negated, no division is by the
constant zero, and every constant part is in range. -/
def checkIntExpr (sc : Scope) (env : Surroundings) (t : IntType) (about : Text) :
    Value → Except Diagnostic PUnit
  | .paren _ v => sc.checkIntExpr env t about v
  | .neg pos v =>
    if t.signed then do
      sc.checkIntExpr env t about v
      sc.checkRange env t about (.neg pos v)
    else .error (env.refuse .typeMismatch pos about
      ("cannot negate " ++ t.name ++ " value " ++ v.text))
  | .binary pos op l r => do
    sc.checkIntExpr env t about l
    sc.checkIntExpr env t about r
    if op.isDivision && sc.constValue r = some 0 then
      .error (env.refuse .typeMismatch pos about
        ("division by zero in '" ++ (Value.binary pos op l r).text ++ "'"))
    else sc.checkRange env t about (.binary pos op l r)
  | v => sc.checkRange env t about v

/-- The check of an expression used at type `t`, which concerns integers only. -/
def checkInt (sc : Scope) (env : Surroundings) (t : ValueType) (about : Text) (v : Value) :
    Except Diagnostic PUnit :=
  match t.kind with
  | .int i => if t = .intLiteral then .ok ⟨⟩ else sc.checkIntExpr env i about v
  | _ => .ok ⟨⟩

end Scope

/-- A value of type `source` can be stored as `target`: equal kinds, and integers of one type or a
literal. -/
def ValueType.accepts (target source : ValueType) : Bool :=
  match target.kind, source.kind with
  | .int t, .int s => source = .intLiteral || t = s
  | t, s => t.assignableFrom s

end AnchorScript
