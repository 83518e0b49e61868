import AnchorScript.DataType
import AnchorScript.Token

/-!
# Programs

A program is what its source declares: the state types it keeps on chain and its instructions, each
with parameters and a body of statements that derive, assign, call, bind and close.
-/

namespace AnchorScript

inductive ArithOp where
  | add | sub | mul | div | rem
  deriving DecidableEq

def ArithOp.text : ArithOp → Text
  | add => "+" | sub => "-" | mul => "*" | div => "/" | rem => "%"

/-- An expression in an instruction's body. Where `asBytes` is set, the source asks for the value's
bytes. -/
inductive Value where
  | int (pos : SourcePos) (literal : Text)
  | bool (pos : SourcePos) (value : Bool)
  | string (pos : SourcePos) (value : Text)
  | arg (pos : SourcePos) (name : Text) (asBytes : Bool)
  | var (pos : SourcePos) (name : Text) (asBytes : Bool)
  | account (pos : SourcePos) (name : Text)
  | key (pos : SourcePos) (account : Text) (asBytes : Bool)
  | field (pos : SourcePos) (account field : Text) (asBytes : Bool)
  | bump (pos : SourcePos) (account : Text)
  | binary (pos : SourcePos) (op : ArithOp) (left right : Value)
  | neg (pos : SourcePos) (inner : Value)
  | paren (pos : SourcePos) (inner : Value)
  deriving DecidableEq

namespace Value

def pos : Value → SourcePos
  | int p _ | bool p _ | string p _ | arg p _ _ | var p _ _ | account p _ | key p _ _ => p
  | field p _ _ _ | bump p _ | binary p _ _ _ | neg p _ | paren p _ => p

def text : Value → Text
  | int _ lit => lit
  | bool _ true => "true"
  | bool _ false => "false"
  | string _ s => "'" ++ s ++ "'"
  | arg _ n _ => n
  | var _ n _ => n
  | account _ a => a
  | key _ a _ => a ++ ".key"
  | field _ a f _ => a ++ "." ++ f
  | bump _ a => a ++ ".getBump()"
  | binary _ op l r => l.text ++ " " ++ op.text ++ " " ++ r.text
  | neg _ v => "-" ++ v.text
  | paren _ v => "(" ++ v.text ++ ")"

def isBump : Value → Bool
  | bump .. => true
  | _ => false

end Value

inductive DeriveForm where
  /-- From seeds, with the bump that is found first. -/
  | seeds (seeds : List Value)
  /-- From seeds, for a token account with this mint and authority. -/
  | tokenSeeds (seeds : List Value) (mint authority : Text)
  /-- The associated token account of a mint and an authority. -/
  | associated (mint authority : Text)
  /-- From seeds and a bump stored earlier. -/
  | withBump (seeds : List Value) (bump : Value)

def DeriveForm.seedValues : DeriveForm → List Value
  | seeds s | tokenSeeds s _ _ | withBump s _ => s
  | associated .. => []

def DeriveForm.parties? : DeriveForm → Option (Text × Text)
  | tokenSeeds _ m a | associated m a => some (m, a)
  | seeds _ | withBump .. => none

def DeriveForm.isAssociated : DeriveForm → Bool
  | associated .. => true
  | _ => false

/-- A request to create the account, by a payer the source may leave open. -/
structure InitRequest where
  payer : Option (Text × SourcePos)

structure Derive where
  account : Text
  form : DeriveForm
  init : Option InitRequest

structure Assign where
  account : Text
  field : Text
  value : Value

/-- A value transfer or token operation and the accounts that take part in it. -/
inductive CallAction where
  | systemTransfer (source target : Text)
  | tokenTransfer (source target authority : Text)
  | mintTo (mint target authority : Text)
  | burn (mint source authority : Text)

namespace CallAction

def text : CallAction → Text
  | systemTransfer .. => "SystemProgram.transfer"
  | tokenTransfer .. => "TokenProgram.transfer"
  | mintTo .. => "TokenProgram.mintTo"
  | burn .. => "TokenProgram.burn"

def signer : CallAction → Text
  | systemTransfer s _ => s
  | tokenTransfer _ _ a | mintTo _ _ a | burn _ _ a => a

def isSystem : CallAction → Bool
  | systemTransfer .. => true
  | _ => false

end CallAction

structure CrossProgramCall where
  action : CallAction
  amount : Value
  signerSeeds : Option (List Value)

def CrossProgramCall.signer (c : CrossProgramCall) : Text := c.action.signer

structure LocalBinding where
  name : Text
  isMutable : Bool
  declared : Option DataType
  value : Value

structure CloseAccount where
  account : Text
  destination : Text

inductive Statement where
  | derive (pos : SourcePos) (d : Derive)
  | assign (pos : SourcePos) (a : Assign)
  | call (pos : SourcePos) (c : CrossProgramCall)
  | bind (pos : SourcePos) (l : LocalBinding)
  | close (pos : SourcePos) (c : CloseAccount)

def Statement.pos : Statement → SourcePos
  | derive p _ | assign p _ | call p _ | bind p _ | close p _ => p

structure StateField where
  name : Text
  type : ValueType
  pos : SourcePos

structure StateType where
  name : Text
  fields : List StateField
  pos : SourcePos

namespace StateType

def field? (s : StateType) (name : Text) : Option StateField := s.fields.find? (·.name = name)

def discriminatorSize : Nat := 8

/-- Bytes that hold any value of the type. -/
def byteSize (s : StateType) : Nat :=
  discriminatorSize + s.fields.foldr (fun f size => f.type.kind.byteSize + size) 0

/-- Bytes that every account of the type has. -/
def minSize (s : StateType) : Nat :=
  discriminatorSize + s.fields.foldr (fun f size => f.type.kind.minSize + size) 0

/-- The allocation of an account, computed in 64-bit words. -/
def space (s : StateType) : Int := signedWord s.byteSize

end StateType

structure Param where
  name : Text
  type : DataType
  pos : SourcePos

structure Instruction where
  name : Text
  params : List Param
  body : List Statement
  returns : Option Text
  pos : SourcePos

namespace Instruction

def param? (i : Instruction) (name : Text) : Option Param := i.params.find? (·.name = name)

def accounts (i : Instruction) : List Param := i.params.filter (·.type.isAccount)

def args (i : Instruction) : List Param := i.params.filter (!·.type.isAccount)

end Instruction

structure Program where
  file : Text
  name : Text
  programId : Text
  instructions : List Instruction
  states : List StateType

def Program.state? (p : Program) (name : Text) : Option StateType := p.states.find? (·.name = name)

end AnchorScript
