import AnchorScript.Rust.Expr
import AnchorScript.Resolution.Account
import AnchorScript.Handler.OfInstruction

/-!
# The Rust source of a program

State structs, one context struct for each instruction, and the module of handlers. The attribute of
an account in a context struct says what must hold of the account: how it is created, that it is
written, how its address is derived, whose token account it is and where its value goes when it is
closed.
-/

namespace AnchorScript.Rust

/-- Names in constraints are identifiers of the context struct. -/
inductive Constraint where
  | init
  | mutable
  | payer (account : Text)
  | space (bytes : Int)
  | seeds (seeds : List Expr)
  | bump (stored : Option Expr)
  | mint (associated : Bool) (account : Text)
  | authority (associated : Bool) (account : Text)
  | close (account : Text)

namespace Constraint

def tokenPrefix (associated : Bool) : Text := if associated then "associated_token" else "token"

def text : Constraint → Text
  | init => "init"
  | mutable => "mut"
  | payer a => "payer = " ++ a
  | space n => "space = " ++ Text.ofInt n
  | seeds es => "seeds = [" ++ Text.join ", " (es.map Expr.text) ++ "]"
  | bump none => "bump"
  | bump (some e) => "bump = " ++ e.text
  | mint assoc a => tokenPrefix assoc ++ "::mint = " ++ a
  | authority assoc a => tokenPrefix assoc ++ "::authority = " ++ a
  | close a => "close = " ++ a

/-- A value read as bytes where accounts and arguments are in scope by name. -/
def bytesOf (e : Expr) : ValueKind → Expr
  | .string _ => e.call "as_bytes"
  | .pubkey => e.call "as_ref"
  | _ => (e.call "to_le_bytes").call "as_ref"

/-- A seed in a constraint. Bumps stand in signer seeds only. -/
def seedExpr : SeedSource → Expr
  | .literal s => .bytes s
  | .accountKey a => ((Expr.var (ident a)).call "key").call "as_ref"
  | .stateField ref t => bytesOf ((Expr.var (ident ref.account)).member (ident ref.field)) t.kind
  | .argument n t => bytesOf (.var (ident n)) t.kind
  | .bump _ => bytesOf (.var []) (.int ⟨.w8, false⟩)

def ofInit (i : Initialization) : List Constraint :=
  [Constraint.init, Constraint.payer (ident i.payer)] ++ (i.space.map Constraint.space).toList

def ofAddress : AddressSource → List Constraint
  | .found ss => [.seeds (ss.map (seedExpr ·.source)), .bump none]
  | .stored ss ref =>
    [.seeds (ss.map (seedExpr ·.source)),
      .bump (some ((Expr.var (ident ref.account)).member (ident ref.field)))]
  | .given | .associated => []

/-- The constraints of an account, in the order they are written. -/
def ofAccount (a : AccountRef) : List Constraint :=
  let creation : List Constraint := match a.init with
    | some i => ofInit i
    | none => if a.isMutable then [.mutable] else []
  let token : List Constraint := match a.token with
    | some t => [.mint a.address.isAssociated (ident t.mint),
        .authority a.address.isAssociated (ident t.authority)]
    | none => []
  creation ++ ofAddress a.address ++ token ++ (a.closeTo.map fun d => Constraint.close (ident d)).toList

end Constraint

/-- A field of a struct: an identifier and a type. -/
structure StructField where
  name : Text
  type : Text

structure StateStruct where
  name : Text
  fields : List StructField

structure ContextField where
  constraints : List Constraint
  /-- The framework asks for a safety remark on the account. -/
  isUnchecked : Bool
  name : Text
  type : Text

structure ContextStruct where
  name : Text
  /-- Arguments that constraints read. -/
  args : Option (List HandlerArg)
  fields : List ContextField

structure Crate where
  usesSystemTransfer : Bool
  usesAssociatedToken : Bool
  usesToken : Bool
  programId : Text
  states : List StateStruct
  contexts : List ContextStruct
  module : Text
  handlers : List Handler

def StateStruct.ofState (s : StateType) : StateStruct :=
  { name := s.name
    fields := s.fields.map fun f => ⟨ident f.name, f.type.kind.rust⟩ }

def ContextField.ofAccount (a : AccountRef) : ContextField :=
  { constraints := Constraint.ofAccount a
    isUnchecked := a.role = .unchecked
    name := ident a.name
    type := a.role.rust }

def ContextField.ofProgram (p : ProgramAccount) : ContextField :=
  { constraints := [], isUnchecked := false, name := p.name, type := p.rust }

def ContextStruct.ofInstruction (i : ResolvedInstruction) : ContextStruct :=
  { name := contextName i.source.name
    args := if i.hasArgSeeds then some (Handler.argsOf i.source) else none
    fields := i.accounts.map ContextField.ofAccount ++ i.programs.map ContextField.ofProgram }

def Crate.ofProgram (p : ResolvedProgram) (handlers : List Handler) : Crate :=
  { usesSystemTransfer := p.usesSystemTransfer
    usesAssociatedToken := p.usesAssociatedToken
    usesToken := p.usesToken
    programId := p.source.programId
    states := p.source.states.map StateStruct.ofState
    contexts := p.instructions.map ContextStruct.ofInstruction
    module := p.moduleName
    handlers }

end AnchorScript.Rust
