import AnchorScript.Text.Basic
import AnchorScript.Rust.Expr

/-!
# Handlers

A handler is the function that carries out an instruction: its arguments and the statements left of
its body once addresses and closings are account constraints.

For a fresh name, a name that is taken is numbered from two on, and the first name that is free is
used. Among one more candidates than there are taken names one is free.
-/

namespace AnchorScript

namespace FreshName

/-- The name itself, and then the name with the numbers from two on. -/
def candidate (base : Text) : Nat → Text
  | 0 => base
  | n + 1 => base ++ Text.ofNat (n + 2)

/-- The first candidate from the `i`-th on that is free, out of `tries`. -/
def search (taken : List Text) (base : Text) : (tries i : Nat) → Text
  | 0, i => candidate base i
  | tries + 1, i =>
    if taken.contains (candidate base i) then search taken base tries (i + 1)
    else candidate base i

def avoid (taken : List Text) (base : Text) : Text := search taken base taken.length 0

end FreshName

/-- A byte buffer under a name, for a seed to borrow from. -/
structure SeedBuffer where
  name : Text
  value : Rust.Expr

/-- The seeds a call signs with, and the variables they need. -/
structure SignerSeeds where
  name : Text
  buffers : List SeedBuffer
  seeds : List Rust.Expr

/-- A call of another program, through an accounts struct and a call context. -/
structure Invocation where
  action : CallAction
  program : Rust.Expr
  accounts : List (Text × Rust.Expr)
  amount : Rust.Expr
  accountsName : Text
  contextName : Text
  signer : Option SignerSeeds

def Invocation.bufferNames (i : Invocation) : List Text :=
  match i.signer with
  | some s => s.buffers.map (·.name)
  | none => []

inductive HandlerStmt where
  | write (place value : Rust.Expr)
  | bind (name : Text) (isMutable : Bool) (type : Option Text) (value : Rust.Expr)
  | invoke (i : Invocation)

structure HandlerArg where
  name : Text
  type : Text

structure Handler where
  name : Text
  context : Text
  args : List HandlerArg
  body : List HandlerStmt

namespace CallAction

def structName : CallAction → Text
  | systemTransfer .. => "Transfer"
  | tokenTransfer .. => "token::Transfer"
  | mintTo .. => "token::MintTo"
  | burn .. => "token::Burn"

def functionName : CallAction → Text
  | systemTransfer .. => "transfer"
  | tokenTransfer .. => "token::transfer"
  | mintTo .. => "token::mint_to"
  | burn .. => "token::burn"

def baseName : CallAction → Text
  | systemTransfer .. | tokenTransfer .. => "transfer"
  | mintTo .. => "mint_to"
  | burn .. => "burn"

def fields : CallAction → List (Text × Text)
  | systemTransfer s t => [("from", s), ("to", t)]
  | tokenTransfer s t a => [("from", s), ("to", t), ("authority", a)]
  | mintTo m t a => [("mint", m), ("to", t), ("authority", a)]
  | burn m s a => [("mint", m), ("from", s), ("authority", a)]

end CallAction

end AnchorScript
