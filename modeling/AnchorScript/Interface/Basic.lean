import AnchorScript.Json

/-!
# Interface descriptions

What clients of a program need to know: its instructions with their accounts and arguments, and the
layout of its accounts.
-/

namespace AnchorScript.Interface

/-- What a client puts in for one seed. -/
inductive SeedSpec where
  | const (bytes : Text)
  | account (path : Text)
  | arg (path : Text)

/-- How a client finds an address. The program is given if it is another than the one described. -/
structure AddressSpec where
  seeds : List SeedSpec
  program : Option SeedSpec

structure AccountSpec where
  name : Text
  isWritable : Bool
  isSigner : Bool
  address : Option Text
  derivation : Option AddressSpec

structure FieldSpec where
  name : Text
  type : Text

structure InstructionSpec where
  name : Text
  discriminator : Text
  accounts : List AccountSpec
  args : List FieldSpec

/-- A kind of account: its discriminator and its fields. -/
structure StateSpec where
  name : Text
  discriminator : Text
  fields : List FieldSpec

structure Description where
  address : Text
  name : Text
  instructions : List InstructionSpec
  states : List StateSpec

def bytesJson (s : Text) : Json := .array (s.map fun b => .number b.toNat)

abbrev Members := List (Text × Json)

def member (key : Text) (value : Json) : Members := [(key, value)]

/-- A member that a document leaves out where it says nothing. -/
def optional (key : Text) : Option Json → Members
  | some v => member key v
  | none => []

def flag (key : Text) (b : Bool) : Members := if b then member key (.bool true) else []

/-- A list that a document leaves out where it is empty. -/
def nonempty (key : Text) (elems : List Json) : Members :=
  if elems.isEmpty then [] else member key (.array elems)

def SeedSpec.json : SeedSpec → Json
  | .const s => .object (member "kind" (.string "const") ++
      if s.isEmpty then [] else member "value" (bytesJson s))
  | .account p => .object [("kind", .string "account"), ("path", .string p)]
  | .arg p => .object [("kind", .string "arg"), ("path", .string p)]

def AddressSpec.json (a : AddressSpec) : Json :=
  .object (member "seeds" (.array (a.seeds.map SeedSpec.json)) ++
    optional "program" (a.program.map SeedSpec.json))

def AccountSpec.json (a : AccountSpec) : Json :=
  .object (member "name" (.string a.name) ++ flag "writable" a.isWritable ++
    flag "signer" a.isSigner ++ optional "address" (a.address.map .string) ++
    optional "pda" (a.derivation.map AddressSpec.json))

def FieldSpec.json (f : FieldSpec) : Json :=
  .object [("name", .string f.name), ("type", .string f.type)]

def InstructionSpec.json (i : InstructionSpec) : Json :=
  .object [("name", .string i.name), ("discriminator", bytesJson i.discriminator),
    ("accounts", .array (i.accounts.map AccountSpec.json)),
    ("args", .array (i.args.map FieldSpec.json))]

def StateSpec.accountJson (s : StateSpec) : Json :=
  .object [("name", .string s.name), ("discriminator", bytesJson s.discriminator)]

def StateSpec.typeJson (s : StateSpec) : Json :=
  .object [("name", .string s.name),
    ("type", .object [("kind", .string "struct"),
      ("fields", .array (s.fields.map FieldSpec.json))])]

def version : Text := "0.1.0"

def Description.json (d : Description) : Json :=
  .object (member "address" (.string d.address) ++
    member "metadata" (.object [("name", .string d.name), ("version", .string version),
      ("spec", .string version)]) ++
    member "instructions" (.array (d.instructions.map InstructionSpec.json)) ++
    nonempty "accounts" (d.states.map StateSpec.accountJson) ++
    nonempty "types" (d.states.map StateSpec.typeJson))

def Description.text (d : Description) : Text := d.json.text ++ "\n"

end AnchorScript.Interface
