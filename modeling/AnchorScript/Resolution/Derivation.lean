import AnchorScript.Resolution.Scope

/-!
# Seed lists and derivations

A seed is a string literal, the address of an account, a state field or an argument. The signer
seeds of a call are such a list that ends in a bump.

A derivation gives an account its address rule, and may create the account at the expense of a
signer.
-/

namespace AnchorScript

/-- Seeds of one address, its bump included. -/
def maxSeeds : Nat := 16

def maxSeedLength : Nat := 32

def ValueType.isBump (t : ValueType) : Bool := t.kind = .int ⟨.w8, false⟩

/-- Values with a byte form can be seeds. -/
def ValueKind.hasByteForm : ValueKind → Bool
  | .int _ | .string _ | .pubkey => true
  | .bool => false

/-- A list derives an address, or signs for one that is derived. -/
inductive SeedUse where
  | address
  | signer
  deriving DecidableEq

/-- Seeds that can be written; an address has its bump appended. -/
def SeedUse.limit : SeedUse → Nat
  | address => maxSeeds - 1
  | signer => maxSeeds

namespace Scope

def checkByteForm (env : Surroundings) (about : Text) (v : Value) (t : ValueType) :
    Except Diagnostic PUnit :=
  if t.kind.hasByteForm then .ok ⟨⟩
  else .error (env.refuse .invalidSeed v.pos about
    ("seed '" ++ v.text ++ "' of type " ++ t.name ++ " has no byte form"))

/-- A state field as a seed. The fields of an account that is being created do not exist yet when
addresses are derived. -/
def fieldSeed (sc : Scope) (env : Surroundings) (about : Text) (use : SeedUse) (isLast : Bool)
    (v : Value) (account field : Text) : Except Diagnostic SeedSource := do
  let f ← sc.stateField env account field v.pos
  match use with
  | .address =>
    if env.initializes account then
      .error ((env.refuse .unresolvedReference v.pos about ("seed '" ++ v.text ++
        "' reads a field of '" ++ account ++ "', which is being initialised")).withField field)
    else
      checkByteForm env about v f.type
      return .stateField ⟨account, field⟩ f.type
  | .signer =>
    let _ ← sc.fieldType env v.pos account field
    if isLast && f.type.isBump then return .bump (.stored ⟨account, field⟩)
    else
      checkByteForm env about v f.type
      return .stateField ⟨account, field⟩ f.type

def bumpSeed (sc : Scope) (env : Surroundings) (about : Text) (use : SeedUse) (isLast : Bool)
    (v : Value) (account : Text) : Except Diagnostic SeedSource := do
  if use = .address then
    .error (env.refuse .invalidSeed v.pos about
      ("bump '" ++ v.text ++ "' cannot appear in a derivation seed list"))
  else if !isLast then
    .error (env.refuse .invalidSeed v.pos about
      ("bump '" ++ v.text ++ "' must be the last signer seed"))
  else
    sc.checkBump env v.pos account
    return .bump (.computed account)

/-- One seed of the address of `about`. -/
def seedSource (sc : Scope) (env : Surroundings) (about : Text) (use : SeedUse) (isLast : Bool)
    (v : Value) : Except Diagnostic SeedSource :=
  match v with
  | .string pos s =>
    if s.length > maxSeedLength then
      .error (env.refuse .invalidSeed pos about ("seed '" ++ s ++ "' is " ++
        Text.ofNat s.length ++ " bytes, the limit is " ++ Text.ofNat maxSeedLength))
    else .ok (.literal s)
  | .key pos a _ =>
    match sc.account? a with
    | some _ => .ok (.accountKey a)
    | none => .error (env.refuse .unresolvedReference pos about ("seed '" ++ v.text ++
        "' references '" ++ a ++ "', which is not an account parameter of '" ++
        env.instruction.name ++ "'"))
  | .arg pos name _ =>
    match (env.instruction.param? name).bind (·.type.value?) with
    | some t => do
      checkByteForm env about v t
      return .argument name t
    | none => .error (env.refuse .invalidSeed pos about
        ("seed '" ++ name ++ "' has no byte form"))
  | .field _ a f _ => sc.fieldSeed env about use isLast v a f
  | .bump _ a => sc.bumpSeed env about use isLast v a
  | .var pos name _ =>
    match sc.varType? name with
    | none => .error (env.refuse .unresolvedReference pos about
        ("'" ++ name ++ "' is not declared before use"))
    | some t =>
      if use = .signer && isLast && t.isBump then .ok (.bump (.ofVar name))
      else .error (env.refuse .invalidSeed pos about ("local '" ++ name ++
        "' can only be used as the trailing bump of a signer seed list"))
  | _ => .error (env.refuse .invalidSeed v.pos about ("'" ++ v.text ++
      "' is not a valid seed " ++
      "(use a string literal, <account>.key, <state>.<field> or an argument)"))

def seedList (sc : Scope) (env : Surroundings) (about : Text) (use : SeedUse) :
    List Value → Except Diagnostic (List Seed)
  | [] => .ok []
  | v :: vs => do
    let source ← sc.seedSource env about use vs.isEmpty v
    return ⟨source, v.pos⟩ :: (← sc.seedList env about use vs)

def seeds (sc : Scope) (env : Surroundings) (about : Text) (use : SeedUse) (vs : List Value) :
    Except Diagnostic (List Seed) :=
  match vs.drop use.limit with
  | v :: _ => .error (env.refuse .invalidSeed v.pos about ("'" ++ about ++ "' has " ++
      Text.ofNat vs.length ++ " seeds, at most " ++ Text.ofNat use.limit ++ " are allowed"))
  | [] => sc.seedList env about use vs

/-- The mint and authority of a token account are account parameters, the mint a mint. -/
def tokenParties (sc : Scope) (env : Surroundings) (pos : SourcePos) (about : Text)
    (form : DeriveForm) : Except Diagnostic (Option TokenParties) :=
  match form.parties? with
  | none => .ok none
  | some (mint, authority) =>
    if (sc.account? mint).all (·.role != .mint) then
      .error (env.refuse .unresolvedReference pos about
        ("token mint '" ++ mint ++ "' is not a Mint account parameter"))
    else if (sc.account? authority).isNone then
      .error (env.refuse .unresolvedReference pos about
        ("token authority '" ++ authority ++ "' is not an account parameter"))
    else .ok (some ⟨mint, authority⟩)

/-- The stored bump of an account: a `u8` field of a state account that exists already. -/
def bumpField (sc : Scope) (env : Surroundings) (about : Text) (v : Value) :
    Except Diagnostic FieldRef :=
  match v with
  | .field pos account field _ =>
    match (sc.account? account).bind env.stateOf? with
    | none => .error (env.refuse .unresolvedReference pos about
        ("bump holder '" ++ account ++ "' is not a state account parameter"))
    | some st =>
      match st.field? field with
      | none => .error ((env.refuse .missingBumpField pos about
          ("state type '" ++ st.name ++ "' has no bump field '" ++ field ++ "'")).withField field)
      | some f =>
        if !f.type.isBump then
          .error ((env.refuse .invalidBumpField pos about ("bump field '" ++ st.name ++ "." ++
            field ++ "' must be u8, found " ++ f.type.name)).withField field)
        else if env.initializes account then
          .error ((env.refuse .unresolvedReference pos about ("bump field '" ++ account ++ "." ++
            field ++ "' is read while '" ++ account ++ "' is being initialised")).withField field)
        else .ok ⟨account, field⟩
  | _ => .error (env.refuse .invalidBumpField v.pos about
      ("bump argument '" ++ v.text ++ "' must be a <state>.<field> reference"))

/-- The payer of a creation: the signer that is named, or the only signer there is. -/
def payer (sc : Scope) (env : Surroundings) (ref : AccountRef) (request : InitRequest) :
    Except Diagnostic Text :=
  match request.payer with
  | some (name, pos) =>
    match sc.account? name with
    | none => .error (env.refuse .invalidPayer pos ref.name
        ("payer '" ++ name ++ "' is not an account parameter"))
    | some p =>
      if p.role = .signer then .ok name
      else .error (env.refuse .invalidPayer pos ref.name
        ("payer '" ++ name ++ "' must be a Signer, found " ++ p.role.typeName))
  | none =>
    match (sc.accounts.filter (·.role = .signer)).map (·.name) with
    | [name] => .ok name
    | [] => .error (env.refuse .invalidPayer ref.pos ref.name
        ("no Signer account in scope to pay for initialising '" ++ ref.name ++ "'"))
    | names => .error (env.refuse .ambiguousPayer ref.pos ref.name
        ("several signers ([" ++ Text.join " " names ++ "]) could pay for '" ++ ref.name ++
          "'; name one with .init(payer)"))

/-- The allocation of a created account; accounts that cannot be created have none. -/
def allocation (env : Surroundings) (pos : SourcePos) (ref : AccountRef) (form : DeriveForm) :
    Except Diagnostic (Option Int) :=
  let impossible : Except Diagnostic (Option Int) :=
    .error (env.refuse .invalidDerivation pos ref.name
      ("a " ++ ref.role.typeName ++ " account cannot be initialised"))
  match ref.role with
  | .state _ =>
    match env.stateOf? ref with
    | some st => .ok (some st.space)
    | none => impossible
  | .tokenAccount =>
    if form.parties?.isNone then
      .error (env.refuse .invalidDerivation pos ref.name
        "initialising a TokenAccount requires derive([seeds], mint, authority)")
    else .ok none
  | .associatedToken => .ok none
  | _ => impossible

/-- The role of the account admits the form of the derivation. -/
def checkForm (env : Surroundings) (pos : SourcePos) (ref : AccountRef) (d : Derive) :
    Except Diagnostic PUnit :=
  let refused (message : Text) : Except Diagnostic PUnit :=
    .error (env.refuse .invalidDerivation pos d.account message)
  let isAssociated := d.form.isAssociated
  if ref.role = .signer || ref.role = .tokenProgram then
    refused ("a " ++ ref.role.typeName ++ " account cannot be derived")
  else if isAssociated && ref.role != .associatedToken then
    refused "derive(mint, authority) is only valid on an AssociatedTokenAccount"
  else if !isAssociated && ref.role = .associatedToken then
    refused "an AssociatedTokenAccount is derived with derive(mint, authority)"
  else match d.form with
    | .tokenSeeds .. =>
      if ref.role != .tokenAccount then
        refused "mint and authority arguments are only valid on a TokenAccount"
      else .ok ⟨⟩
    | .withBump .. =>
      if d.init.isSome then
        refused ("deriveWithBump cannot be combined with init: an initialised account has no " ++
          "stored bump yet" : Text)
      else .ok ⟨⟩
    | _ => .ok ⟨⟩

def addressSeeds (sc : Scope) (env : Surroundings) (d : Derive) : Except Diagnostic (List Seed) :=
  sc.seeds env d.account .address d.form.seedValues

def addressSource (sc : Scope) (env : Surroundings) (d : Derive) (seeds : List Seed) :
    Except Diagnostic AddressSource :=
  match d.form with
  | .associated .. => .ok .associated
  | .withBump _ bump => do return .stored seeds (← sc.bumpField env d.account bump)
  | .seeds _ | .tokenSeeds .. => .ok (.found seeds)

def initialization (sc : Scope) (env : Surroundings) (pos : SourcePos) (ref : AccountRef)
    (d : Derive) : Except Diagnostic (Option Initialization) :=
  match d.init with
  | none => .ok none
  | some request => do
    let space ← allocation env pos ref d.form
    return some { payer := ← sc.payer env ref request, space }

def resolveDerive (sc : Scope) (env : Surroundings) (pos : SourcePos) (d : Derive) :
    Except Diagnostic Scope := do
  match sc.account? d.account with
  | none => .error (env.refuse .unresolvedReference pos d.account
      ("'" ++ d.account ++ "' is not an account parameter of '" ++ env.instruction.name ++ "'"))
  | some ref =>
    checkForm env pos ref d
    let seeds ← sc.addressSeeds env d
    let token ← sc.tokenParties env pos ref.name d.form
    let address ← sc.addressSource env d seeds
    let init ← sc.initialization env pos ref d
    let sc := sc.update ref.name fun a =>
      { a with address, token, init, isMutable := a.isMutable || init.isSome }
    let sc := match init with
      | some i => sc.markMutable i.payer
      | none => sc
    return { sc with hasArgSeeds := sc.hasArgSeeds || seeds.any (·.source.isArgument) }

end Scope

end AnchorScript
