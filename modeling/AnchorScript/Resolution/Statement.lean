import AnchorScript.Resolution.Derivation

/-!
# Statements in order

Each statement is checked against what the statements before it have established, and adds to it.
-/

namespace AnchorScript

/-- The accounts that take part in a call, in the order they are checked. -/
def CallAction.participants : CallAction → List Text
  | systemTransfer s t => [s, t]
  | tokenTransfer s t a => [s, t, a]
  | mintTo m t a => [t, m, a]
  | burn m s a => [s, m, a]

/-- The accounts whose contents a call changes, with what each must be. -/
def CallAction.changed : CallAction → List (Text × (Role → Bool))
  | systemTransfer s t => [(s, fun _ => true), (t, fun _ => true)]
  | tokenTransfer s t _ => [(s, holdsTokens), (t, holdsTokens)]
  | mintTo m t _ => [(m, (· = .mint)), (t, holdsTokens)]
  | burn m s _ => [(m, (· = .mint)), (s, holdsTokens)]
where
  holdsTokens (r : Role) : Bool := r = .tokenAccount || r = .associatedToken

namespace Scope

def resolveAssign (sc : Scope) (env : Surroundings) (pos : SourcePos) (a : Assign) :
    Except Diagnostic Scope := do
  let target ← sc.stateField env a.account a.field pos
  let source ← sc.typeOf env a.account a.value
  if !target.type.accepts source then
    .error ((env.refuse .typeMismatch a.value.pos a.account ("cannot assign " ++ a.value.text ++
      " (" ++ source.name ++ ") to field '" ++ a.field ++ "' of type " ++
      target.type.name)).withField a.field)
  else
    (sc.checkInt env target.type a.account a.value).mapError (·.withField a.field)
    checkLength target.type
    return { sc.markMutable a.account with written := ⟨a.account, a.field⟩ :: sc.written }
where
  /-- A string literal fits the reservation of its field. -/
  checkLength (t : ValueType) : Except Diagnostic PUnit :=
    match a.value, t.kind with
    | .string vpos s, .string maxLen =>
      if 0 < maxLen && maxLen < s.length then
        .error ((env.refuse .typeMismatch vpos a.account ("string of " ++ Text.ofNat s.length ++
          " bytes does not fit field '" ++ a.field ++ "' (" ++ t.name ++ ")")).withField a.field)
      else .ok ⟨⟩
    | _, _ => .ok ⟨⟩

/-- Every participant is an account parameter. -/
def checkParticipants (sc : Scope) (env : Surroundings) (pos : SourcePos) (action : CallAction) :
    Except Diagnostic PUnit :=
  action.participants.forM fun name =>
    if (sc.account? name).isSome then .ok ⟨⟩
    else .error (env.refuse .unresolvedReference pos name (action.text ++ " references '" ++ name ++
      "', which is not an account parameter"))

/-- Every account the call changes has a fitting role. -/
def checkRoles (sc : Scope) (env : Surroundings) (pos : SourcePos) (action : CallAction) :
    Except Diagnostic PUnit :=
  action.changed.forM fun (name, fits) =>
    match sc.account? name with
    | none => .ok ⟨⟩
    | some ref =>
      if fits ref.role then .ok ⟨⟩
      else .error (env.refuse .typeMismatch pos name (action.text ++ " cannot use '" ++ name ++
        "' of type " ++ ref.role.typeName ++ " here"))

/-- The amount of a call is a `u64`. -/
def checkAmount (sc : Scope) (env : Surroundings) (c : CrossProgramCall) :
    Except Diagnostic PUnit := do
  let t ← sc.typeOf env c.signer c.amount
  if !t.kind.isInt then
    .error (env.refuse .typeMismatch c.amount.pos c.signer
      (c.action.text ++ " amount must be an integer, found " ++ t.name))
  else if t != .intLiteral && t.kind != .int ⟨.w64, false⟩ then
    .error (env.refuse .typeMismatch c.amount.pos c.signer
      (c.action.text ++ " amount must be u64, found " ++ t.name))
  else sc.checkInt env .u64 c.signer c.amount

/-- A derived account signs with seeds that end in its bump, any other without. -/
def callSeeds (sc : Scope) (env : Surroundings) (pos : SourcePos) (c : CrossProgramCall) :
    Except Diagnostic (Option (List Seed)) := do
  let signer := c.signer
  let isDerived := (env.derivation? signer).isSome
  match c.signerSeeds with
  | none =>
    if isDerived && (sc.account? signer).all (!·.address.isAssociated) then
      .error (env.refuse .invalidSignerSeeds pos signer
        ("'" ++ signer ++ "' is a PDA and needs signer seeds to authorise " ++ c.action.text))
    else return none
  | some values =>
    if !isDerived then
      .error (env.refuse .invalidSignerSeeds pos signer
        ("signer seeds given but '" ++ signer ++ "' is not a derived account"))
    else
      let seeds ← sc.seeds env signer .signer values
      if seeds.getLast?.any (·.source.isBump) then return some seeds
      else .error (env.refuse .invalidSignerSeeds pos signer
        ("signer seeds must end with the bump of '" ++ signer ++ "'"))

/-- The scope after a call, which is the statement with this index. -/
def resolveCall (sc : Scope) (env : Surroundings) (index : Nat) (pos : SourcePos)
    (c : CrossProgramCall) : Except Diagnostic Scope := do
  sc.checkParticipants env pos c.action
  sc.checkRoles env pos c.action
  sc.checkAmount env c
  let seeds ← sc.callSeeds env pos c
  let sc := c.action.changed.foldl (fun sc (name, _) => sc.markMutable name) sc
  return match seeds with
    | some s => { sc with signerSeeds := sc.signerSeeds ++ [(index, s)] }
    | none => sc

/-- A variable has its declared type, or the type of its value. -/
def resolveBind (sc : Scope) (env : Surroundings) (l : LocalBinding) : Except Diagnostic Scope := do
  let found ← sc.typeOf env [] l.value
  let mismatch (declared : DataType) : Except Diagnostic ValueType :=
    .error (env.refuse .typeMismatch l.value.pos [] ("cannot initialise '" ++ l.name ++ ": " ++
      declared.name ++ "' with " ++ l.value.text ++ " (" ++ found.name ++ ")"))
  let t ← match l.declared with
    | none => pure found
    | some (.value d) => if d.accepts found then pure d else mismatch (.value d)
    | some (.account r) => mismatch (.account r)
  sc.checkInt env t [] l.value
  let sc := { sc with locals := (l.name, t) :: sc.locals }
  return match (if t = .intLiteral then sc.constValue l.value else none) with
    | some n => { sc with constants := (l.name, n) :: sc.constants }
    | none => sc

def resolveClose (sc : Scope) (env : Surroundings) (pos : SourcePos) (c : CloseAccount) :
    Except Diagnostic Scope :=
  let refused (kind : Diagnostic.Kind) (message : Text) : Except Diagnostic Scope :=
    .error (env.refuse kind pos c.account message)
  match sc.account? c.account with
  | none => refused .unresolvedReference ("'" ++ c.account ++ "' is not an account parameter")
  | some ref =>
    if !ref.role.isState then
      refused .typeMismatch ("only state accounts can be closed, '" ++ c.account ++ "' is " ++
        ref.role.typeName)
    else if ref.isInitialized then
      refused .invalidDerivation
        ("'" ++ c.account ++ "' is initialised and closed in the same instruction")
    else if ref.closeTo.isSome then
      refused .duplicateDerivation ("'" ++ c.account ++ "' is closed more than once")
    else if (sc.account? c.destination).isNone then
      refused .unresolvedReference
        ("close destination '" ++ c.destination ++ "' is not an account parameter")
    else
      .ok ((sc.update c.account fun a =>
        { a with closeTo := some c.destination, isMutable := true }).markMutable c.destination)

def resolveStatement (sc : Scope) (env : Surroundings) (index : Nat) :
    Statement → Except Diagnostic Scope
  | .derive pos d => sc.resolveDerive env pos d
  | .assign pos a => sc.resolveAssign env pos a
  | .call pos c => sc.resolveCall env index pos c
  | .bind _ l => sc.resolveBind env l
  | .close pos c => sc.resolveClose env pos c

/-- The scope after the statements, the first of which has this index. -/
def resolveBody (sc : Scope) (env : Surroundings) (index : Nat) :
    List Statement → Except Diagnostic Scope
  | [] => .ok sc
  | s :: rest => do
    let sc ← sc.resolveStatement env index s
    sc.resolveBody env (index + 1) rest

end Scope

end AnchorScript
