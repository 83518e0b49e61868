import AnchorScript.Program.Basic

/-!
# Resolved accounts

What an instruction makes of each of its account parameters: where the address comes from, whether
the account is created, written or closed, and the token account it must be.
-/

namespace AnchorScript

/-- A field of a state account parameter. -/
structure FieldRef where
  account : Text
  field : Text
  deriving DecidableEq

/-- Where the bump at the end of a signer seed list is read. -/
inductive BumpSource where
  | stored (ref : FieldRef)
  | computed (account : Text)
  | ofVar (name : Text)
  deriving DecidableEq

/-- What one seed denotes. -/
inductive SeedSource where
  | literal (bytes : Text)
  | accountKey (account : Text)
  | stateField (ref : FieldRef) (type : ValueType)
  | argument (name : Text) (type : ValueType)
  | bump (source : BumpSource)
  deriving DecidableEq

structure Seed where
  source : SeedSource
  pos : SourcePos
  deriving DecidableEq

namespace SeedSource

def text : SeedSource → Text
  | literal _ => "literal"
  | accountKey _ => "account key"
  | stateField .. => "state field"
  | argument .. => "argument"
  | bump _ => "bump"

def isBump : SeedSource → Bool
  | bump _ => true
  | _ => false

def isArgument : SeedSource → Bool
  | argument .. => true
  | _ => false

/-- The type of what the seed reads; a literal has none. -/
def type? : SeedSource → Option ValueType
  | literal _ => none
  | accountKey _ => some .pubkey
  | stateField _ t => some t
  | argument _ t => some t
  | bump _ => some .u8

end SeedSource

/-- How the address of an account is established. -/
inductive AddressSource where
  /-- Passed in, with no rule for it. -/
  | given
  /-- Derived from seeds, with the bump that is found first. -/
  | found (seeds : List Seed)
  /-- Derived from seeds and a stored bump. -/
  | stored (seeds : List Seed) (bump : FieldRef)
  /-- The associated token account of its mint and authority. -/
  | associated
  deriving DecidableEq

namespace AddressSource

def seeds : AddressSource → List Seed
  | found s | stored s _ => s
  | given | associated => []

def bumpField? : AddressSource → Option FieldRef
  | stored _ b => some b
  | _ => none

def isProgramDerived : AddressSource → Bool
  | found _ | stored .. => true
  | given | associated => false

def isAssociated : AddressSource → Bool
  | associated => true
  | _ => false

def text : AddressSource → Text
  | found _ => "derive"
  | stored .. => "deriveWithBump"
  | given | associated => "none"

end AddressSource

structure TokenParties where
  mint : Text
  authority : Text
  deriving DecidableEq

/-- The creation of an account. Only state accounts have a size of their own. -/
structure Initialization where
  payer : Text
  space : Option Int
  deriving DecidableEq

structure AccountRef where
  name : Text
  role : Role
  pos : SourcePos
  address : AddressSource := .given
  token : Option TokenParties := none
  init : Option Initialization := none
  isMutable : Bool := false
  closeTo : Option Text := none
  deriving DecidableEq

namespace AccountRef

def isProgramDerived (a : AccountRef) : Bool := a.address.isProgramDerived

def isInitialized (a : AccountRef) : Bool := a.init.isSome

end AccountRef

end AnchorScript
