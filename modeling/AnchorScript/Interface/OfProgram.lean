import AnchorScript.Interface.Basic
import AnchorScript.Interface.ProgramAddress
import AnchorScript.Interface.Discriminator
import AnchorScript.Resolution.Program
import AnchorScript.Rust.Name
import AnchorScript.Base58

/-!
# Descriptions of resolved programs
-/

namespace AnchorScript.Interface

def systemProgramId : Text := "11111111111111111111111111111111"

def tokenProgramId : Text := "TokenkegQfeZyiNwAJbNbGKPFXCWuBvf9Ss623VQ5DA"

def associatedTokenProgramId : Text := "ATokenGPvbdGVxr1b2hvZbsiqW5xWH25efTNsLJA8knL"

def programAddress : ProgramAccount → Text
  | .system => systemProgramId
  | .token => tokenProgramId
  | .associatedToken => associatedTokenProgramId

/-- The bytes of an address; a text that is no address has none. -/
def keyBytes (id : Text) : Text :=
  match Base58.decode id with
  | .ok key => key
  | .error _ => []

def seedSpec : SeedSource → SeedSpec
  | .literal s => .const s
  | .accountKey a => .account (Rust.snakeCase a)
  | .stateField ref _ => .account (Rust.snakeCase ref.account ++ "." ++ Rust.snakeCase ref.field)
  | .argument n _ => .arg (Rust.snakeCase n)
  | .bump _ => .arg []

def literal? : SeedSource → Option Text
  | .literal s => some s
  | _ => none

/-- The address of seeds that are all literals. -/
def constantAddress? (seeds : List Seed) (programId : Text) : Option Text := do
  let literals ← seeds.mapM (literal? ·.source)
  let key ← ProgramAddress.find? literals (keyBytes programId)
  return Base58.encode key

def derivationSpec (a : AccountRef) : Option AddressSpec :=
  match a.address with
  | .found seeds | .stored seeds _ => some ⟨seeds.map (seedSpec ·.source), none⟩
  | .associated =>
    let parties := a.token.getD ⟨[], []⟩
    some ⟨[.account (Rust.snakeCase parties.authority), .const (keyBytes tokenProgramId),
      .account (Rust.snakeCase parties.mint)], some (.const (keyBytes associatedTokenProgramId))⟩
  | .given => none

/-- The address, where it is the same in every call. -/
def fixedAddress? (a : AccountRef) (programId : Text) : Option Text :=
  if a.role = .tokenProgram then some tokenProgramId
  else match a.address with
    | .found seeds | .stored seeds _ => constantAddress? seeds programId
    | .given | .associated => none

def accountSpec (programId : Text) (a : AccountRef) : AccountSpec :=
  { name := Rust.snakeCase a.name
    isWritable := a.isMutable || a.isInitialized
    isSigner := a.role = .signer
    address := fixedAddress? a programId
    derivation := derivationSpec a }

def programSpec (p : ProgramAccount) : AccountSpec :=
  { name := p.name, isWritable := false, isSigner := false, address := some (programAddress p),
    derivation := none }

def argSpec (p : Param) : FieldSpec :=
  { name := Rust.snakeCase p.name
    type := (p.type.value?.map (·.kind.interfaceName)).getD [] }

def instructionSpec (programId : Text) (i : ResolvedInstruction) : InstructionSpec :=
  { name := Rust.snakeCase i.source.name
    discriminator := instructionDiscriminator i.source.name
    accounts := i.accounts.map (accountSpec programId) ++ i.programs.map programSpec
    args := i.source.args.map argSpec }

def stateSpec (s : StateType) : StateSpec :=
  { name := s.name
    discriminator := accountDiscriminator s.name
    fields := s.fields.map fun f => ⟨Rust.snakeCase f.name, f.type.kind.interfaceName⟩ }

def Description.ofProgram (p : ResolvedProgram) : Description :=
  { address := p.source.programId
    name := Rust.snakeCase p.source.name
    instructions := p.instructions.map (instructionSpec p.source.programId)
    states := p.source.states.map stateSpec }

end AnchorScript.Interface
