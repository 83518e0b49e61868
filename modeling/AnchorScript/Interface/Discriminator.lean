import AnchorScript.Hash.Sha256
import AnchorScript.Rust.Name

/-!
# Discriminators

The eight bytes that begin an instruction's data and an account's data: the start of the SHA-256
digest of a name in its name space.
-/

namespace AnchorScript.Interface

def discriminatorOf (preimage : Text) : Text := (Sha256.hash preimage).take 8

def instructionDiscriminator (name : Text) : Text :=
  discriminatorOf ("global:" ++ Rust.snakeCase name)

def accountDiscriminator (name : Text) : Text := discriminatorOf ("account:" ++ name)

end AnchorScript.Interface
