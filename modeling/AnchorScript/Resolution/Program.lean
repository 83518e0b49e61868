import AnchorScript.Resolution.Statement

/-!
# Resolved programs

An instruction is resolved when every statement of its body is: each account has its record, each
variable its type, and the programs that the instruction calls are known.
-/

namespace AnchorScript

/-- A program account that the context of an instruction needs besides its parameters. -/
inductive ProgramAccount where
  | system | token | associatedToken
  deriving DecidableEq

namespace ProgramAccount

def name : ProgramAccount → Text
  | system => "system_program"
  | token => "token_program"
  | associatedToken => "associated_token_program"

def rust : ProgramAccount → Text
  | system => "Program<'info, System>"
  | token => "Program<'info, Token>"
  | associatedToken => "Program<'info, AssociatedToken>"

end ProgramAccount

structure ResolvedInstruction where
  source : Instruction
  accounts : List AccountRef
  programs : List ProgramAccount
  hasArgSeeds : Bool
  tokenProgram : Option Text
  locals : List (Text × ValueType)
  signerSeeds : List (Nat × List Seed)

namespace ResolvedInstruction

def account? (i : ResolvedInstruction) (name : Text) : Option AccountRef :=
  i.accounts.find? (·.name = name)

def seedsAt? (i : ResolvedInstruction) (index : Nat) : Option (List Seed) :=
  i.signerSeeds.lookup index

end ResolvedInstruction

namespace Resolution

/-- Each account is derived at most once, after those in `earlier`, and is a parameter. -/
def checkDerivations (env : Surroundings) (sc : Scope) (earlier : List (Text × SourcePos)) :
    List Statement → Except Diagnostic PUnit
  | [] => .ok ⟨⟩
  | .derive pos d :: rest =>
    if (sc.account? d.account).isNone then
      .error (env.refuse .unresolvedReference pos d.account ("'" ++ d.account ++
        "' is not an account parameter of '" ++ env.instruction.name ++ "'"))
    else match earlier.lookup d.account with
      | some first => .error (env.refuse .duplicateDerivation pos d.account ("account '" ++
          d.account ++ "' is derived more than once (first at line " ++ Text.ofInt first.line ++
          ")"))
      | none => checkDerivations env sc ((d.account, pos) :: earlier) rest
  | _ :: rest => checkDerivations env sc earlier rest

/-- A derived system account holds value and is always passed as writable. -/
def finishAccount (a : AccountRef) : AccountRef :=
  if a.role = .systemAccount && a.isProgramDerived then { a with isMutable := true } else a

def isSystemCall : Statement → Bool
  | .call _ c => c.action.isSystem
  | _ => false

def isTokenCall : Statement → Bool
  | .call _ c => !c.action.isSystem
  | _ => false

def needsSystem (accounts : List AccountRef) (body : List Statement) : Bool :=
  accounts.any (·.isInitialized) || body.any isSystemCall

def needsToken (accounts : List AccountRef) (body : List Statement) : Bool :=
  accounts.any (fun a => a.role = .tokenAccount || a.role = .associatedToken || a.role = .mint) ||
    body.any isTokenCall

def needsAssociated (accounts : List AccountRef) : Bool :=
  accounts.any fun a => a.isInitialized && a.address.isAssociated

/-- The last parameter that is the token program. -/
def declaredTokenProgram (accounts : List AccountRef) : Option Text :=
  ((accounts.filter (·.role = .tokenProgram)).map (·.name)).getLast?

def finish (i : Instruction) (sc : Scope) : ResolvedInstruction :=
  let accounts := sc.accounts.map finishAccount
  let declared := declaredTokenProgram accounts
  let addsToken := needsToken accounts i.body && declared.isNone
  { source := i
    accounts
    programs := (if needsSystem accounts i.body then [.system] else []) ++
      (if addsToken then [.token] else []) ++
      (if needsAssociated accounts then [.associatedToken] else [])
    hasArgSeeds := sc.hasArgSeeds
    tokenProgram := if addsToken then some ProgramAccount.token.name else declared
    locals := sc.locals
    signerSeeds := sc.signerSeeds }

def resolveInstruction (p : Program) (i : Instruction) : Except Diagnostic ResolvedInstruction := do
  let env : Surroundings := ⟨p, i⟩
  let sc := Scope.initial i
  checkDerivations env sc [] i.body
  return finish i (← sc.resolveBody env 0 i.body)

end Resolution

structure ResolvedProgram where
  source : Program
  instructions : List ResolvedInstruction

namespace ResolvedProgram

def usesSystemTransfer (p : ResolvedProgram) : Bool :=
  p.instructions.any fun i => i.source.body.any Resolution.isSystemCall

def usesToken (p : ResolvedProgram) : Bool :=
  p.instructions.any fun i => i.tokenProgram.isSome || i.accounts.any (·.role.isToken)

def usesAssociatedToken (p : ResolvedProgram) : Bool :=
  p.instructions.any (·.programs.contains .associatedToken)

end ResolvedProgram

def Program.resolve (p : Program) : Except Diagnostic ResolvedProgram := do
  return ⟨p, ← p.instructions.mapM (Resolution.resolveInstruction p)⟩

end AnchorScript
