import AnchorScript.IntLiteral
import AnchorScript.Proofs.Outcome
import AnchorScript.Proofs.Rust.Names
import AnchorScript.Rust.Printer

/-!
# Scopes and types of printed programs

What the names of a printed program refer to. In a handler a path that starts at the context leads
to an account of the context struct, to a field of a state struct or to a bump, and any other
variable is an argument or is bound by a statement before. In the constraints of a context struct
names are those of its fields and of the arguments that the struct lists. A call of another program
is printed as several statements, so scopes are those of the statements as they are printed.

Types are written by name, as the emitted source has them. A literal has every integer type whose
range it is in, the operands of an operator have one integer type, and only signed numbers are
negated. A variable has one type wherever it is read, and the bytes of an integer are an array.
-/

namespace AnchorScript

theorem IntType.name_injective {t u : IntType} (h : t.name = u.name) : t = u := by
  have hAll : ∀ a ∈ IntType.all, ∀ b ∈ IntType.all, a.name = b.name → a = b := by decide +kernel
  have hMem : ∀ a : IntType, a ∈ IntType.all := by
    rintro ⟨width, signed⟩
    cases width <;> cases signed <;> decide
  exact hAll t (hMem t) u (hMem u) h

namespace Rust

namespace Expr

/-- The names along a chain of members that starts at a variable. -/
def path? : Expr → Option (List Text)
  | var n => some [n]
  | member e n => e.path?.map (· ++ [n])
  | _ => none

/-- The chains that the expression reads, each as far as it goes. -/
def paths : Expr → List (List Text)
  | int _ | bool _ | string _ | bytes _ => []
  | var n => [[n]]
  | member e n => match e.path? with
    | some path => [path ++ [n]]
    | none => e.paths
  | call e _ | slice e | neg e | paren e => e.paths
  | binary _ l r => l.paths ++ r.paths

def accountPath (account : Text) : List Text := ["ctx", "accounts", account]

def fieldPath (account field : Text) : List Text := ["ctx", "accounts", account, field]

def bumpPath (account : Text) : List Text := ["ctx", "bumps", account]

@[simp] theorem paths_owned (e : Expr) (k : ValueKind) : (e.owned k).paths = e.paths := by
  cases k <;> rfl

@[simp] theorem paths_bytesOf (e : Expr) (k : ValueKind) :
    (Constraint.bytesOf e k).paths = e.paths := by
  cases k <;> rfl

end Expr

namespace ContextStruct

variable (c : ContextStruct)

def HasAccount (account : Text) : Prop := ∃ f ∈ c.fields, f.name = account

/-- The account holds a state of one of these structs, and the struct has the field. -/
def HasField (states : List StateStruct) (account field : Text) : Prop :=
  ∃ f ∈ c.fields, ∃ st ∈ states, f.name = account ∧ f.type = (Role.state st.name).rust ∧
    ∃ g ∈ st.fields, g.name = field

/-- The address of the account is derived from seeds, and so has a bump. -/
def HasBump (account : Text) : Prop :=
  ∃ f ∈ c.fields, f.name = account ∧ (∃ es, .seeds es ∈ f.constraints) ∧
    ∃ stored, .bump stored ∈ f.constraints

def HasArg (arg : Text) : Prop := ∃ as, c.args = some as ∧ ∃ a ∈ as, a.name = arg

end ContextStruct

/-- A seed of a constraint names accounts of the struct, their fields and listed arguments. -/
inductive SeedInScope (states : List StateStruct) (c : ContextStruct) : Expr → Prop
  | literal {s : Text} : SeedInScope states c (.bytes s)
  | key {account : Text} (hAccount : c.HasAccount account) :
      SeedInScope states c (((Expr.var account).call "key").call "as_ref")
  | field {account field : Text} {k : ValueKind} (hField : c.HasField states account field) :
      SeedInScope states c (Constraint.bytesOf ((Expr.var account).member field) k)
  | argument {name : Text} {k : ValueKind} (hArg : c.HasArg name) :
      SeedInScope states c (Constraint.bytesOf (.var name) k)

namespace Constraint

inductive InScope (states : List StateStruct) (c : ContextStruct) : Constraint → Prop
  | init : InScope states c .init
  | mutable : InScope states c .mutable
  | payer {account : Text} (hAccount : c.HasAccount account) : InScope states c (.payer account)
  | space {bytes : Int} : InScope states c (.space bytes)
  | seeds {es : List Expr} (hSeeds : ∀ e ∈ es, SeedInScope states c e) :
      InScope states c (.seeds es)
  | bump : InScope states c (.bump none)
  | stored {account field : Text} (hField : c.HasField states account field) :
      InScope states c (.bump (some ((Expr.var account).member field)))
  | mint {associated : Bool} {account : Text} (hAccount : c.HasAccount account) :
      InScope states c (.mint associated account)
  | authority {associated : Bool} {account : Text} (hAccount : c.HasAccount account) :
      InScope states c (.authority associated account)
  | close {account : Text} (hAccount : c.HasAccount account) : InScope states c (.close account)

end Constraint

inductive Stmt where
  | assign (place value : Expr)
  | bind (name : Text) (isMutable : Bool) (type : Option Text) (value : Expr)
  /-- A struct under a name. -/
  | record (name struct : Text) (fields : List (Text × Expr))
  /-- Signer seeds under a name. -/
  | seeds (name : Text) (elements : List Expr)
  /-- The context of a call under a name, from variables that hold its parts. -/
  | context (name : Text) (program : Expr) (accounts : Text) (signer : Option Text)
  | invoke (function context : Text) (amount : Expr)

namespace Stmt

def lines : Stmt → List Line
  | assign place value => [.top (place.text ++ " = " ++ value.text ++ ";")]
  | bind name isMutable type value => [letLine name isMutable type value]
  | record name struct fields =>
    enclosed ("let " ++ name ++ " = " ++ struct ++ " \x7b")
      (fields.map fun f => .top (f.1 ++ ": " ++ f.2.text ++ ",")) "\x7d;"
  | seeds name es =>
    enclosed ("let " ++ name ++ ": &[&[&[u8]]; 1] = &[&[") (es.map fun e => .top (e.text ++ ","))
      "]];"
  | context name program accounts signer =>
    let constructor : Text :=
      if signer.isSome then "CpiContext::new_with_signer" else "CpiContext::new"
    enclosed ("let " ++ name ++ " = " ++ constructor ++ "(")
      ([.top (program.text ++ ","), .top (accounts ++ ",")] ++
        (signer.map fun s => .top (s ++ ",")).toList) ");"
  | invoke function target amount =>
    [.top (function ++ "(" ++ target ++ ", " ++ amount.text ++ ")?;")]

/-- The expressions that a statement is made of, the place it writes included. -/
def exprs : Stmt → List Expr
  | assign place value => [place, value]
  | bind _ _ _ value => [value]
  | record _ _ fields => fields.map Prod.snd
  | seeds _ es => es
  | context _ program accounts signer => program :: .var accounts :: (signer.map .var).toList
  | invoke _ target amount => [.var target, amount]

def bound? : Stmt → Option Text
  | assign .. | invoke .. => none
  | bind name .. | record name .. | seeds name _ | context name .. => some name

/-- The variable that a value is bound to. -/
def let? : Stmt → Option Text
  | bind name .. => some name
  | _ => none

end Stmt

def signerStmts (s : SignerSeeds) : List Stmt :=
  (s.buffers.map fun b => .bind b.name false none b.value) ++ [.seeds s.name s.seeds]

def invocationStmts (i : Invocation) : List Stmt :=
  .record i.accountsName i.action.structName i.accounts ::
    ((i.signer.map signerStmts).getD [] ++
      [.context i.contextName i.program i.accountsName (i.signer.map (·.name)),
        .invoke i.action.functionName i.contextName i.amount])

/-- The statements that a statement of a handler is printed as. -/
def stmtsOf : HandlerStmt → List Stmt
  | .write place value => [.assign place value]
  | .bind name isMutable type value => [.bind name isMutable type value]
  | .invoke i => invocationStmts i

theorem signerLines_eq (s : SignerSeeds) : signerLines s = (signerStmts s).flatMap Stmt.lines := by
  rw [signerLines, signerStmts, List.flatMap_append, List.flatMap_map, List.flatMap_singleton,
    List.map_eq_flatMap]
  rfl

theorem invocationLines_eq (i : Invocation) :
    invocationLines i = (invocationStmts i).flatMap Stmt.lines := by
  obtain ⟨action, program, accounts, amount, accountsName, contextName, signer⟩ := i
  cases signer with
  | none => simp [invocationLines, invocationStmts, Stmt.lines]
  | some s => simp [invocationLines, invocationStmts, Stmt.lines, signerLines_eq]

/-- The body of a handler is printed statement by statement. -/
theorem bodyLines_eq (body : List HandlerStmt) :
    body.flatMap stmtLines = (body.flatMap stmtsOf).flatMap Stmt.lines := by
  have hStmt : stmtLines = fun s => (stmtsOf s).flatMap Stmt.lines := by
    funext s
    cases s with
    | write | bind => simp [stmtLines, stmtsOf, Stmt.lines]
    | invoke i => exact invocationLines_eq i
  rw [hStmt, List.flatMap_assoc]

/-- A path of a handler leads into its context, or is a variable that is bound. -/
inductive PathInScope (states : List StateStruct) (c : ContextStruct) (vars : List Text) :
    List Text → Prop
  | account {account : Text} (hAccount : c.HasAccount account) :
      PathInScope states c vars (Expr.accountPath account)
  | field {account field : Text} (hField : c.HasField states account field) :
      PathInScope states c vars (Expr.fieldPath account field)
  | bump {account : Text} (hBump : c.HasBump account) :
      PathInScope states c vars (Expr.bumpPath account)
  | var {name : Text} (hVar : name ∈ vars) : PathInScope states c vars [name]

def Expr.InScope (states : List StateStruct) (c : ContextStruct) (vars : List Text) (e : Expr) :
    Prop :=
  ∀ path ∈ e.paths, PathInScope states c vars path

/-- Each statement reads what is in scope after the statements before it, and none hides the
context. -/
inductive Scoped (states : List StateStruct) (c : ContextStruct) : List Text → List Stmt → Prop
  | nil {vars : List Text} : Scoped states c vars []
  | cons {vars : List Text} {s : Stmt} {rest : List Stmt}
      (hReads : ∀ e ∈ s.exprs, e.InScope states c vars)
      (hBound : ∀ name, s.bound? = some name → bare name ≠ "ctx")
      (hRest : Scoped states c (s.bound?.toList ++ vars) rest) : Scoped states c vars (s :: rest)

section Scoped

variable {states : List StateStruct} {c : ContextStruct} {vars vars' : List Text}

theorem PathInScope.mono {path : List Text} (h : PathInScope states c vars path)
    (hVars : vars ⊆ vars') : PathInScope states c vars' path := by
  cases h with
  | account hAccount => exact .account hAccount
  | field hField => exact .field hField
  | bump hBump => exact .bump hBump
  | var hVar => exact .var (hVars hVar)

theorem Expr.InScope.mono {e : Expr} (h : e.InScope states c vars) (hVars : vars ⊆ vars') :
    e.InScope states c vars' :=
  fun path hPath => (h path hPath).mono hVars

theorem Scoped.mono {body : List Stmt} (h : Scoped states c vars body) (hVars : vars ⊆ vars') :
    Scoped states c vars' body := by
  induction h generalizing vars' with
  | nil => exact .nil
  | cons hReads hBound _ ih =>
    refine .cons (fun e he => (hReads e he).mono hVars) hBound (ih ?_)
    exact List.append_subset.mpr ⟨List.subset_append_left _ _,
      List.Subset.trans hVars (List.subset_append_right _ _)⟩

/-- Statements behind others are in scope where they are after what those bind. -/
theorem Scoped.append {body rest : List Stmt} (h : Scoped states c vars body)
    (hRest : Scoped states c (body.filterMap Stmt.bound? ++ vars) rest) :
    Scoped states c vars (body ++ rest) := by
  induction h with
  | nil => exact hRest
  | @cons vars s body hReads hBound _ ih =>
    refine .cons hReads hBound (ih (hRest.mono ?_))
    rw [List.filterMap_cons]
    cases s.bound? with
    | none => exact List.Subset.refl _
    | some n =>
      refine List.cons_subset.mpr ⟨List.mem_append_right _ List.mem_cons_self, ?_⟩
      refine List.append_subset.mpr ⟨List.subset_append_left _ _, ?_⟩
      exact List.subset_append_of_subset_right _ (List.subset_cons_self n vars)

end Scoped

/-- The account holds a state of one of these structs, and the field has this type there. -/
def ContextStruct.HasFieldType (c : ContextStruct) (states : List StateStruct)
    (account field type : Text) : Prop :=
  ∃ f ∈ c.fields, ∃ st ∈ states, f.name = account ∧ f.type = (Role.state st.name).rust ∧
    ⟨field, type⟩ ∈ st.fields

/-- The types of the variables that have one and of the state fields. -/
structure TypeEnv where
  var : Text → Option Text
  field : Text → Text → Text → Prop

/-- The types that names are assigned, wherever they are read. -/
def flatEnv (τ : Text → Text) (field : Text → Text → Text → Prop) : TypeEnv :=
  ⟨fun x => some (τ x), field⟩

/-- The type of an integer's bytes. -/
def bytesType (t : IntType) : Text := "[u8; " ++ Text.ofNat (t.bits / 8) ++ "]"

inductive Expr.HasType (Γ : TypeEnv) : Expr → Text → Prop
  | int {literal : Text} {n : Nat} {t : IntType} (hValue : IntLiteral.value? literal = some n)
      (hFits : t.fits n = true) : HasType Γ (.int literal) t.name
  | bool {b : Bool} : HasType Γ (.bool b) (Text.ofString "bool")
  | string {s : Text} : HasType Γ (.string s) (Text.ofString "String")
  | var {x type : Text} (hVar : Γ.var x = some type) : HasType Γ (.var x) type
  | field {account field type : Text} (hField : Γ.field account field type) :
      HasType Γ (.contextField account field) type
  | bump {account : Text} : HasType Γ (.contextBump account) (Text.ofString "u8")
  | key {account : Text} :
      HasType Γ ((Expr.contextAccount account).call (Text.ofString "key")) (Text.ofString "Pubkey")
  | clone {e : Expr} (hPlace : HasType Γ e (Text.ofString "String")) :
      HasType Γ (e.call (Text.ofString "clone")) (Text.ofString "String")
  | bytes {e : Expr} {t : IntType} (hInteger : HasType Γ e t.name) :
      HasType Γ (e.call (Text.ofString "to_le_bytes")) (bytesType t)
  | paren {e : Expr} {type : Text} (hInner : HasType Γ e type) : HasType Γ (.paren e) type
  | neg {e : Expr} {t : IntType} (hSigned : t.signed = true) (hOperand : HasType Γ e t.name) :
      HasType Γ (.neg e) t.name
  | binary {op : ArithOp} {l r : Expr} {t : IntType} (hLeft : HasType Γ l t.name)
      (hRight : HasType Γ r t.name) : HasType Γ (.binary op l r) t.name

theorem Expr.owned_of_isInt {k : ValueKind} (h : k.isInt = true) (e : Expr) : e.owned k = e := by
  cases k with
  | int => rfl
  | _ => cases h

namespace Expr.HasType

variable {Γ : TypeEnv} {e : Expr} {type : Text}

theorem of_contextField {account field : Text} (h : HasType Γ (.contextField account field) type) :
    Γ.field account field type := by
  cases h with
  | field hField => exact hField

theorem of_contextBump {account : Text} (h : HasType Γ (.contextBump account) type) :
    type = Text.ofString "u8" := by
  cases h
  rfl

theorem of_key {account : Text}
    (h : HasType Γ ((Expr.contextAccount account).call (Text.ofString "key")) type) :
    type = Text.ofString "Pubkey" := by
  generalize hMethod : Text.ofString "key" = method at h
  cases h with
  | key => rfl
  | clone | bytes => exact absurd hMethod (by decide)

theorem owned {k : ValueKind} (h : HasType Γ e k.rust) : HasType Γ (e.owned k) k.rust := by
  cases k with
  | string => exact .clone h
  | _ => exact h

/-- A place has the type that it is read at. -/
theorem of_owned {k : ValueKind} (h : HasType Γ (e.owned k) type) : HasType Γ e type := by
  cases k with
  | string =>
    change HasType Γ (e.call (Text.ofString "clone")) type at h
    generalize hMethod : Text.ofString "clone" = method at h
    cases h with
    | key | bytes => exact absurd hMethod (by decide)
    | clone hPlace => exact hPlace
  | _ => exact h

end Expr.HasType

end Rust

end AnchorScript
