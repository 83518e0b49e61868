import AnchorScript.Proofs.Program.Extraction
import AnchorScript.Proofs.Resolution.SeedList
import AnchorScript.Proofs.Rust.Spelling
import AnchorScript.Proofs.Syntax.Precedence

/-!
# Expressions of a handler

`Renders` says which tree an expression of the source has in a handler: the operators and brackets
where they were, and a rendering in place of each leaf. The text of a translated value is read as
the tree of the expression it stands for, because the source's trees need no brackets either.
-/

namespace AnchorScript

open Outcome

namespace Rust.Tree

def contextAccount (account : Text) : Tree :=
  ((word (Text.ofString "ctx")).member (Text.ofString "accounts")).member (ident account)

def contextField (account field : Text) : Tree := (contextAccount account).member (ident field)

def contextBump (account : Text) : Tree :=
  ((word (Text.ofString "ctx")).member (Text.ofString "bumps")).member (ident account)

/-- A place of string type is cloned. -/
def owned (t : Tree) : ValueKind → Tree
  | .string _ => (t.member (Text.ofString "clone")).call
  | _ => t

end Rust.Tree

/-- The tree of an expression in the handler of an instruction. -/
inductive Renders (p : Program) (i : ResolvedInstruction) : Syntax.Expr → Rust.Tree → Prop
  | number {pos : SourcePos} {lit : Text} :
      Renders p i (.number pos lit) (.word (IntLiteral.rust lit))
  | bool {pos : SourcePos} {b : Bool} :
      Renders p i (.bool pos b) (.word (Text.ofString (if b then "true" else "false")))
  | string {pos : SourcePos} {s : Text} : Renders p i (.string pos s)
      (.apply (.word (Text.ofString "String::from")) (.text (Rust.stringLiteral s)))
  | arg {pos : SourcePos} {id : Text} {t : ValueType} (hArg : i.source.argType? id = some t) :
      Renders p i (.name pos id) ((Rust.Tree.word (Rust.ident id)).owned t.kind)
  | var {pos : SourcePos} {id : Text} {t : ValueType} (hParam : i.source.param? id = none)
      (hLocal : i.locals.lookup id = some t) :
      Renders p i (.name pos id) ((Rust.Tree.word (Rust.ident id)).owned t.kind)
  | key {object : Syntax.Expr} {pos : SourcePos} {name account : Text}
      (hPath : (Syntax.Expr.member object pos name).path? = some [account, Text.ofString "key"]) :
      Renders p i (.member object pos name)
        ((Rust.Tree.contextAccount account).member (Text.ofString "key")).call
  | field {object : Syntax.Expr} {pos : SourcePos} {name account field : Text} {t : ValueType}
      (hPath : (Syntax.Expr.member object pos name).path? = some [account, field])
      (hField : field ≠ "key") (hType : p.fieldType? i.source account field = some t) :
      Renders p i (.member object pos name) ((Rust.Tree.contextField account field).owned t.kind)
  | bump {npos pos : SourcePos} {account : Text} :
      Renders p i (.call (.member (.name npos account) pos (Text.ofString "getBump")) [])
        (.contextBump account)
  | paren {pos : SourcePos} {e : Syntax.Expr} {t : Rust.Tree} (hInner : Renders p i e t) :
      Renders p i (.paren pos e) (.paren t)
  | neg {pos : SourcePos} {e : Syntax.Expr} {t : Rust.Tree} (hOperand : Renders p i e t) :
      Renders p i (.unary pos .neg e) (.neg t)
  | binary {op : Syntax.BinaryOp} {arith : ArithOp} {l r : Syntax.Expr} {t u : Rust.Tree}
      (hOp : Program.arithOp? op = some arith) (hLeft : Renders p i l t)
      (hRight : Renders p i r u) : Renders p i (.binary op l r) (.binary arith t u)

namespace Rust.Tree

theorem owned_grouped {t : Tree} (h : t.Grouped) (hLevel : t.level = 4) (kind : ValueKind) :
    (t.owned kind).Grouped ∧ (t.owned kind).level = 4 := by
  cases kind with
  | string => exact ⟨.call (.member h hLevel) rfl, rfl⟩
  | _ => exact ⟨h, hLevel⟩

theorem contextAccount_grouped (account : Text) : (contextAccount account).Grouped :=
  .member (.member .word rfl) rfl

end Rust.Tree

theorem opLevel_of_arithOp? {op : Syntax.BinaryOp} {arith : ArithOp}
    (h : Program.arithOp? op = some arith) :
    Syntax.Parser.Infix.opLevel op = Rust.opLevel arith + 5 := by
  cases op <;> cases h <;> rfl

variable {p : Program} {i : ResolvedInstruction}

/-- The rendering binds as the expression does, and needs no brackets where that needs none. -/
theorem Renders.grouped {e : Syntax.Expr} {t : Rust.Tree} (h : Renders p i e t)
    (hWell : e.WellFormed) : t.Grouped ∧ e.level = t.level + 5 := by
  induction h with
  | number => exact ⟨.word, rfl⟩
  | bool => exact ⟨.word, rfl⟩
  | string => exact ⟨.apply .word rfl .text, rfl⟩
  | arg | var =>
    obtain ⟨hGrouped, hLevel⟩ := Rust.Tree.owned_grouped .word rfl _
    exact ⟨hGrouped, congrArg (· + 5) hLevel.symm⟩
  | key => exact ⟨.call (.member (Rust.Tree.contextAccount_grouped _) rfl) rfl, rfl⟩
  | field =>
    obtain ⟨hGrouped, hLevel⟩ :=
      Rust.Tree.owned_grouped (.member (Rust.Tree.contextAccount_grouped _) rfl) rfl _
    exact ⟨hGrouped, congrArg (· + 5) hLevel.symm⟩
  | bump => exact ⟨.member (.member .word rfl) rfl, rfl⟩
  | paren _ ih =>
    cases hWell with
    | paren hInner => exact ⟨.paren (ih hInner).1, rfl⟩
  | neg _ ih =>
    cases hWell with
    | unary hOperand hLevel =>
      obtain ⟨hGrouped, hSame⟩ := ih hOperand
      exact ⟨.neg hGrouped (by omega), rfl⟩
  | binary hOp _ _ ihLeft ihRight =>
    cases hWell with
    | binary hLeft hRight hLeftLevel hRightLevel =>
      obtain ⟨hLeftGrouped, hLeftSame⟩ := ihLeft hLeft
      obtain ⟨hRightGrouped, hRightSame⟩ := ihRight hRight
      have hLevel := opLevel_of_arithOp? hOp
      exact ⟨.binary hLeftGrouped hRightGrouped (by omega) (by omega), hLevel⟩

theorem Renders.unique {e : Syntax.Expr} {t u : Rust.Tree} (h : Renders p i e t)
    (hu : Renders p i e u) : t = u := by
  induction h generalizing u with
  | number | bool | string | bump =>
    cases hu
    rfl
  | arg hArg =>
    cases hu with
    | arg hArg' =>
      rw [hArg] at hArg'
      cases hArg'
      rfl
    | var hParam => simp [Instruction.argType?, hParam] at hArg
  | var hParam hLocal =>
    cases hu with
    | arg hArg => simp [Instruction.argType?, hParam] at hArg
    | var _ hLocal' =>
      rw [hLocal] at hLocal'
      cases hLocal'
      rfl
  | key hPath =>
    cases hu with
    | key hPath' =>
      rw [hPath] at hPath'
      cases hPath'
      rfl
    | field hPath' hField =>
      rw [hPath] at hPath'
      cases hPath'
      exact absurd rfl hField
  | field hPath hField hType =>
    cases hu with
    | key hPath' =>
      rw [hPath] at hPath'
      cases hPath'
      exact absurd rfl hField
    | field hPath' _ hType' =>
      rw [hPath] at hPath'
      cases hPath'
      rw [hType] at hType'
      cases hType'
      rfl
  | paren _ ih =>
    cases hu with
    | paren hInner => rw [ih hInner]
  | neg _ ih =>
    cases hu with
    | neg hOperand => rw [ih hOperand]
  | binary hOp _ _ ihLeft ihRight =>
    cases hu with
    | binary hOp' hLeft hRight =>
      rw [hOp] at hOp'
      cases hOp'
      rw [ihLeft hLeft, ihRight hRight]

namespace Rust.Expr

theorem Spells.owned {e : Expr} {t : Tree} (h : Spells e t) (kind : ValueKind) :
    Spells (e.owned kind) (t.owned kind) := by
  cases kind with
  | string => exact .call h (isOutputName_of_all rfl rfl (by decide))
  | _ => exact h

theorem spells_contextAccount {account : Text} (h : IsName account) :
    Spells (contextAccount (ident account)) (.contextAccount account) :=
  .member (.member (.var (isOutputName_of_all rfl rfl (by decide)))
    (isOutputName_of_all rfl rfl (by decide))) (isOutputName_ident h)

theorem spells_contextField {account field : Text} (hAccount : IsName account)
    (hField : IsName field) :
    Spells (contextField (ident account) (ident field)) (.contextField account field) :=
  .member (spells_contextAccount hAccount) (isOutputName_ident hField)

theorem spells_contextBump {account : Text} (h : IsName account) :
    Spells (contextBump (ident account)) (.contextBump account) :=
  .member (.member (.var (isOutputName_of_all rfl rfl (by decide)))
    (isOutputName_of_all rfl rfl (by decide))) (isOutputName_ident h)

end Rust.Expr

theorem Syntax.Expr.WellFormed.path?_isName {e : Syntax.Expr} (h : e.WellFormed)
    {ids : List Text} (hPath : e.path? = some ids) : ∀ id ∈ ids, IsName id := by
  induction h generalizing ids with
  | name hName =>
    cases hPath
    exact List.forall_mem_singleton.mpr hName
  | paren _ ih => exact ih hPath
  | member _ hName ih =>
    obtain ⟨front, hFront, rfl⟩ := Option.map_eq_some_iff.mp hPath
    exact List.forall_mem_append.mpr ⟨ih hFront, List.forall_mem_singleton.mpr hName⟩
  | _ => cases hPath

namespace Handler

theorem fieldExpr_ok {fr : Frame} {pos : SourcePos} {account field : Text} {x : Rust.Expr}
    (hRoles : HasRolesOf fr.instruction.source fr.instruction.accounts)
    (h : fieldExpr fr pos account field = .ok x) :
    ∃ t, fr.program.fieldType? fr.instruction.source account field = some t ∧
      x = (Rust.Expr.contextField (Rust.ident account) (Rust.ident field)).owned t.kind := by
  simp only [fieldExpr] at h
  split at h
  · cases h
  · rename_i st hState
    split at h
    · cases h
    · rename_i f hField
      cases h
      refine ⟨f.type, ?_, rfl⟩
      split at hState
      · rename_i ref hRef
        change recordOf? fr.instruction.accounts account = some ref at hRef
        rw [hRoles.fieldType?_eq, hRef, Option.bind_some, hState, Option.bind_some, hField]
        rfl
      · cases hState

/-- Bytes are values in seed lists only. -/
theorem typeOf_bytesOf?_ne_ok {sc : Scope} {env : Surroundings} {about : Text} {v w : Value}
    {t : ValueType} (h : Program.bytesOf? v = some w) : sc.typeOf env about w ≠ .ok t := by
  intro hType
  cases v with
  | arg | var | field | key =>
    cases h
    simp [Scope.typeOf] at hType
  | _ => cases h

theorem lookup_of_typeOf {sc : Scope} {env : Surroundings} {about : Text} {pos : SourcePos}
    {name : Text} {t : ValueType} {locals : List (Text × ValueType)} (hLocals : sc.locals <:+ locals)
    (h : sc.typeOf env about (.var pos name false) = .ok t) : ∃ t', locals.lookup name = some t' := by
  obtain ⟨later, rfl⟩ := hLocals
  have hVar : sc.locals.lookup name = some t := by
    simp only [Scope.typeOf, Bool.false_eq_true, ↓reduceIte] at h
    split at h
    · rename_i t' hVar
      cases h
      exact hVar
    · cases h
  rw [List.lookup_append, hVar]
  cases later.lookup name with
  | none => exact ⟨t, rfl⟩
  | some t' => exact ⟨t', rfl⟩

section Leaves

variable {fr : Frame} {bound : List Text} {pos : SourcePos} {x : Rust.Expr}

theorem renders_of_exprOf_arg {id : Text} {q : Param} {isBytes : Bool} (hName : IsName id)
    (hParam : fr.instruction.source.param? id = some q) (hValue : q.type.isAccount = false)
    (h : exprOf fr bound (.arg pos id isBytes) = .ok x) :
    ∃ tree, Renders fr.program fr.instruction (.name pos id) tree ∧ x.Spells tree := by
  obtain ⟨type, hType⟩ : ∃ type, q.type.value? = some type := by
    cases hq : q.type with
    | account => simp [hq, DataType.isAccount] at hValue
    | value type => exact ⟨type, rfl⟩
  have hArg : fr.instruction.source.argType? id = some type := by
    rw [Instruction.argType?, hParam, Option.bind_some, hType]
  simp only [exprOf] at h
  rw [← Instruction.argType?, hArg] at h
  cases h
  exact ⟨_, .arg hArg, (Rust.Expr.Spells.var (Rust.isOutputName_ident hName)).owned _⟩

theorem renders_of_exprOf_var {sc : Scope} {env : Surroundings} {about id : Text} {t : ValueType}
    (hLocals : sc.locals <:+ fr.instruction.locals) (hName : IsName id)
    (hParam : fr.instruction.source.param? id = none)
    (hType : sc.typeOf env about (.var pos id false) = .ok t)
    (h : exprOf fr bound (.var pos id false) = .ok x) :
    ∃ tree, Renders fr.program fr.instruction (.name pos id) tree ∧ x.Spells tree := by
  obtain ⟨type, hLocal⟩ := lookup_of_typeOf hLocals hType
  simp only [exprOf, allowed_or_eq_ok_iff, hLocal] at h
  obtain ⟨_, h⟩ := h
  cases h
  exact ⟨_, .var hParam hLocal, (Rust.Expr.Spells.var (Rust.isOutputName_ident hName)).owned _⟩

theorem renders_of_exprOf_key {object : Syntax.Expr} {name account : Text} {isBytes : Bool}
    (hPath : (Syntax.Expr.member object pos name).path? = some [account, Text.ofString "key"])
    (hName : IsName account) (h : exprOf fr bound (.key pos account isBytes) = .ok x) :
    ∃ tree, Renders fr.program fr.instruction (.member object pos name) tree ∧ x.Spells tree := by
  simp only [exprOf] at h
  split at h
  · cases h
    exact ⟨_, .key hPath, .call (Rust.Expr.spells_contextAccount hName)
      (Rust.isOutputName_of_all rfl rfl (by decide))⟩
  · cases h

theorem renders_of_exprOf_field {object : Syntax.Expr} {name account field : Text} {isBytes : Bool}
    (hRoles : HasRolesOf fr.instruction.source fr.instruction.accounts)
    (hPath : (Syntax.Expr.member object pos name).path? = some [account, field])
    (hField : field ≠ "key") (hNames : ∀ id ∈ [account, field], IsName id)
    (h : exprOf fr bound (.field pos account field isBytes) = .ok x) :
    ∃ tree, Renders fr.program fr.instruction (.member object pos name) tree ∧ x.Spells tree := by
  obtain ⟨type, hFieldType, rfl⟩ := fieldExpr_ok hRoles h
  exact ⟨_, .field hPath hField hFieldType, (Rust.Expr.spells_contextField
    (hNames account (by simp)) (hNames field (by simp))).owned _⟩

theorem renders_of_exprOf_bump {npos : SourcePos} {account : Text}
    (hWell : (Syntax.Expr.call (.member (.name npos account) pos (Text.ofString "getBump"))
      []).WellFormed) {vpos : SourcePos} (h : exprOf fr bound (.bump vpos account) = .ok x) :
    ∃ tree, Renders fr.program fr.instruction
      (.call (.member (.name npos account) pos (Text.ofString "getBump")) []) tree ∧
        x.Spells tree := by
  cases hWell with
  | call hCallee _ =>
    cases hCallee with
    | member hObject _ =>
      cases hObject with
      | name hName =>
        simp only [exprOf, allowed_or_eq_ok_iff] at h
        obtain ⟨_, h⟩ := h
        cases h
        exact ⟨_, .bump, Rust.Expr.spells_contextBump hName⟩

end Leaves

/-- A translated value spells the rendering of the expression it stands for. -/
theorem renders_of_exprOf {c : Program.BodyContext} {fr : Frame} {bound : List Text} {sc : Scope}
    {env : Surroundings} {about : Text} {e : Syntax.Expr} {v : Value} {t : ValueType}
    {x : Rust.Expr} (hParams : c.params = fr.instruction.source.params)
    (hRoles : HasRolesOf fr.instruction.source fr.instruction.accounts)
    (hLocals : sc.locals <:+ fr.instruction.locals) (hStands : Program.StandsFor c e v)
    (hWell : e.WellFormed) (hType : sc.typeOf env about v = .ok t)
    (hExpr : exprOf fr bound v = .ok x) :
    ∃ tree, Renders fr.program fr.instruction e tree ∧ x.Spells tree := by
  have hSameParam (id : Text) : c.param? id = fr.instruction.source.param? id := by
    rw [Program.BodyContext.param?, Instruction.param?, hParams]
  induction hStands generalizing t x with
  | int =>
    cases hWell with
    | number hNumber =>
      cases hExpr
      exact ⟨_, .number, .int (Rust.beginsNumber_toLower hNumber)⟩
  | @bool pos b =>
    cases hExpr
    refine ⟨_, .bool, ?_⟩
    cases b <;> exact .bool
  | string =>
    cases hExpr
    exact ⟨_, .string, .string⟩
  | account => cases hType
  | arg hParam hValue =>
    cases hWell with
    | name hName => exact renders_of_exprOf_arg hName (hSameParam _ ▸ hParam) hValue hExpr
  | var hParam =>
    cases hWell with
    | name hName => exact renders_of_exprOf_var hLocals hName (hSameParam _ ▸ hParam) hType hExpr
  | key hPath =>
    exact renders_of_exprOf_key hPath (hWell.path?_isName hPath _ List.mem_cons_self) hExpr
  | field hPath hField =>
    exact renders_of_exprOf_field hRoles hPath hField (hWell.path?_isName hPath) hExpr
  | bump => exact renders_of_exprOf_bump hWell hExpr
  | toBytes _ hBytes => exact absurd hType (typeOf_bytesOf?_ne_ok hBytes)
  | paren _ ih =>
    cases hWell with
    | paren hInner =>
      simp only [exprOf, bind_eq_ok_iff, pure_eq_ok_iff] at hExpr
      obtain ⟨y, hExpr, rfl⟩ := hExpr
      obtain ⟨tree, hRenders, hSpells⟩ := ih hInner hType hExpr
      exact ⟨_, .paren hRenders, .paren hSpells⟩
  | neg _ ih =>
    cases hWell with
    | unary hOperand _ =>
      simp only [exprOf, bind_eq_ok_iff, pure_eq_ok_iff] at hExpr
      obtain ⟨y, hExpr, rfl⟩ := hExpr
      simp only [Scope.typeOf, bind_eq_ok_iff] at hType
      obtain ⟨type, hType, _⟩ := hType
      obtain ⟨tree, hRenders, hSpells⟩ := ih hOperand hType hExpr
      exact ⟨_, .neg hRenders, .neg hSpells⟩
  | binary hOp _ _ ihLeft ihRight =>
    cases hWell with
    | binary hLeft hRight _ _ =>
      simp only [exprOf, bind_eq_ok_iff, pure_eq_ok_iff] at hExpr
      obtain ⟨y, hLeftExpr, z, hRightExpr, rfl⟩ := hExpr
      simp only [Scope.typeOf, bind_eq_ok_iff] at hType
      obtain ⟨type, hLeftType, type', hRightType, _⟩ := hType
      obtain ⟨tree, hRenders, hSpells⟩ := ihLeft hLeft hLeftType hLeftExpr
      obtain ⟨tree', hRenders', hSpells'⟩ := ihRight hRight hRightType hRightExpr
      exact ⟨_, .binary hOp hRenders hRenders', .binary hSpells hSpells'⟩

end Handler

end AnchorScript
