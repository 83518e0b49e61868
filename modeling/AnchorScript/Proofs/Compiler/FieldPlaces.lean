import AnchorScript.Proofs.Compiler.BodyFidelity

/-!
# Places of state fields

An assignment to `a.f` writes `ctx.accounts.a.f`. A read of `a.f`, anywhere in an assigned value, in
the value of a variable or in the amount of a call, reads the same place at the declared type of the
field, unless the field is named `key`: then it reads the address of the account.
-/

namespace AnchorScript

open Outcome

/-- The literals, paths and calls that an expression is built from with operators and brackets. -/
def Syntax.Expr.leaves : Syntax.Expr → List Syntax.Expr
  | .paren _ e | .unary _ _ e => e.leaves
  | .binary _ l r => l.leaves ++ r.leaves
  | e => [e]

def Rust.Expr.leaves : Rust.Expr → List Rust.Expr
  | .paren e | .neg e => e.leaves
  | .binary _ l r => l.leaves ++ r.leaves
  | e => [e]

theorem Rust.Expr.leaves_owned {e : Rust.Expr} (h : e.leaves = [e]) (kind : ValueKind) :
    (e.owned kind).leaves = [e.owned kind] := by
  cases kind with
  | string => rfl
  | _ => exact h

/-- The expression that is assigned, bound or transferred. -/
def Syntax.Statement.computed? : Syntax.Statement → Option Syntax.Expr
  | .expr _ (.assign _ value) | .binding _ _ _ _ value => some value
  | s => s.crossProgramCall?.bind fun (k, args) => args[k.parties]?

def HandlerStmt.computed : HandlerStmt → Rust.Expr
  | .write _ value | .bind _ _ _ value => value
  | .invoke i => i.amount

namespace Handler

/-- The expression becomes `x`, and resolution finds it to be of this type. -/
def Checked (c : Program.BodyContext) (fr : Frame) (sc : Scope) (e : Syntax.Expr) (x : Rust.Expr)
    (t : ValueType) : Prop :=
  ∃ v about bound, Program.valueOf c e = .ok v ∧
    sc.typeOf ⟨fr.program, fr.instruction.source⟩ about v = .ok t ∧ exprOf fr bound v = .ok x

/-- What a read of a state field becomes, and the type it is checked with. -/
def ReadsField (c : Program.BodyContext) (fr : Frame) (sc : Scope) (e : Syntax.Expr)
    (x : Rust.Expr) : Prop :=
  ∀ account field t, e.path? = some [account, field] →
    fr.program.fieldType? fr.instruction.source account field = some t →
    if field = "key" then
      x = (Rust.Expr.contextAccount (Rust.ident account)).call "key" ∧ Checked c fr sc e x .pubkey
    else
      x = (Rust.Expr.contextField (Rust.ident account) (Rust.ident field)).owned t.kind ∧
        Checked c fr sc e x t

/-- What a statement resolved in this scope writes and reads. -/
structure PlacedIn (c : Program.BodyContext) (fr : Frame) (sc : Scope) (s : Syntax.Statement)
    (h : HandlerStmt) : Prop where
  written : ∀ pos target value account field, s = .expr pos (.assign target value) →
    target.path? = some [account, field] → ∃ x t source,
      h = .write (.contextField (Rust.ident account) (Rust.ident field)) x ∧
      fr.program.fieldType? fr.instruction.source account field = some t ∧
      Checked c fr sc value x source ∧ t.accepts source = true
  read : ∃ e t, s.computed? = some e ∧ Checked c fr sc e h.computed t ∧
    List.Forall₂ (ReadsField c fr sc) e.leaves h.computed.leaves

/-- The statement is one of the body, resolved in the scope that those before it leave. -/
def Placed (c : Program.BodyContext) (fr : Frame) (s : Syntax.Statement) (h : HandlerStmt) : Prop :=
  ∃ index st sc, Program.Extracts c s st ∧ fr.instruction.source.body[index]? = some st ∧
    (Scope.initial fr.instruction.source).resolveBody ⟨fr.program, fr.instruction.source⟩ 0
      (fr.instruction.source.body.take index) = .ok sc ∧ PlacedIn c fr sc s h

section Reads

variable {c : Program.BodyContext} {fr : Frame} {sc : Scope} {e : Syntax.Expr} {v : Value}
  {t : ValueType} {x : Rust.Expr} {about : Text} {bound : List Text}

/-- Only paths of two names read fields. -/
theorem readsField_of_path? (h : ∀ account field, e.path? ≠ some [account, field]) :
    ReadsField c fr sc e x :=
  fun account field _ hPath => (h account field hPath).elim

theorem readsField_key {object : Syntax.Expr} {pos : SourcePos} {name account : Text}
    (hPath : (Syntax.Expr.member object pos name).path? = some [account, Text.ofString "key"])
    (hType : sc.typeOf ⟨fr.program, fr.instruction.source⟩ about
      (.key (Syntax.Expr.member object pos name).pos account false) = .ok t)
    (hExpr : exprOf fr bound (.key (Syntax.Expr.member object pos name).pos account false) = .ok x) :
    ReadsField c fr sc (.member object pos name) x ∧ x.leaves = [x] := by
  have hPlace : x = (Rust.Expr.contextAccount (Rust.ident account)).call "key" := by
    simp only [exprOf] at hExpr
    split at hExpr
    · exact (Except.ok.inj hExpr).symm
    · cases hExpr
  have hKey : t = .pubkey := by
    simp only [Scope.typeOf, Bool.false_eq_true, ↓reduceIte] at hType
    split at hType
    · exact (Except.ok.inj hType).symm
    · cases hType
  constructor
  · intro account' field t' hPath' _
    rw [hPath] at hPath'
    cases hPath'
    rw [if_pos rfl]
    subst hKey
    refine ⟨hPlace, _, about, bound, ?_, hType, hExpr⟩
    simp only [Program.valueOf, Program.memberValue, hPath, ↓reduceIte]
  · rw [hPlace]
    rfl

theorem readsField_field {object : Syntax.Expr} {pos : SourcePos} {name account field : Text}
    (hRoles : HasRolesOf fr.instruction.source fr.instruction.accounts)
    (hScope : HasRolesOf fr.instruction.source sc.accounts)
    (hPath : (Syntax.Expr.member object pos name).path? = some [account, field])
    (hField : field ≠ "key")
    (hType : sc.typeOf ⟨fr.program, fr.instruction.source⟩ about
      (.field (Syntax.Expr.member object pos name).pos account field false) = .ok t)
    (hExpr : exprOf fr bound
      (.field (Syntax.Expr.member object pos name).pos account field false) = .ok x) :
    ReadsField c fr sc (.member object pos name) x ∧ x.leaves = [x] := by
  obtain ⟨declared, hDeclared, rfl⟩ := fieldExpr_ok hRoles hExpr
  have hSame : t = declared := by
    have hTyped := hType
    simp only [Scope.typeOf, Bool.false_eq_true, ↓reduceIte, Scope.fieldType, bind_eq_ok_iff,
      refused_or_eq_ok_iff, pure_eq_ok_iff] at hTyped
    obtain ⟨f, hf, _, rfl⟩ := hTyped
    exact Option.some.inj ((Scope.stateField_ok hScope hf).symm.trans hDeclared)
  constructor
  · intro account' field' t' hPath' hDeclared'
    rw [hPath] at hPath'
    cases hPath'
    obtain rfl := Option.some.inj (hDeclared.symm.trans hDeclared')
    rw [if_neg hField]
    subst hSame
    refine ⟨rfl, _, about, bound, ?_, hType, hExpr⟩
    simp only [Program.valueOf, Program.memberValue, hPath, hField, ↓reduceIte]
  · exact Rust.Expr.leaves_owned rfl _

/-- The leaves of a checked expression become the leaves of its translation, one by one. -/
theorem readsField_of_standsFor
    (hRoles : HasRolesOf fr.instruction.source fr.instruction.accounts)
    (hScope : HasRolesOf fr.instruction.source sc.accounts) (h : Program.StandsFor c e v)
    (hType : sc.typeOf ⟨fr.program, fr.instruction.source⟩ about v = .ok t)
    (hExpr : exprOf fr bound v = .ok x) :
    List.Forall₂ (ReadsField c fr sc) e.leaves x.leaves := by
  have hLeaf {e : Syntax.Expr} {x : Rust.Expr} (he : e.leaves = [e])
      (hRead : ReadsField c fr sc e x ∧ x.leaves = [x]) :
      List.Forall₂ (ReadsField c fr sc) e.leaves x.leaves := by
    rw [he, hRead.2]
    exact .cons hRead.1 .nil
  induction h generalizing t x with
  | int | bool | string =>
    cases hExpr
    exact hLeaf rfl ⟨readsField_of_path? (by rintro _ _ ⟨⟩), rfl⟩
  | account => cases hType
  | arg | var =>
    refine hLeaf rfl ⟨readsField_of_path? (by rintro _ _ ⟨⟩), ?_⟩
    simp only [exprOf] at hExpr
    grind [Rust.Expr.leaves_owned, Rust.Expr.leaves]
  | key hPath => exact hLeaf rfl (readsField_key hPath hType hExpr)
  | field hPath hField => exact hLeaf rfl (readsField_field hRoles hScope hPath hField hType hExpr)
  | bump =>
    simp only [exprOf, allowed_or_eq_ok_iff] at hExpr
    obtain ⟨_, hExpr⟩ := hExpr
    cases hExpr
    exact hLeaf rfl ⟨readsField_of_path? (by rintro _ _ ⟨⟩), rfl⟩
  | toBytes _ hBytes => exact (typeOf_bytesOf?_ne_ok hBytes hType).elim
  | paren _ ih =>
    simp only [exprOf, bind_eq_ok_iff, pure_eq_ok_iff] at hExpr
    obtain ⟨y, hExpr, rfl⟩ := hExpr
    exact ih (x := y) hType hExpr
  | neg _ ih =>
    simp only [exprOf, bind_eq_ok_iff, pure_eq_ok_iff] at hExpr
    obtain ⟨y, hExpr, rfl⟩ := hExpr
    simp only [Scope.typeOf, bind_eq_ok_iff] at hType
    obtain ⟨_, hType, _⟩ := hType
    exact ih (x := y) hType hExpr
  | binary _ _ _ ihLeft ihRight =>
    simp only [exprOf, bind_eq_ok_iff, pure_eq_ok_iff] at hExpr
    obtain ⟨y, hLeft, z, hRight, rfl⟩ := hExpr
    simp only [Scope.typeOf, bind_eq_ok_iff] at hType
    obtain ⟨_, hLeftType, _, hRightType, _⟩ := hType
    exact List.rel_append (ihLeft (x := y) hLeftType hLeft) (ihRight (x := z) hRightType hRight)

end Reads

section Statements

variable {p : Program} {r : ResolvedInstruction} {c : Program.BodyContext} {sc sc' : Scope}
  {index : Nat} {s : Syntax.Statement} {st : Statement} {h : HandlerStmt} {names : Names}

theorem exists_scope_of_getElem? (hResolved : Resolution.resolveInstruction p r.source = .ok r)
    (hIndex : r.source.body[index]? = some st) :
    ∃ sc sc', (Scope.initial r.source).resolveBody ⟨p, r.source⟩ 0 (r.source.body.take index) =
      .ok sc ∧ Scope.Step ⟨p, r.source⟩ index sc st sc' := by
  obtain ⟨before, after, hBody, rfl⟩ := exists_split_of_getElem? hIndex
  obtain ⟨_, last, hLast, _⟩ := Resolution.resolveInstruction_eq_ok_iff.mp hResolved
  rw [hBody] at hLast
  obtain ⟨sc, sc', hBefore, hHere, _⟩ := Scope.resolveBody_append_cons_eq_ok hLast
  rw [hBody, List.take_left]
  rw [Nat.zero_add] at hHere
  exact ⟨sc, sc', hBefore, Scope.step_of_resolveStatement hHere⟩

theorem placedIn_of_step (hRoles : HasRolesOf r.source r.accounts)
    (hScope : HasRolesOf r.source sc.accounts) (hExtracts : Program.Extracts c s st)
    (hStep : Scope.Step ⟨p, r.source⟩ index sc st sc')
    (hTranslates : Translates ⟨p, r⟩ names index st h) : PlacedIn c ⟨p, r⟩ sc s h := by
  cases hTranslates with
  | @write bound _ _ x hExpr =>
    cases hExtracts with
    | @assign _ target value account field v hTarget hValue =>
      cases hStep with
      | @assign _ _ found source hFound hType hAccepts =>
        have hChecked : Checked c ⟨p, r⟩ sc value x source :=
          ⟨v, account, bound, hValue, hType, hExpr⟩
        constructor
        · rintro _ _ _ account' field' ⟨⟩ hTarget'
          rw [hTarget] at hTarget'
          cases hTarget'
          exact ⟨x, found.type, source, rfl, Scope.stateField_ok hScope hFound, hChecked, hAccepts⟩
        · exact ⟨value, source, rfl, hChecked, readsField_of_standsFor hRoles hScope
            (Program.standsFor_of_valueOf hValue) hType hExpr⟩
  | @bind bound _ _ x hExpr =>
    cases hExtracts with
    | @bind _ _ _ _ value v _ _ hValue =>
      cases hStep with
      | @bind _ _ found _ _ hType =>
        constructor
        · rintro _ _ _ _ _ ⟨⟩
        · exact ⟨value, found, rfl, ⟨v, [], bound, hValue, hType, hExpr⟩,
            readsField_of_standsFor hRoles hScope (Program.standsFor_of_valueOf hValue) hType hExpr⟩
  | @invoke generated bound _ _ inv hInvocation =>
    cases hExtracts with
    | @call _ _ _ _ _ k args call hKind hCall =>
      cases hStep with
      | call _ _ hAmount =>
        obtain ⟨_, amount, rest, hDrop, _, _, _, hValue, _⟩ := Program.crossProgramCall_ok hCall
        have hArg : args[k.parties]? = some amount := by
          rw [← List.head?_drop, hDrop]
          rfl
        obtain ⟨t, hType, _⟩ := bind_eq_ok_iff.mp hAmount
        simp only [invocation, bind_eq_ok_iff, pure_eq_ok_iff] at hInvocation
        obtain ⟨x, hExpr, rfl⟩ := hInvocation
        constructor
        · rintro _ _ _ _ _ ⟨⟩
        · refine ⟨amount, t, ?_, ⟨_, _, bound, hValue, hType, hExpr⟩, readsField_of_standsFor hRoles
            hScope (Program.standsFor_of_valueOf hValue) hType hExpr⟩
          simp only [Syntax.Statement.computed?, Syntax.Statement.crossProgramCall?, hKind]
          exact hArg

theorem placed_of_carriedOut (hi : r.source.DistinctParams)
    (hResolved : Resolution.resolveInstruction p r.source = .ok r)
    (hCarried : CarriedOut c ⟨p, r⟩ names s h) : Placed c ⟨p, r⟩ s h := by
  obtain ⟨st, index, hExtracts, hIndex, hTranslates⟩ := hCarried
  obtain ⟨sc, sc', hBefore, hStep⟩ := exists_scope_of_getElem? hResolved hIndex
  have hRoles := Resolution.hasRolesOf_of_resolveInstruction hi hResolved
  have hScope := (Scope.run_of_resolveBody hBefore).hasRolesOf (.initial hi)
  exact ⟨index, st, sc, hExtracts, hIndex, hBefore,
    placedIn_of_step hRoles hScope hExtracts hStep hTranslates⟩

end Statements

end Handler

/-- In every body a field is read at the place where it is assigned, and both are checked at the type
it is declared with; a field named `key` is assigned like any other and read as an address. -/
theorem handlers_fields_placed {o : CompileOptions} {name src : Text} {r : ResolvedProgram}
    {hs : List Handler} (h : resolveSource o name src = .ok r) (hHandlers : r.handlers = .ok hs) :
    ∃ f cls, Syntax.parse name src = .ok f ∧ Program.programClass name f.classes = .ok cls ∧
      r.instructions.length = hs.length ∧
      List.Forall₂ (fun m it => List.Forall₂
          (Handler.Placed (Program.bodyContext name o.settings it.1.source) ⟨r.source, it.1⟩)
          (m.body.filter (·.isCarriedOut)) it.2.body)
        cls.methods (r.instructions.zip hs) := by
  obtain ⟨f, cls, hParsed, hClass, hLength, hTranslated⟩ := translated_of_handlers h hHandlers
  refine ⟨f, cls, hParsed, hClass, hLength, hTranslated.imp ?_⟩
  rintro m ⟨i, t⟩ hMethod
  have hHandler := hMethod.handler
  simp only [Handler.ofInstruction, bind_eq_ok_iff, pure_eq_ok_iff] at hHandler
  obtain ⟨_, _, names, _, body, hBody, rfl⟩ := hHandler
  have hCarried : List.Forall₂ (Handler.CarriedOut (Program.bodyContext name o.settings i.source)
      ⟨r.source, i⟩ names) (m.body.filter (·.isCarriedOut)) body :=
    Handler.carriedOut_of_stmtsOf hMethod.extracted.body hBody
  exact hCarried.imp fun s h =>
    Handler.placed_of_carriedOut hMethod.extracted.params hMethod.resolved

/-- A state with a field named `key`, which is assigned and then read. -/
def keyFieldSource : Text :=
  "export default class P \x7b
static PROGRAM_ID = new Pubkey('11111111111111111111111111111111')
run(a: Signer, s: Lock) \x7b
s.key = a.key
s.holder = s.key
s.count = s.count + 1
\x7d\x7d
export interface Lock extends Account \x7b key: Pubkey; holder: Pubkey; count: u64 \x7d"

/-- What the handlers of the source assign, and where. -/
def keyFieldWrites : List (Rust.Expr × Rust.Expr) :=
  [(.contextField "s" "key", (Rust.Expr.contextAccount "a").call "key"),
   (.contextField "s" "holder", (Rust.Expr.contextAccount "s").call "key"),
   (.contextField "s" "count", .binary .add (.contextField "s" "count") (.int "1"))]

def HandlerStmt.write? : HandlerStmt → Option (Rust.Expr × Rust.Expr)
  | .write place value => some (place, value)
  | _ => none

set_option maxRecDepth 4000 in
theorem keyFieldSource_fields_placed : ∃ r hs,
    resolveSource {} "k.ts" keyFieldSource = .ok r ∧ r.handlers = .ok hs ∧
    hs.flatMap (·.body.filterMap (·.write?)) = keyFieldWrites ∧
    ∃ f cls, Syntax.parse "k.ts" keyFieldSource = .ok f ∧
      Program.programClass "k.ts" f.classes = .ok cls ∧
      List.Forall₂ (fun m it => List.Forall₂
          (Handler.Placed (Program.bodyContext "k.ts" ({} : CompileOptions).settings it.1.source)
            ⟨r.source, it.1⟩)
          (m.body.filter (·.isCarriedOut)) it.2.body)
        cls.methods (r.instructions.zip hs) := by
  have hText : keyFieldSource = _ := Text.ofString_literal rfl
  obtain ⟨r, hr, hCheck⟩ := exists_ok_of_any (x := resolveSource {} "k.ts" keyFieldSource)
    (fun r => r.handlers.toOption.any fun hs =>
      hs.flatMap (·.body.filterMap (·.write?)) = keyFieldWrites) (by rw [hText]; decide +kernel)
  obtain ⟨hs, hHandlers, hWrites⟩ := exists_ok_of_any _ hCheck
  obtain ⟨f, cls, hf, hClass, _, hPlaced⟩ := handlers_fields_placed hr hHandlers
  exact ⟨r, hs, hr, hHandlers, of_decide_eq_true hWrites, f, cls, hf, hClass, hPlaced⟩

end AnchorScript
