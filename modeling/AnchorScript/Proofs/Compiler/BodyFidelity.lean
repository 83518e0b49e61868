import AnchorScript.Proofs.Handler.Expressions
import AnchorScript.Proofs.Handler.Statements
import AnchorScript.Proofs.Syntax.Files

/-!
# Bodies are kept

The body of a handler has one statement for each assignment, declaration and cross-program call of
its method, in order, and the text it computes each value with is read as the tree of the source's
expression.
-/

namespace AnchorScript

open Outcome

/-- The text of the expression is read as the one tree that the source's expression renders to. -/
def ReadAs (p : Program) (i : ResolvedInstruction) (e : Syntax.Expr) (x : Rust.Expr) : Prop :=
  ∃ t, Rust.read x.text = some t ∧ ∀ u, Renders p i e u ↔ u = t

/-- A statement of the method and the handler's statement for it. -/
inductive Corresponds (p : Program) (i : ResolvedInstruction) :
    Syntax.Statement → HandlerStmt → Prop
  | write {pos : SourcePos} {target value : Syntax.Expr} {account field : Text}
      {place x : Rust.Expr} (hTarget : target.path? = some [account, field])
      (hPlace : Rust.read place.text = some (.contextField account field))
      (hValue : ReadAs p i value x) :
      Corresponds p i (.expr pos (.assign target value)) (.write place x)
  | bind {pos : SourcePos} {kind : Syntax.BindingKind} {name : Text}
      {type : Option Syntax.TypeRef} {value : Syntax.Expr} {declared : Option Text}
      {x : Rust.Expr} (hType : declared.isSome = type.isSome) (hValue : ReadAs p i value x) :
      Corresponds p i (.binding pos kind name type value)
        (.bind (Rust.ident name) (kind = .letting) declared x)
  | invoke {s : Syntax.Statement} {k : Program.CallKind} {args : List Syntax.Expr}
      {names : List Text} {amount : Syntax.Expr} {inv : Invocation}
      (hCall : s.crossProgramCall? = some (k, args))
      (hParties : List.Forall₂ (fun e n => Program.accountName? e = some n)
        (args.take k.parties) names)
      (hAction : inv.action = k.action (names.getD 0 []) (names.getD 1 []) (names.getD 2 []))
      (hAmount : args[k.parties]? = some amount) (hValue : ReadAs p i amount inv.amount) :
      Corresponds p i s (.invoke inv)

/-- The value that the handler's statement is computed with. -/
def Statement.value? : Statement → Option Value
  | .assign _ a => some a.value
  | .bind _ l => some l.value
  | .call _ c => some c.amount
  | .derive .. | .close .. => none

theorem Scope.Step.exists_typeOf {env : Surroundings} {index : Nat} {sc sc' : Scope} {s : Statement}
    {v : Value} (h : Step env index sc s sc') (hValue : s.value? = some v) :
    ∃ about t, sc.typeOf env about v = .ok t := by
  cases h with
  | assign _ hType =>
    cases hValue
    exact ⟨_, _, hType⟩
  | bind hFound =>
    cases hValue
    exact ⟨_, _, hFound⟩
  | call _ _ hAmount =>
    cases hValue
    obtain ⟨t, hType, _⟩ := bind_eq_ok_iff.mp hAmount
    exact ⟨_, t, hType⟩
  | derive => cases hValue
  | close => cases hValue

section Instruction

variable {p : Program} {i : Instruction} {r : ResolvedInstruction} {c : Program.BodyContext}

theorem exists_typeOf_of_getElem? (h : Resolution.resolveInstruction p i = .ok r) {index : Nat}
    {s : Statement} {v : Value} (hIndex : i.body[index]? = some s) (hValue : s.value? = some v) :
    ∃ sc about t, sc.locals <:+ r.locals ∧ Scope.typeOf sc ⟨p, i⟩ about v = .ok t := by
  obtain ⟨before, after, hBody, rfl⟩ := exists_split_of_getElem? hIndex
  obtain ⟨sc, hRun, rfl⟩ := Resolution.run_of_resolveInstruction h
  rw [hBody] at hRun
  obtain ⟨sc₁, sc₂, _, hStep, hAfter⟩ := hRun.split
  obtain ⟨about, t, hType⟩ := hStep.exists_typeOf hValue
  have hHere : Scope.Run ⟨p, i⟩ (0 + before.length) sc₁ (s :: after) sc := .cons hStep hAfter
  exact ⟨sc₁, about, t, hHere.locals_suffix, hType⟩

/-- A value is printed as the tree of its expression, which needs no brackets but its own. -/
theorem spells_of_exprOf (hi : i.DistinctParams) (h : Resolution.resolveInstruction p i = .ok r)
    (hParams : c.params = i.params) {index : Nat} {s : Statement} {v : Value}
    (hIndex : i.body[index]? = some s) (hValue : s.value? = some v) {e : Syntax.Expr}
    (hStands : Program.StandsFor c e v) (hWell : e.WellFormed) {bound : List Text} {x : Rust.Expr}
    (hExpr : Handler.exprOf ⟨p, r⟩ bound v = .ok x) :
    ∃ tree, Renders p r e tree ∧ x.Spells tree ∧ tree.Grouped := by
  obtain ⟨sc, about, t, hLocals, hType⟩ := exists_typeOf_of_getElem? h hIndex hValue
  have hRoles := Resolution.hasRolesOf_of_resolveInstruction hi h
  obtain rfl := Resolution.source_of_resolveInstruction h
  obtain ⟨tree, hRenders, hSpells⟩ : ∃ tree, Renders p r e tree ∧ x.Spells tree :=
    Handler.renders_of_exprOf hParams hRoles hLocals hStands hWell hType hExpr
  exact ⟨tree, hRenders, hSpells, (hRenders.grouped hWell).1⟩

theorem readAs_of_exprOf (hi : i.DistinctParams) (h : Resolution.resolveInstruction p i = .ok r)
    (hParams : c.params = i.params) {index : Nat} {s : Statement} {v : Value}
    (hIndex : i.body[index]? = some s) (hValue : s.value? = some v) {e : Syntax.Expr}
    (hStands : Program.StandsFor c e v) (hWell : e.WellFormed) {bound : List Text} {x : Rust.Expr}
    (hExpr : Handler.exprOf ⟨p, r⟩ bound v = .ok x) : ReadAs p r e x := by
  obtain ⟨tree, hRenders, hSpells, hGrouped⟩ :=
    spells_of_exprOf hi h hParams hIndex hValue hStands hWell hExpr
  refine ⟨tree, hSpells.read_text hGrouped, fun u => ⟨fun hu => ?_, ?_⟩⟩
  · exact hu.unique hRenders
  · rintro rfl
    exact hRenders

theorem accountName?_of_partyNames {k : Program.CallKind} {n : Nat} {es : List Syntax.Expr}
    {names : List Text} (h : Program.partyNames c k n es = .ok names) :
    List.Forall₂ (fun e name => Program.accountName? e = some name) es names := by
  induction es generalizing n names with
  | nil =>
    cases h
    exact .nil
  | cons e es ih =>
    unfold Program.partyNames at h
    split at h
    · cases h
    · rename_i name hName
      simp only [bind_eq_ok_iff, pure_eq_ok_iff] at h
      obtain ⟨rest, hRest, rfl⟩ := h
      exact .cons hName (ih hRest)

theorem isSome_of_declaredType {name : Text} {type : Option Syntax.TypeRef}
    {declared : Option DataType} (h : Program.declaredType c name type = .ok declared) :
    declared.isSome = type.isSome := by
  unfold Program.declaredType at h
  split at h
  · cases h
    rfl
  · split at h
    · cases h
      rfl
    · cases h

theorem corresponds_of_carriedOut (hi : i.DistinctParams)
    (h : Resolution.resolveInstruction p i = .ok r) (hParams : c.params = i.params)
    {names : Handler.Names} {s : Syntax.Statement} {t : HandlerStmt} (hWell : s.WellFormed)
    (hCarried : Handler.CarriedOut c ⟨p, r⟩ names s t) : Corresponds p r s t := by
  have hSource : r.source = i := Resolution.source_of_resolveInstruction h
  obtain ⟨st, index, hExtracts, hIndex, hTranslates⟩ := hCarried
  change r.source.body[index]? = some st at hIndex
  rw [hSource] at hIndex
  cases hTranslates with
  | write hExpr =>
    cases hExtracts with
    | @assign _ _ _ account field _ hTarget hValue =>
      cases hWell _ List.mem_cons_self with
      | assign hTargetWell hValueWell =>
        have hWords := hTargetWell.path?_isName hTarget
        have hPlace := Rust.Expr.spells_contextField (hWords account (by simp))
          (hWords field (by simp))
        refine .write hTarget (hPlace.read_text ?_) ?_
        · exact .member (Rust.Tree.contextAccount_grouped _) rfl
        · exact readAs_of_exprOf hi h hParams hIndex rfl (Program.standsFor_of_valueOf hValue)
            hValueWell hExpr
  | bind hExpr =>
    cases hExtracts with
    | bind _ hValue hDeclared =>
      refine .bind ?_ ?_
      · rw [Option.isSome_map, isSome_of_declaredType hDeclared]
      · exact readAs_of_exprOf hi h hParams hIndex rfl (Program.standsFor_of_valueOf hValue)
          (hWell _ List.mem_cons_self) hExpr
  | @invoke generated bound pos call inv hInvocation =>
    cases hExtracts with
    | @call _ _ _ _ _ k args _ hKind hCall =>
      cases hWell _ List.mem_cons_self with
      | call _ hArgs =>
        obtain ⟨parties, amount, rest, hDrop, _, hParties, hAction, hValue, _⟩ :=
          Program.crossProgramCall_ok hCall
        have hAmount : args[k.parties]? = some amount := by
          rw [← List.head?_drop, hDrop]
          rfl
        simp only [Handler.invocation, bind_eq_ok_iff, pure_eq_ok_iff] at hInvocation
        obtain ⟨x, hExpr, rfl⟩ := hInvocation
        refine .invoke ?_ (accountName?_of_partyNames hParties) hAction hAmount ?_
        · rw [Syntax.Statement.crossProgramCall?, hKind]
          rfl
        · exact readAs_of_exprOf hi h hParams hIndex rfl (Program.standsFor_of_valueOf hValue)
            (hArgs amount (List.mem_of_getElem? hAmount)) hExpr

end Instruction

/-- The handler of a method carries out its body. -/
structure BodyKept (p : Program) (m : Syntax.MethodDecl) (i : ResolvedInstruction) (h : Handler) :
    Prop where
  name : h.name = Rust.ident m.name
  body : List.Forall₂ (Corresponds p i) (m.body.filter (·.isCarriedOut)) h.body

/-- Each statement of a handler carries out one of its method, in order. -/
theorem Translated.carriedOut {o : CompileOptions} {file : Text} {p : Program}
    {m : Syntax.MethodDecl} {r : ResolvedInstruction} {t : Handler} (h : Translated o file p m r t) :
    ∃ names, List.Forall₂ (Handler.CarriedOut (Program.bodyContext file o.settings r.source) ⟨p, r⟩
      names) (m.body.filter (·.isCarriedOut)) t.body := by
  have hHandler := h.handler
  simp only [Handler.ofInstruction, bind_eq_ok_iff, pure_eq_ok_iff] at hHandler
  obtain ⟨_, _, names, _, body, hBody, rfl⟩ := hHandler
  exact ⟨names, Handler.carriedOut_of_stmtsOf h.extracted.body hBody⟩

theorem bodyKept_of_translated {o : CompileOptions} {file : Text} {p : Program}
    {m : Syntax.MethodDecl} {r : ResolvedInstruction} {t : Handler}
    (hWell : ∀ s ∈ m.body, s.WellFormed) (h : Translated o file p m r t) : BodyKept p m r t := by
  obtain ⟨names, hCarried⟩ := h.carriedOut
  constructor
  · rw [(Handler.heading_of_ofInstruction h.handler).1, ← h.extracted.name]
  · have hWellCarried := (List.forall₂_and_left _ _).mpr
      ⟨fun s hs => hWell s (List.mem_filter.mp hs).1, hCarried⟩
    exact hWellCarried.imp fun s t hst =>
      corresponds_of_carriedOut h.extracted.params h.resolved rfl hst.1 hst.2

/-- Handlers preserve the bodies of the source: methods, resolved instructions and handlers
correspond one to one, and each handler carries out the body of its method. -/
theorem handlers_bodyKept {o : CompileOptions} {name src : Text} {r : ResolvedProgram}
    {hs : List Handler} (h : resolveSource o name src = .ok r) (hHandlers : r.handlers = .ok hs) :
    ∃ f cls, Syntax.parse name src = .ok f ∧ Program.programClass name f.classes = .ok cls ∧
      r.instructions.length = hs.length ∧
      List.Forall₂ (fun m it => BodyKept r.source m it.1 it.2) cls.methods
        (r.instructions.zip hs) := by
  obtain ⟨f, cls, hParsed, hClass, hLength, hTranslated⟩ := translated_of_handlers h hHandlers
  have hWell := Syntax.parse_wellFormed hParsed cls (Program.mem_of_programClass hClass)
  refine ⟨f, cls, hParsed, hClass, hLength, ?_⟩
  refine ((List.forall₂_and_left _ _).mpr ⟨hWell, hTranslated⟩).imp ?_
  rintro m ⟨i, t⟩ ⟨hBody, hMethod⟩
  exact bodyKept_of_translated hBody hMethod

/-- A program that declares a variable, writes a field and calls another program. -/
def counterSource : Text :=
  "export default class P \x7b
static PROGRAM_ID = new Pubkey('11111111111111111111111111111111')
run(a: Signer, s: Counter, n: u64) \x7b
const k = n - 2 * (n - 1)
s.count = -1 + s.count % 7
SystemProgram.transfer(a, a, k + n)
\x7d\x7d
export interface Counter extends Account \x7b count: i64 \x7d"

def hasThreeStatements (hs : List Handler) : Bool := hs.any (·.body.length = 3)

set_option maxRecDepth 4000 in
theorem counterSource_bodyKept : ∃ r hs, resolveSource {} "c.ts" counterSource = .ok r ∧
    r.handlers = .ok hs ∧ hasThreeStatements hs = true ∧
    ∃ f cls, Syntax.parse "c.ts" counterSource = .ok f ∧
      Program.programClass "c.ts" f.classes = .ok cls ∧
      List.Forall₂ (fun m it => BodyKept r.source m it.1 it.2) cls.methods
        (r.instructions.zip hs) := by
  have hText : counterSource = _ := Text.ofString_literal rfl
  obtain ⟨r, hr, hCheck⟩ := exists_ok_of_any (x := resolveSource {} "c.ts" counterSource)
    (fun r => r.handlers.toOption.any hasThreeStatements) (by rw [hText]; decide +kernel)
  obtain ⟨hs, hHandlers, hThree⟩ := exists_ok_of_any hasThreeStatements hCheck
  obtain ⟨f, cls, hf, hClass, _, hKept⟩ := handlers_bodyKept hr hHandlers
  exact ⟨r, hs, hr, hHandlers, hThree, f, cls, hf, hClass, hKept⟩

end AnchorScript
