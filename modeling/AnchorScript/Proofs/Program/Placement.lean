import AnchorScript.Proofs.Program.Extraction
import AnchorScript.Proofs.Syntax.Placement

/-!
# Programs without their places

A file and the file without its places and its name declare the same program, up to places, or are
refused on the same subject.
-/

namespace AnchorScript

open Outcome

/-- What a diagnostic says besides its place and its wording. -/
def Diagnostic.subject (d : Diagnostic) : Diagnostic.Kind × Text × Text × Text :=
  (d.kind, d.instruction, d.account, d.field)

/-- Both computations fail on one subject, or both succeed and `g` takes the first result to the
second. -/
def Steady {α β : Type} (g : α → β) (x : Except Diagnostic α) (x' : Except Diagnostic β) : Prop :=
  Agree (fun d d' => d'.subject = d.subject) (fun a a' => a' = g a) x x'

namespace Steady

variable {α β γ δ : Type} {g : α → β} {k : γ → δ}

theorem ok {a : α} : Steady g (.ok a) (.ok (g a)) := Agree.ok rfl

theorem error {d d' : Diagnostic} (h : d'.subject = d.subject) :
    Steady g (.error d) (.error d') :=
  Agree.error h

theorem bind {x : Except Diagnostic α} {x' : Except Diagnostic β} {f : α → Except Diagnostic γ}
    {f' : β → Except Diagnostic δ} (h : Steady g x x')
    (hNext : ∀ a, Steady k (f a) (f' (g a))) : Steady k (x >>= f) (x' >>= f') := by
  refine Agree.bind h ?_
  rintro a _ rfl
  exact hNext a

theorem ite {p q : Prop} [Decidable p] [Decidable q] {x y : Except Diagnostic α}
    {x' y' : Except Diagnostic β} (h : q ↔ p) (hThen : Steady g x x') (hElse : Steady g y y') :
    Steady g (if p then x else y) (if q then x' else y') :=
  Agree.ite h hThen hElse

theorem withField {x : Except Diagnostic α} {x' : Except Diagnostic β} (h : Steady g x x')
    (field : Text) :
    Steady g (x.mapError (·.withField field)) (x'.mapError (·.withField field)) := by
  refine Agree.mapError h fun d d' hSame => ?_
  simp only [Diagnostic.subject, Prod.mk.injEq] at hSame
  simp only [Diagnostic.subject, Diagnostic.withField, hSame]

theorem mapM {f : α → Except Diagnostic γ} {f' : β → Except Diagnostic δ}
    (h : ∀ a, Steady k (f a) (f' (g a))) (as : List α) :
    Steady (List.map k) (as.mapM f) ((as.map g).mapM f') := by
  induction as with
  | nil => exact .ok
  | cons a as ih =>
    rw [List.map_cons, List.mapM_cons, List.mapM_cons]
    exact .bind (h a) fun c => .bind ih fun cs => .ok

theorem forM {f f' : α → Except Diagnostic PUnit} (h : ∀ a, Steady id (f a) (f' a))
    (as : List α) : Steady id (as.forM f) (as.forM f') := by
  induction as with
  | nil => exact .ok
  | cons a as ih =>
    exact .bind (h a) fun _ => ih

end Steady

def Value.unplaced : Value → Value
  | .int _ literal => .int nowhere literal
  | .bool _ value => .bool nowhere value
  | .string _ value => .string nowhere value
  | .arg _ n asBytes => .arg nowhere n asBytes
  | .var _ n asBytes => .var nowhere n asBytes
  | .account _ a => .account nowhere a
  | .key _ a asBytes => .key nowhere a asBytes
  | .field _ a f asBytes => .field nowhere a f asBytes
  | .bump _ a => .bump nowhere a
  | .binary _ op left right => .binary nowhere op left.unplaced right.unplaced
  | .neg _ inner => .neg nowhere inner.unplaced
  | .paren _ inner => .paren nowhere inner.unplaced

@[simp] theorem Value.pos_unplaced (v : Value) : v.unplaced.pos = nowhere := by
  cases v <;> rfl

def DeriveForm.unplaced : DeriveForm → DeriveForm
  | .seeds vs => .seeds (vs.map Value.unplaced)
  | .tokenSeeds vs mint authority => .tokenSeeds (vs.map Value.unplaced) mint authority
  | .associated mint authority => .associated mint authority
  | .withBump vs bump => .withBump (vs.map Value.unplaced) bump.unplaced

def InitRequest.unplaced (r : InitRequest) : InitRequest :=
  ⟨r.payer.map fun (name, _) => (name, nowhere)⟩

def Derive.unplaced (d : Derive) : Derive :=
  { d with form := d.form.unplaced, init := d.init.map InitRequest.unplaced }

def Assign.unplaced (a : Assign) : Assign := { a with value := a.value.unplaced }

def CrossProgramCall.unplaced (c : CrossProgramCall) : CrossProgramCall :=
  { c with
    amount := c.amount.unplaced
    signerSeeds := c.signerSeeds.map (List.map Value.unplaced) }

def LocalBinding.unplaced (l : LocalBinding) : LocalBinding := { l with value := l.value.unplaced }

def Statement.unplaced : Statement → Statement
  | .derive _ d => .derive nowhere d.unplaced
  | .assign _ a => .assign nowhere a.unplaced
  | .call _ c => .call nowhere c.unplaced
  | .bind _ l => .bind nowhere l.unplaced
  | .close _ c => .close nowhere c

def StateField.unplaced (f : StateField) : StateField := { f with pos := nowhere }

def StateType.unplaced (s : StateType) : StateType :=
  { s with fields := s.fields.map StateField.unplaced, pos := nowhere }

def Param.unplaced (p : Param) : Param := { p with pos := nowhere }

def Instruction.unplaced (i : Instruction) : Instruction :=
  { i with
    params := i.params.map Param.unplaced
    body := i.body.map Statement.unplaced
    pos := nowhere }

/-- The program without its places and its file. -/
def Program.unplaced (p : Program) : Program :=
  { p with
    file := []
    instructions := p.instructions.map Instruction.unplaced
    states := p.states.map StateType.unplaced }

theorem find?_unplaced {α : Type} {g : α → α} {p : α → Bool} (h : ∀ a, p (g a) = p a)
    (as : List α) : (as.map g).find? p = (as.find? p).map g := by
  rw [List.find?_map, show p ∘ g = p from funext h]

theorem any_unplaced {α : Type} {g : α → α} {p : α → Bool} (h : ∀ a, p (g a) = p a)
    (as : List α) : (as.map g).any p = as.any p := by
  rw [List.any_map, show p ∘ g = p from funext h]

namespace Syntax.Expr

@[simp] theorem pos_unplaced (e : Expr) : e.unplaced.pos = nowhere := by
  fun_induction Expr.pos e <;> simp_all only [unplaced, pos]

end Syntax.Expr

namespace Program

def BodyContext.unplaced (c : BodyContext) : BodyContext :=
  { c with file := [], params := c.params.map Param.unplaced }

@[simp] theorem BodyContext.param?_unplaced (c : BodyContext) (name : Text) :
    c.unplaced.param? name = (c.param? name).map Param.unplaced :=
  find?_unplaced (g := Param.unplaced) (fun _ => rfl) c.params

variable (c : BodyContext)

theorem bytesOf?_unplaced (v : Value) : bytesOf? v.unplaced = (bytesOf? v).map Value.unplaced := by
  cases v <;> rfl

theorem nameValue_unplaced (pos : SourcePos) (id : Text) :
    nameValue c.unplaced nowhere id = (nameValue c pos id).unplaced := by
  rw [nameValue, nameValue, BodyContext.param?_unplaced]
  cases c.param? id with
  | none => rfl
  | some p =>
    simp only [Option.map_some, Param.unplaced]
    split <;> rfl

theorem memberValue_steady (e : Syntax.Expr) :
    Steady Value.unplaced (memberValue c e) (memberValue c.unplaced e.unplaced) := by
  rw [memberValue, memberValue, Syntax.Expr.path?_unplaced, Syntax.Expr.pos_unplaced]
  split
  · exact .ite .rfl .ok .ok
  · exact .error rfl

theorem unsupportedCall_steady {e e' : Syntax.Expr} :
    Steady Value.unplaced (.error (unsupportedCall c e)) (.error (unsupportedCall c.unplaced e')) :=
  .error rfl

theorem valueOf_steady (e : Syntax.Expr) :
    Steady Value.unplaced (valueOf c e) (valueOf c.unplaced e.unplaced) := by
  fun_induction valueOf c e with
  | case1 pos lit hValid =>
    rw [Syntax.Expr.unplaced, valueOf, if_pos hValid]
    exact .ok
  | case2 pos lit hInvalid =>
    rw [Syntax.Expr.unplaced, valueOf, if_neg hInvalid]
    exact .error rfl
  | case3 | case4 => exact .ok
  | case5 pos id =>
    rw [Syntax.Expr.unplaced, valueOf, nameValue_unplaced c pos id]
    exact .ok
  | case6 object pos field => exact memberValue_steady c (.member object pos field)
  | case7 pos pos' account => exact .ok
  | case8 object pos hName =>
    cases object with
    | name pos' id => exact (hName pos' id rfl).elim
    | _ => exact unsupportedCall_steady c
  | case9 object pos _ hMethod ih =>
    refine .bind ih fun v => ?_
    rw [bytesOf?_unplaced]
    cases bytesOf? v with
    | none => exact unsupportedCall_steady c
    | some v' => exact .ok
  | case10 object pos method _ hBump hBytes =>
    have hRefused : valueOf c.unplaced (.call (.member object.unplaced nowhere method) []) =
        .error (unsupportedCall c.unplaced (.call (.member object.unplaced nowhere method) [])) :=
      (if_neg hBump).trans (if_neg hBytes)
    rw [Syntax.Expr.unplaced, Syntax.Expr.unplacedAll, Syntax.Expr.unplaced, hRefused]
    exact unsupportedCall_steady c
  | case11 callee args hCall =>
    rw [Syntax.Expr.unplaced, Syntax.Expr.unplacedAll_eq, valueOf]
    · exact unsupportedCall_steady c
    · intro object pos method hMember hNil
      cases callee with
      | member o p m => exact hCall o p m rfl (List.map_eq_nil_iff.mp hNil)
      | _ => cases hMember
  | case12 pos inner ih | case13 pos inner ih =>
    rw [Syntax.Expr.unplaced, valueOf]
    exact .bind ih fun v => .ok
  | case14 pos op operand hOp =>
    cases op with
    | neg => exact (hOp rfl).elim
    | not => exact .error rfl
  | case15 op left right hOp =>
    rw [Syntax.Expr.unplaced, valueOf, hOp]
    exact .error rfl
  | case16 op left right arith hOp ihLeft ihRight =>
    rw [Syntax.Expr.unplaced, valueOf, hOp, Syntax.Expr.pos_unplaced]
    exact .bind ihLeft fun l => .bind ihRight fun r => .ok
  | case17 e =>
    cases e with
    | array | construct | assign | index => exact .error rfl
    | _ => simp_all

theorem accountName?_unplaced (e : Syntax.Expr) : accountName? e.unplaced = accountName? e := by
  rw [accountName?, accountName?, Syntax.Expr.path?_unplaced]

theorem seedValues_steady (elems : List Syntax.Expr) :
    Steady (List.map Value.unplaced) (seedValues c elems)
      (seedValues c.unplaced (elems.map Syntax.Expr.unplaced)) :=
  .mapM (valueOf_steady c) elems

theorem tokenParties_steady (account : Text) (mint authority : Syntax.Expr) :
    Steady id (tokenParties c account mint authority)
      (tokenParties c.unplaced account mint.unplaced authority.unplaced) := by
  rw [tokenParties, tokenParties, accountName?_unplaced, accountName?_unplaced]
  cases accountName? mint with
  | none => exact .error rfl
  | some m =>
    cases accountName? authority with
    | none => exact .error rfl
    | some a => exact .ok

theorem deriveForm_steady (pos pos' : SourcePos) (account : Text) (args : List Syntax.Expr) :
    Steady DeriveForm.unplaced (deriveForm c pos account args)
      (deriveForm c.unplaced pos' account (args.map Syntax.Expr.unplaced)) := by
  fun_cases deriveForm c pos account args with
  | case1 p elems rest =>
    rw [List.map_cons, Syntax.Expr.unplaced, Syntax.Expr.unplacedAll_eq]
    refine .bind (seedValues_steady c elems) fun seeds => ?_
    match rest with
    | [] => exact .ok
    | [mint, authority] => exact .bind (tokenParties_steady c account mint authority) fun _ => .ok
    | [_] | _ :: _ :: _ :: _ => exact .error rfl
  | case2 mint authority hArray =>
    cases mint with
    | array p elems => exact (hArray p elems rfl).elim
    | _ => exact .bind (tokenParties_steady c account _ authority) fun _ => .ok
  | case3 args hArray hTwo =>
    match args with
    | [] => exact .error rfl
    | [_, _] => exact (hTwo _ _ rfl).elim
    | [e] | e :: _ :: _ :: _ =>
      cases e with
      | array p elems => exact (hArray p elems _ rfl).elim
      | _ => exact .error rfl

theorem bumpForm_steady (pos pos' : SourcePos) (account : Text) (args : List Syntax.Expr) :
    Steady DeriveForm.unplaced (bumpForm c pos account args)
      (bumpForm c.unplaced pos' account (args.map Syntax.Expr.unplaced)) := by
  fun_cases bumpForm c pos account args with
  | case1 p elems bump =>
    rw [List.map_cons, Syntax.Expr.unplaced, Syntax.Expr.unplacedAll_eq]
    refine .bind (seedValues_steady c elems) fun seeds => ?_
    exact .bind (valueOf_steady c bump) fun v => .ok
  | case2 args hArray =>
    match args with
    | [] => exact .error rfl
    | e :: rest =>
      cases e with
      | array p elems =>
        match rest with
        | [bump] => exact (hArray p elems bump rfl).elim
        | [] | _ :: _ :: _ => exact .error rfl
      | _ => exact .error rfl

theorem deriveCall_steady (object : Syntax.Expr) (pos pos' : SourcePos) (method : Text)
    (args : List Syntax.Expr) :
    Steady Derive.unplaced (deriveCall c object pos method args)
      (deriveCall c.unplaced object.unplaced pos' method (args.map Syntax.Expr.unplaced)) := by
  cases object with
  | name p account =>
    refine .ite .rfl ?_ ?_
    · exact .bind (deriveForm_steady c pos pos' account args) fun form => .ok
    · exact .bind (bumpForm_steady c pos pos' account args) fun form => .ok
  | _ => exact .error rfl

theorem initRequest_steady (pos pos' : SourcePos) (account : Text) (args : List Syntax.Expr) :
    Steady InitRequest.unplaced (initRequest c pos account args)
      (initRequest c.unplaced pos' account (args.map Syntax.Expr.unplaced)) := by
  match args with
  | [] => exact .ok
  | [e] =>
    simp only [List.map_cons, List.map_nil, initRequest, accountName?_unplaced,
      Syntax.Expr.pos_unplaced]
    cases accountName? e with
    | none => exact .error rfl
    | some name => exact .ok
  | _ :: _ :: _ => exact .error rfl

theorem partyNames_steady (k : CallKind) (i : Nat) (args : List Syntax.Expr) :
    Steady id (partyNames c k i args)
      (partyNames c.unplaced k i (args.map Syntax.Expr.unplaced)) := by
  induction args generalizing i with
  | nil => exact .ok
  | cons e es ih =>
    rw [List.map_cons, partyNames, partyNames, accountName?_unplaced]
    cases accountName? e with
    | none => exact .error rfl
    | some name => exact .bind (ih (i + 1)) fun names => .ok

theorem signerSeeds_steady (k : CallKind) (signer : Text) (args : List Syntax.Expr) :
    Steady (Option.map (List.map Value.unplaced)) (signerSeeds c k signer args)
      (signerSeeds c.unplaced k signer (args.map Syntax.Expr.unplaced)) := by
  cases args with
  | nil => exact .ok
  | cons e es =>
    cases e with
    | array pos elems =>
      rw [List.map_cons, Syntax.Expr.unplaced, Syntax.Expr.unplacedAll_eq]
      exact .bind (seedValues_steady c elems) fun vs => .ok
    | _ => exact .error rfl

theorem crossProgramCall_steady (pos pos' : SourcePos) (k : CallKind) (args : List Syntax.Expr) :
    Steady CrossProgramCall.unplaced (crossProgramCall c pos k args)
      (crossProgramCall c.unplaced pos' k (args.map Syntax.Expr.unplaced)) := by
  have hCall : ∀ amount : Syntax.Expr, Steady CrossProgramCall.unplaced
      (do
        let names ← partyNames c k 1 (args.take k.parties)
        let amount ← valueOf c amount
        let action := k.action (names.getD 0 []) (names.getD 1 []) (names.getD 2 [])
        let seeds ← signerSeeds c k action.signer (args.drop (k.parties + 1))
        return { action, amount, signerSeeds := seeds })
      (do
        let names ← partyNames c.unplaced k 1 ((args.map Syntax.Expr.unplaced).take k.parties)
        let amount ← valueOf c.unplaced amount.unplaced
        let action := k.action (names.getD 0 []) (names.getD 1 []) (names.getD 2 [])
        let seeds ← signerSeeds c.unplaced k action.signer
          ((args.map Syntax.Expr.unplaced).drop (k.parties + 1))
        return { action, amount, signerSeeds := seeds }) := by
    intro amount
    rw [← List.map_take, ← List.map_drop]
    refine .bind (partyNames_steady c k 1 _) fun names => ?_
    refine .bind (valueOf_steady c amount) fun v => ?_
    exact .bind (signerSeeds_steady c k _ _) fun seeds => .ok
  rw [crossProgramCall, crossProgramCall, ← List.map_drop]
  match args.drop k.parties with
  | [] => exact .error rfl
  | [amount] => exact hCall amount
  | [amount, _] => exact hCall amount
  | _ :: _ :: _ :: _ => exact .error rfl

theorem closeCall_steady (pos pos' : SourcePos) (account : Text) (args : List Syntax.Expr) :
    Steady id (closeCall c pos account args)
      (closeCall c.unplaced pos' account (args.map Syntax.Expr.unplaced)) := by
  match args with
  | [] => exact .error rfl
  | [e] =>
    simp only [List.map_cons, List.map_nil, closeCall, accountName?_unplaced]
    cases accountName? e with
    | none => exact .error rfl
    | some name => exact .ok
  | _ :: _ :: _ => exact .error rfl

theorem initCall_steady (pos pos' : SourcePos) (object : Syntax.Expr) (args : List Syntax.Expr) :
    Steady Statement.unplaced (initCall c pos object args)
      (initCall c.unplaced pos' object.unplaced (args.map Syntax.Expr.unplaced)) := by
  cases object with
  | call callee deriveArgs =>
    cases callee with
    | member inner p method =>
      rw [Syntax.Expr.unplaced, Syntax.Expr.unplaced, Syntax.Expr.unplacedAll_eq]
      refine .ite .rfl ?_ (.error rfl)
      refine .bind (deriveCall_steady c inner p nowhere method deriveArgs) fun d => ?_
      exact .bind (initRequest_steady c pos pos' d.account args) fun request => .ok
    | _ => exact .error rfl
  | _ => exact .error rfl

theorem callStatement_steady (callee : Syntax.Expr) (args : List Syntax.Expr) :
    Steady Statement.unplaced (callStatement c callee args)
      (callStatement c.unplaced callee.unplaced (args.map Syntax.Expr.unplaced)) := by
  cases callee with
  | member object pos method =>
    rw [Syntax.Expr.unplaced]
    refine .ite .rfl (initCall_steady c pos nowhere object args) ?_
    cases object with
    | name p id =>
      dsimp only [Syntax.Expr.unplaced]
      cases CallKind.ofNames? id method with
      | some k => exact .bind (crossProgramCall_steady c pos nowhere k args) fun call => .ok
      | none =>
        refine .ite .rfl (.error rfl) (.ite .rfl ?_ (.ite .rfl ?_ ?_))
        · exact .bind (deriveCall_steady c (.name p id) pos nowhere method args) fun d => .ok
        · exact .bind (closeCall_steady c pos nowhere id args) fun close => .ok
        · exact .error rfl
    | _ => exact .error rfl
  | _ => exact .error rfl

theorem assignStatement_steady (pos : SourcePos) (target value : Syntax.Expr) :
    Steady Statement.unplaced (assignStatement c pos target value)
      (assignStatement c.unplaced nowhere target.unplaced value.unplaced) := by
  rw [assignStatement, assignStatement, Syntax.Expr.path?_unplaced]
  split
  · exact .bind (valueOf_steady c value) fun v => .ok
  · exact .error rfl

theorem declaredType_steady (name : Text) (type : Option Syntax.TypeRef) :
    Steady id (declaredType c name type)
      (declaredType c.unplaced name (type.map Syntax.TypeRef.unplaced)) := by
  cases type with
  | none => exact .ok
  | some t =>
    simp only [Option.map_some, declaredType, Syntax.TypeRef.unplaced, BodyContext.unplaced]
    split
    · exact .ok
    · exact .error rfl

theorem bindStatement_steady (declared : List Text) (pos : SourcePos)
    (kind : Syntax.BindingKind) (name : Text) (type : Option Syntax.TypeRef)
    (value : Syntax.Expr) :
    Steady Statement.unplaced (bindStatement c declared pos kind name type value)
      (bindStatement c.unplaced declared nowhere kind name (type.map Syntax.TypeRef.unplaced)
        value.unplaced) := by
  refine .ite (by simp) (.error rfl) ?_
  refine .bind (valueOf_steady c value) fun v => ?_
  exact .bind (declaredType_steady c name type) fun t => .ok

theorem bodyOf_steady (declared : List Text) (body : List Syntax.Statement) :
    Steady (List.map Statement.unplaced) (bodyOf c declared body)
      (bodyOf c.unplaced declared (body.map Syntax.Statement.unplaced)) := by
  induction body generalizing declared with
  | nil => exact .ok
  | cons s rest ih =>
    cases s with
    | ret pos value => exact .ite (by simp) (.error rfl) .ok
    | binding pos kind name type value =>
      refine .bind (bindStatement_steady c declared pos kind name type value) fun s => ?_
      exact .bind (ih (name :: declared)) fun ss => .ok
    | expr pos e =>
      cases e with
      | assign target value =>
        refine .bind (assignStatement_steady c pos target value) fun s => ?_
        exact .bind (ih declared) fun ss => .ok
      | call callee args =>
        rw [List.map_cons, Syntax.Statement.unplaced, Syntax.Expr.unplaced,
          Syntax.Expr.unplacedAll_eq]
        refine .bind (callStatement_steady c callee args) fun s => ?_
        exact .bind (ih declared) fun ss => .ok
      | _ => exact .error rfl

variable (file : Text) (s : Settings) (isState : Text → Bool)

theorem defaultClass_steady (found : Option Syntax.ClassDecl) (classes : List Syntax.ClassDecl) :
    Steady Syntax.ClassDecl.unplaced (defaultClass file found classes)
      (defaultClass [] (found.map Syntax.ClassDecl.unplaced)
        (classes.map Syntax.ClassDecl.unplaced)) := by
  induction classes generalizing found with
  | nil =>
    cases found with
    | none => exact .error rfl
    | some first => exact .ok
  | cons d ds ih =>
    refine .ite .rfl ?_ (ih found)
    cases found with
    | none => exact ih (some d)
    | some first => exact .error rfl

theorem programClass_steady (classes : List Syntax.ClassDecl) :
    Steady Syntax.ClassDecl.unplaced (programClass file classes)
      (programClass [] (classes.map Syntax.ClassDecl.unplaced)) := by
  refine .bind (defaultClass_steady file none classes) fun program => ?_
  rw [find?_unplaced (g := Syntax.ClassDecl.unplaced) (fun _ => rfl)]
  cases classes.find? (!·.isDefault) with
  | none => exact .ok
  | some d =>
    refine .ite ?_ (.error rfl) (.error rfl)
    rw [Syntax.ClassDecl.unplaced, any_unplaced (g := Syntax.PropertyDecl.unplaced) (fun _ => rfl)]

theorem idDeclaration_steady (d : Syntax.ClassDecl) (found : Option Syntax.PropertyDecl)
    (properties : List Syntax.PropertyDecl) :
    Steady Syntax.PropertyDecl.unplaced (idDeclaration file d found properties)
      (idDeclaration [] d.unplaced (found.map Syntax.PropertyDecl.unplaced)
        (properties.map Syntax.PropertyDecl.unplaced)) := by
  induction properties generalizing found with
  | nil =>
    cases found with
    | none => exact .error rfl
    | some first => exact .ok
  | cons p ps ih =>
    refine .ite .rfl (.error rfl) (.ite ?_ (.error rfl) (ih (some p)))
    rw [Option.isSome_map]

theorem declaredId_steady (d : Syntax.ClassDecl) :
    Steady id (declaredId file d) (declaredId [] d.unplaced) := by
  refine .bind (idDeclaration_steady file d none d.properties) ?_
  rintro ⟨name, isStatic, value, pos⟩
  cases value with
  | construct p className args =>
    cases args with
    | nil => exact .error rfl
    | cons e rest =>
      cases e with
      | string p' text =>
        cases rest with
        | cons _ _ => exact .error rfl
        | nil =>
          refine .ite .rfl ?_ (.error rfl)
          dsimp only
          cases ProgramId.decode (Text.trimSpace text) with
          | ok _ => exact .ok
          | error _ => exact .error rfl
      | _ => exact .error rfl
  | _ => exact .error rfl

theorem stateNames_steady (seen : List Text) (interfaces : List Syntax.InterfaceDecl) :
    Steady id (stateNames file seen interfaces)
      (stateNames [] seen (interfaces.map Syntax.InterfaceDecl.unplaced)) := by
  induction interfaces generalizing seen with
  | nil => exact .ok
  | cons i is ih => exact .ite .rfl (.error rfl) (ih (i.name :: seen))

theorem stateFields_steady (stateName : Text) (seen : List Text) (fields : List Syntax.FieldDecl) :
    Steady (List.map StateField.unplaced) (stateFields file s stateName isState seen fields)
      (stateFields [] s stateName isState seen (fields.map Syntax.FieldDecl.unplaced)) := by
  induction fields generalizing seen with
  | nil => exact .ok
  | cons f fs ih =>
    refine .ite .rfl (.error rfl) ?_
    dsimp only [Syntax.FieldDecl.unplaced, Syntax.TypeRef.unplaced]
    split
    · exact .bind (ih (f.name :: seen)) fun rest => .ok
    · exact .error rfl

theorem stateType_steady (i : Syntax.InterfaceDecl) :
    Steady StateType.unplaced (stateType file s isState i)
      (stateType [] s isState i.unplaced) :=
  .bind (stateFields_steady file s isState i.name [] i.fields) fun _ => .ok

theorem paramsOf_steady (instruction : Text) (seen : List Text) (params : List Syntax.FieldDecl) :
    Steady (List.map Param.unplaced) (paramsOf file s instruction isState seen params)
      (paramsOf [] s instruction isState seen (params.map Syntax.FieldDecl.unplaced)) := by
  induction params generalizing seen with
  | nil => exact .ok
  | cons f fs ih =>
    refine .ite .rfl (.error rfl) ?_
    dsimp only [Syntax.FieldDecl.unplaced, Syntax.TypeRef.unplaced]
    split
    · exact .bind (ih (f.name :: seen)) fun rest => .ok
    · exact .error rfl

theorem returnType_steady (instruction : Text) (type : Option Syntax.TypeRef) :
    Steady id (returnType file instruction type)
      (returnType [] instruction (type.map Syntax.TypeRef.unplaced)) := by
  cases type with
  | none => exact .ok
  | some t => exact .ite .rfl .ok (.error rfl)

theorem instructionOf_steady (m : Syntax.MethodDecl) :
    Steady Instruction.unplaced (instructionOf file s isState m)
      (instructionOf [] s isState m.unplaced) := by
  refine .ite .rfl (.error rfl) ?_
  refine .bind (returnType_steady file m.name m.returns) fun returns => ?_
  refine .bind (paramsOf_steady file s isState m.name [] m.params) fun params => ?_
  exact .bind (bodyOf_steady ⟨file, m.name, params, s.stringMaxLen⟩ [] m.body) fun body => .ok

theorem instructionsOf_steady (seen : List Text) (methods : List Syntax.MethodDecl) :
    Steady (List.map Instruction.unplaced) (instructionsOf file s isState seen methods)
      (instructionsOf [] s isState seen (methods.map Syntax.MethodDecl.unplaced)) := by
  induction methods generalizing seen with
  | nil => exact .ok
  | cons m ms ih =>
    refine .ite .rfl (.error rfl) ?_
    refine .bind (instructionOf_steady file s isState m) fun i => ?_
    exact .bind (ih (m.name :: seen)) fun is => .ok

theorem ofFile_steady (f : Syntax.File) :
    Steady Program.unplaced (ofFile file s f) (ofFile [] s f.unplaced) := by
  have hStates : f.unplaced.interfaces.filter isStateInterface =
      (f.interfaces.filter isStateInterface).map Syntax.InterfaceDecl.unplaced :=
    List.filter_map
  refine .bind (programClass_steady file f.classes) fun program => ?_
  dsimp only
  rw [hStates]
  refine .bind (stateNames_steady file [] _) fun names => ?_
  refine .bind (.mapM (stateType_steady file s names.contains) _) fun states => ?_
  refine .bind (declaredId_steady file program) fun programId => ?_
  exact .bind (instructionsOf_steady file s names.contains [] program.methods) fun is => .ok

end Program

end AnchorScript
