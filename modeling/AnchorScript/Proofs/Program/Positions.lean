import AnchorScript.Proofs.Program.Placement
import AnchorScript.Proofs.Resolution.Reads
import AnchorScript.Proofs.Syntax.Positions

/-!
# Programs keep the places of their source

What a program keeps of its source stands where the source has it, and a file that declares no
program is refused at one of its places. A diagnostic about a body names the instruction of the
body.
-/

namespace AnchorScript

open Outcome

/-- The diagnostic is of a known kind and stands in the file at a place with the property. Only the
program declaration can be missing without a place: it is missing at the start of the file. -/
structure Diagnostic.Placed (file : Text) (P : SourcePos → Prop) (d : Diagnostic) : Prop where
  known : d.kind ∈ Kind.known
  file : d.span.file = file
  start : P d.span.start ∨ d.kind = .missingProgramDeclaration ∧ d.span.start = ⟨1, 1⟩

/-- The diagnostic names the instruction, too. -/
structure Diagnostic.PlacedIn (file instruction : Text) (P : SourcePos → Prop) (d : Diagnostic) :
    Prop extends d.Placed file P where
  instruction : d.instruction = instruction

def Value.At (P : SourcePos → Prop) : Value → Prop
  | .binary pos _ left right => P pos ∧ left.At P ∧ right.At P
  | .neg pos inner | .paren pos inner => P pos ∧ inner.At P
  | v => P v.pos

theorem Value.At.pos {P : SourcePos → Prop} {v : Value} (h : v.At P) : P v.pos := by
  cases v with
  | binary | neg | paren => exact h.1
  | _ => exact h

structure Derive.At (P : SourcePos → Prop) (d : Derive) : Prop where
  values : ∀ v ∈ d.form.values, v.At P
  payer : ∀ request ∈ d.init, ∀ payer ∈ request.payer, P payer.2

inductive Statement.At (P : SourcePos → Prop) : Statement → Prop
  | derive {pos : SourcePos} {d : Derive} (hPos : P pos) (hDerive : d.At P) : At P (.derive pos d)
  | assign {pos : SourcePos} {a : Assign} (hPos : P pos) (hValue : a.value.At P) :
      At P (.assign pos a)
  | call {pos : SourcePos} {c : CrossProgramCall} (hPos : P pos) (hAmount : c.amount.At P)
      (hSeeds : ∀ vs ∈ c.signerSeeds, ∀ v ∈ vs, v.At P) : At P (.call pos c)
  | bind {pos : SourcePos} {l : LocalBinding} (hPos : P pos) (hValue : l.value.At P) :
      At P (.bind pos l)
  | close {pos : SourcePos} {c : CloseAccount} (hPos : P pos) : At P (.close pos c)

structure Instruction.At (P : SourcePos → Prop) (i : Instruction) : Prop where
  params : ∀ q ∈ i.params, P q.pos
  body : ∀ s ∈ i.body, s.At P

namespace Program

variable {P : SourcePos → Prop}

section Body

variable {c : BodyContext} {α : Type} {A : α → Prop} {pos : SourcePos} {account : Text}

/-- The diagnostics a body may be refused with. -/
def BodyContext.Refusal (c : BodyContext) (P : SourcePos → Prop) : Diagnostic → Prop :=
  Diagnostic.PlacedIn c.file c.instruction P

theorem BodyContext.ends_refuse {kind : Diagnostic.Kind} {message : Text} (hPos : P pos)
    (hKind : kind ∈ Diagnostic.Kind.known) :
    Ends (c.Refusal P) A (.error (c.refuse kind pos message account)) :=
  .error ⟨⟨hKind, rfl, .inl hPos⟩, rfl⟩

theorem BodyContext.ends_unsupported {message : Text} (hPos : P pos) :
    Ends (c.Refusal P) A (.error (c.unsupported pos message account)) :=
  ends_refuse hPos (by decide)

theorem bytesOf?_at {v w : Value} (hv : v.At P) (h : bytesOf? v = some w) : w.At P := by
  cases v <;> simp only [bytesOf?, Option.some.injEq, reduceCtorEq] at h
  all_goals
    subst h
    exact hv

theorem nameValue_at {id : Text} (hPos : P pos) : (nameValue c pos id).At P := by
  unfold nameValue
  split
  · split <;> exact hPos
  · exact hPos

theorem memberValue_ends {e : Syntax.Expr} (he : e.At P) :
    Ends (c.Refusal P) (Value.At P) (memberValue c e) := by
  unfold memberValue
  split
  · exact .ite (.ok he.pos) (.ok he.pos)
  · exact BodyContext.ends_unsupported he.pos

theorem valueOf_ends {e : Syntax.Expr} (he : e.At P) :
    Ends (c.Refusal P) (Value.At P) (valueOf c e) := by
  fun_induction valueOf c e with
  | case1 | case3 | case4 => exact .ok he.pos
  | case2 => exact BodyContext.ends_unsupported he.pos
  | case5 => exact .ok (nameValue_at he.pos)
  | case6 => exact memberValue_ends he
  | case7 => exact .ok he.pos
  | case8 | case10 | case11 => exact BodyContext.ends_unsupported he.pos
  | case9 object pos whole hMethod ih =>
    have hPos := he.pos
    cases he with
    | call hCallee _ =>
      cases hCallee with
      | member hObject _ =>
        refine .bind (ih hObject) fun v hv => ?_
        split
        · rename_i w hBytes
          exact .ok (bytesOf?_at hv hBytes)
        · exact BodyContext.ends_unsupported hPos
  | case12 pos inner ih =>
    cases he with
    | paren hPos hInner => exact .bind (ih hInner) fun v hv => .ok ⟨hPos, hv⟩
  | case13 pos operand ih =>
    cases he with
    | unary hPos hOperand => exact .bind (ih hOperand) fun v hv => .ok ⟨hPos, hv⟩
  | case14 => exact BodyContext.ends_unsupported he.pos
  | case15 =>
    cases he with
    | binary hLeft _ => exact BodyContext.ends_unsupported hLeft.pos
  | case16 op left right arith hOp ihLeft ihRight =>
    cases he with
    | binary hLeft hRight =>
      exact .bind (ihLeft hLeft) fun v hv => .bind (ihRight hRight) fun w hw =>
        .ok ⟨hLeft.pos, hv, hw⟩
  | case17 => exact BodyContext.ends_unsupported he.pos

theorem seedValues_ends {elems : List Syntax.Expr} (h : ∀ e ∈ elems, e.At P) :
    Ends (c.Refusal P) (fun vs => ∀ v ∈ vs, v.At P) (seedValues c elems) :=
  .mapM fun e he => valueOf_ends (h e he)

theorem tokenParties_ends {mint authority : Syntax.Expr} (hMint : mint.At P)
    (hAuthority : authority.At P) :
    Ends (c.Refusal P) (fun _ => True) (tokenParties c account mint authority) := by
  unfold tokenParties
  split
  · exact BodyContext.ends_unsupported hMint.pos
  · split
    · exact BodyContext.ends_unsupported hAuthority.pos
    · exact .ok trivial

theorem deriveForm_ends {args : List Syntax.Expr} (hPos : P pos) (h : ∀ e ∈ args, e.At P) :
    Ends (c.Refusal P) (fun form => ∀ v ∈ form.values, v.At P)
      (deriveForm c pos account args) := by
  fun_cases deriveForm c pos account args with
  | case1 p elems rest =>
    obtain ⟨hArray, hRest⟩ := List.forall_mem_cons.mp h
    cases hArray with
    | array _ hElems =>
      refine .bind (seedValues_ends hElems) fun vs hvs => ?_
      split
      · exact .ok hvs
      · rename_i mint authority
        refine .bind (tokenParties_ends (hRest mint (by simp)) (hRest authority (by simp))) ?_
        exact fun _ _ => .ok hvs
      · exact BodyContext.ends_unsupported hPos
  | case2 mint authority =>
    refine .bind (tokenParties_ends (h mint (by simp)) (h authority (by simp))) fun _ _ => ?_
    exact .ok (List.forall_mem_nil _)
  | case3 => exact BodyContext.ends_unsupported hPos

theorem bumpForm_ends {args : List Syntax.Expr} (hPos : P pos) (h : ∀ e ∈ args, e.At P) :
    Ends (c.Refusal P) (fun form => ∀ v ∈ form.values, v.At P) (bumpForm c pos account args) := by
  fun_cases bumpForm c pos account args with
  | case1 p elems bump =>
    have hArray : (Syntax.Expr.array p elems).At P := h _ (by simp)
    cases hArray with
    | array _ hElems =>
      refine .bind (seedValues_ends hElems) fun vs hvs => ?_
      refine .bind (valueOf_ends (h bump (by simp))) fun v hv => .ok ?_
      exact List.forall_mem_append.mpr ⟨hvs, List.forall_mem_singleton.mpr hv⟩
  | case2 => exact BodyContext.ends_unsupported hPos

theorem deriveCall_ends {object : Syntax.Expr} {method : Text} {args : List Syntax.Expr}
    (hPos : P pos) (h : ∀ e ∈ args, e.At P) :
    Ends (c.Refusal P) (Derive.At P) (deriveCall c object pos method args) := by
  unfold deriveCall
  split
  · have hNoPayer (form : DeriveForm) (hForm : ∀ v ∈ form.values, v.At P) (account : Text) :
        Derive.At P { account, form, init := none } := ⟨hForm, nofun⟩
    split
    · exact .bind (deriveForm_ends hPos h) fun form hForm => .ok (hNoPayer form hForm _)
    · exact .bind (bumpForm_ends hPos h) fun form hForm => .ok (hNoPayer form hForm _)
  · exact BodyContext.ends_unsupported hPos

theorem initRequest_ends {args : List Syntax.Expr} (hPos : P pos) (h : ∀ e ∈ args, e.At P) :
    Ends (c.Refusal P) (fun request => ∀ payer ∈ request.payer, P payer.2)
      (initRequest c pos account args) := by
  fun_cases initRequest c pos account args with
  | case1 => exact .ok nofun
  | case2 e name =>
    refine .ok ?_
    rintro _ ⟨⟩
    exact (h e List.mem_cons_self).pos
  | case3 e => exact BodyContext.ends_refuse (h e List.mem_cons_self).pos (by decide)
  | case4 => exact BodyContext.ends_unsupported hPos

theorem partyNames_ends {k : CallKind} {index : Nat} {args : List Syntax.Expr}
    (h : ∀ e ∈ args, e.At P) :
    Ends (c.Refusal P) (fun _ => True) (partyNames c k index args) := by
  induction args generalizing index with
  | nil => exact .ok trivial
  | cons e es ih =>
    obtain ⟨he, hes⟩ := List.forall_mem_cons.mp h
    rw [partyNames]
    split
    · exact BodyContext.ends_unsupported he.pos
    · exact .bind (ih hes) fun _ _ => .ok trivial

theorem signerSeeds_ends {k : CallKind} {signer : Text} {args : List Syntax.Expr}
    (h : ∀ e ∈ args, e.At P) :
    Ends (c.Refusal P) (fun seeds => ∀ vs ∈ seeds, ∀ v ∈ vs, v.At P)
      (signerSeeds c k signer args) := by
  fun_cases signerSeeds c k signer args with
  | case1 => exact .ok nofun
  | case2 p elems rest =>
    have hArray : (Syntax.Expr.array p elems).At P := h _ List.mem_cons_self
    cases hArray with
    | array _ hElems =>
      refine .bind (seedValues_ends hElems) fun vs hvs => .ok ?_
      rintro _ ⟨⟩
      exact hvs
  | case3 e => exact BodyContext.ends_refuse (h e List.mem_cons_self).pos (by decide)

theorem crossProgramCall_ends {k : CallKind} {args : List Syntax.Expr} (hPos : P pos)
    (h : ∀ e ∈ args, e.At P) :
    Ends (c.Refusal P) (fun call => (Statement.call pos call).At P)
      (crossProgramCall c pos k args) := by
  have hTake : ∀ e ∈ args.take k.parties, e.At P := fun e he => h e (List.mem_of_mem_take he)
  have hSeeds : ∀ e ∈ args.drop (k.parties + 1), e.At P := fun e he => h e (List.mem_of_mem_drop he)
  have hAmount {amount : Syntax.Expr} {rest : List Syntax.Expr}
      (hDrop : args.drop k.parties = amount :: rest) : amount.At P :=
    h amount (List.mem_of_mem_drop (hDrop ▸ List.mem_cons_self))
  unfold crossProgramCall
  split
  · rename_i amount hDrop
    refine .bind (partyNames_ends hTake) fun names _ => ?_
    refine .bind (valueOf_ends (hAmount hDrop)) fun v hv => ?_
    exact .bind (signerSeeds_ends hSeeds) fun seeds hValues => .ok (.call hPos hv hValues)
  · rename_i amount last hDrop
    refine .bind (partyNames_ends hTake) fun names _ => ?_
    refine .bind (valueOf_ends (hAmount hDrop)) fun v hv => ?_
    exact .bind (signerSeeds_ends hSeeds) fun seeds hValues => .ok (.call hPos hv hValues)
  · exact BodyContext.ends_unsupported hPos

theorem closeCall_ends {args : List Syntax.Expr} (hPos : P pos) (h : ∀ e ∈ args, e.At P) :
    Ends (c.Refusal P) (fun _ => True) (closeCall c pos account args) := by
  fun_cases closeCall c pos account args with
  | case1 => exact .ok trivial
  | case2 e => exact BodyContext.ends_unsupported (h e List.mem_cons_self).pos
  | case3 => exact BodyContext.ends_unsupported hPos

theorem initCall_ends {object : Syntax.Expr} {args : List Syntax.Expr} (hPos : P pos)
    (hObject : object.At P) (h : ∀ e ∈ args, e.At P) :
    Ends (c.Refusal P) (Statement.At P) (initCall c pos object args) := by
  unfold initCall
  split
  · cases hObject with
    | call hCallee hArgs =>
      cases hCallee with
      | member _ hInner =>
        refine .ite ?_ (BodyContext.ends_unsupported hPos)
        refine .bind (deriveCall_ends hInner hArgs) fun d hd => ?_
        refine .bind (initRequest_ends hPos h) fun request hRequest => .ok (.derive hInner ?_)
        refine ⟨hd.values, ?_⟩
        rintro _ ⟨⟩
        exact hRequest
  · exact BodyContext.ends_unsupported hPos

theorem callStatement_ends {callee : Syntax.Expr} {args : List Syntax.Expr} (hCallee : callee.At P)
    (h : ∀ e ∈ args, e.At P) :
    Ends (c.Refusal P) (Statement.At P) (callStatement c callee args) := by
  unfold callStatement
  split
  · cases hCallee with
    | member hObject hPos =>
      have hRefused {message : Text} : Ends (c.Refusal P) (Statement.At P)
          (.error (c.unsupported _ message)) := BodyContext.ends_unsupported hPos
      refine .ite (initCall_ends hPos hObject h) ?_
      split
      · split
        · exact .bind (crossProgramCall_ends hPos h) fun call hCall => .ok hCall
        · refine .ite hRefused (.ite ?_ (.ite ?_ hRefused))
          · exact .bind (deriveCall_ends hPos h) fun d hd => .ok (.derive hPos hd)
          · exact .bind (closeCall_ends hPos h) fun call _ => .ok (.close hPos)
      · exact hRefused
  · exact BodyContext.ends_unsupported hCallee.pos

theorem assignStatement_ends {target value : Syntax.Expr} (hPos : P pos) (hValue : value.At P) :
    Ends (c.Refusal P) (Statement.At P) (assignStatement c pos target value) := by
  unfold assignStatement
  split
  · exact .bind (valueOf_ends hValue) fun v hv => .ok (.assign hPos hv)
  · exact BodyContext.ends_unsupported hPos

theorem declaredType_ends {name : Text} {type : Option Syntax.TypeRef}
    (hType : ∀ t ∈ type, P t.pos) :
    Ends (c.Refusal P) (fun _ => True) (declaredType c name type) := by
  unfold declaredType
  split
  · exact .ok trivial
  · split
    · exact .ok trivial
    · exact BodyContext.ends_refuse (hType _ rfl) (by decide)

theorem bindStatement_ends {declared : List Text} {kind : Syntax.BindingKind} {name : Text}
    {type : Option Syntax.TypeRef} {value : Syntax.Expr} (hPos : P pos)
    (hType : ∀ t ∈ type, P t.pos) (hValue : value.At P) :
    Ends (c.Refusal P) (Statement.At P) (bindStatement c declared pos kind name type value) := by
  refine .ite (BodyContext.ends_refuse hPos (by decide)) ?_
  refine .bind (valueOf_ends hValue) fun v hv => ?_
  exact .bind (declaredType_ends hType) fun _ _ => .ok (.bind hPos hv)

theorem bodyOf_ends {declared : List Text} {ss : List Syntax.Statement} (h : ∀ s ∈ ss, s.At P) :
    Ends (c.Refusal P) (fun body => ∀ s ∈ body, s.At P) (bodyOf c declared ss) := by
  fun_induction bodyOf c declared ss with
  | case1 | case3 => exact .ok (List.forall_mem_nil _)
  | case2 =>
    cases h _ List.mem_cons_self with
    | ret hPos _ => exact BodyContext.ends_unsupported hPos
  | case4 declared pos kind name type value rest ih =>
    obtain ⟨hFirst, hRest⟩ := List.forall_mem_cons.mp h
    cases hFirst with
    | binding hPos hType hValue =>
      refine .bind (bindStatement_ends hPos hType hValue) fun s hs => ?_
      exact .bind (ih hRest) fun body hBody => .ok (List.forall_mem_cons.mpr ⟨hs, hBody⟩)
  | case5 declared pos target value rest ih =>
    obtain ⟨hFirst, hRest⟩ := List.forall_mem_cons.mp h
    cases hFirst with
    | expr hPos hAssign =>
      cases hAssign with
      | assign _ hValue =>
        refine .bind (assignStatement_ends hPos hValue) fun s hs => ?_
        exact .bind (ih hRest) fun body hBody => .ok (List.forall_mem_cons.mpr ⟨hs, hBody⟩)
  | case6 declared pos callee args rest ih =>
    obtain ⟨hFirst, hRest⟩ := List.forall_mem_cons.mp h
    cases hFirst with
    | expr _ hCall =>
      cases hCall with
      | call hCallee hArgs =>
        refine .bind (callStatement_ends hCallee hArgs) fun s hs => ?_
        exact .bind (ih hRest) fun body hBody => .ok (List.forall_mem_cons.mpr ⟨hs, hBody⟩)
  | case7 =>
    cases h _ List.mem_cons_self with
    | expr hPos _ => exact BodyContext.ends_unsupported hPos

end Body

section Declarations

variable {name : Text} {s : Settings} {isState : Text → Bool} {α : Type} {A : α → Prop}

theorem ends_refuse {kind : Diagnostic.Kind} {pos : SourcePos} {message : Text} (hPos : P pos)
    (hKind : kind ∈ Diagnostic.Kind.known) :
    Ends (Diagnostic.Placed name P) A (.error (refuse name kind pos message)) :=
  .error ⟨hKind, rfl, .inl hPos⟩

theorem ends_refuse_within {kind : Diagnostic.Kind} {pos : SourcePos}
    {message instruction account : Text} (hPos : P pos) (hKind : kind ∈ Diagnostic.Kind.known) :
    Ends (Diagnostic.Placed name P) A
      (.error ((refuse name kind pos message).within instruction account)) :=
  .error ⟨hKind, rfl, .inl hPos⟩

theorem defaultClass_ends {found : Option Syntax.ClassDecl} {classes : List Syntax.ClassDecl}
    (hFound : ∀ c ∈ found, c.At P) (h : ∀ c ∈ classes, c.At P) :
    Ends (Diagnostic.Placed name P) (Syntax.ClassDecl.At P) (defaultClass name found classes) := by
  fun_induction defaultClass name found classes with
  | case1 c => exact .ok (hFound c rfl)
  | case2 =>
    have hKnown : Diagnostic.Kind.missingProgramDeclaration ∈ Diagnostic.Kind.known := by decide
    exact .error ⟨hKnown, rfl, .inr ⟨rfl, rfl⟩⟩
  | case3 c => exact ends_refuse (h c List.mem_cons_self).pos (by decide)
  | case4 c cs _ ih =>
    obtain ⟨hc, hcs⟩ := List.forall_mem_cons.mp h
    refine ih ?_ hcs
    rintro _ ⟨⟩
    exact hc
  | case5 found c cs _ ih => exact ih hFound (List.forall_mem_cons.mp h).2

theorem programClass_ends {classes : List Syntax.ClassDecl} (h : ∀ c ∈ classes, c.At P) :
    Ends (Diagnostic.Placed name P) (Syntax.ClassDecl.At P) (programClass name classes) := by
  refine .bind (defaultClass_ends nofun h) fun program hProgram => ?_
  split
  · exact .ok hProgram
  · rename_i c hOther
    have hPos := (h c (List.mem_of_find?_eq_some hOther)).pos
    exact .ite (ends_refuse hPos (by decide)) (ends_refuse hPos (by decide))

theorem idDeclaration_ends {cls : Syntax.ClassDecl} {found : Option Syntax.PropertyDecl}
    {ps : List Syntax.PropertyDecl} (hClass : P cls.pos) (hFound : ∀ p ∈ found, p.At P)
    (h : ∀ p ∈ ps, p.At P) :
    Ends (Diagnostic.Placed name P) (Syntax.PropertyDecl.At P)
      (idDeclaration name cls found ps) := by
  fun_induction idDeclaration name cls found ps with
  | case1 p => exact .ok (hFound p rfl)
  | case2 => exact ends_refuse hClass (by decide)
  | case3 _ p | case4 _ p => exact ends_refuse (h p List.mem_cons_self).pos (by decide)
  | case5 found p ps _ _ ih =>
    obtain ⟨hp, hps⟩ := List.forall_mem_cons.mp h
    refine ih ?_ hps
    rintro _ ⟨⟩
    exact hp

theorem declaredId_ends {cls : Syntax.ClassDecl} (h : cls.At P) :
    Ends (Diagnostic.Placed name P) (fun _ => True) (declaredId name cls) := by
  refine .bind (idDeclaration_ends h.pos nofun h.properties) fun p hp => ?_
  have hRefused {message : Text} : Ends (Diagnostic.Placed name P) (fun _ : Text => True)
      (.error (refuse name .invalidProgramId p.pos message)) := ends_refuse hp.pos (by decide)
  dsimp only
  split
  · refine .ite ?_ hRefused
    split
    · exact .ok trivial
    · exact hRefused
  · exact hRefused

theorem stateNames_ends {seen : List Text} {is : List Syntax.InterfaceDecl}
    (h : ∀ i ∈ is, i.At P) :
    Ends (Diagnostic.Placed name P) (fun _ => True) (stateNames name seen is) := by
  induction is generalizing seen with
  | nil => exact .ok trivial
  | cons i is ih =>
    obtain ⟨hi, his⟩ := List.forall_mem_cons.mp h
    exact .ite (ends_refuse hi.pos (by decide)) (ih his)

theorem stateFields_ends {stateName : Text} {seen : List Text} {fs : List Syntax.FieldDecl}
    (h : ∀ f ∈ fs, f.At P) :
    Ends (Diagnostic.Placed name P) (fun _ => True)
      (stateFields name s stateName isState seen fs) := by
  induction fs generalizing seen with
  | nil => exact .ok trivial
  | cons f fs ih =>
    obtain ⟨hf, hfs⟩ := List.forall_mem_cons.mp h
    refine .ite (ends_refuse hf.pos (by decide)) ?_
    split
    · exact .bind (ih hfs) fun _ _ => .ok trivial
    · have hKnown : Diagnostic.Kind.unknownType ∈ Diagnostic.Kind.known := by decide
      exact .error ⟨hKnown, rfl, .inl hf.type⟩

theorem paramsOf_ends {instruction : Text} {seen : List Text} {fs : List Syntax.FieldDecl}
    (h : ∀ f ∈ fs, f.At P) :
    Ends (Diagnostic.Placed name P) (fun params => ∀ q ∈ params, P q.pos)
      (paramsOf name s instruction isState seen fs) := by
  induction fs generalizing seen with
  | nil => exact .ok (List.forall_mem_nil _)
  | cons f fs ih =>
    obtain ⟨hf, hfs⟩ := List.forall_mem_cons.mp h
    refine .ite (ends_refuse_within hf.pos (by decide)) ?_
    split
    · exact .bind (ih hfs) fun rest hRest => .ok (List.forall_mem_cons.mpr ⟨hf.pos, hRest⟩)
    · exact ends_refuse_within hf.type (by decide)

theorem returnType_ends {instruction : Text} {type : Option Syntax.TypeRef}
    (hType : ∀ t ∈ type, P t.pos) :
    Ends (Diagnostic.Placed name P) (fun _ => True) (returnType name instruction type) := by
  unfold returnType
  split
  · exact .ok trivial
  · refine .ite (.ok trivial) ?_
    exact ends_refuse_within (hType _ rfl) (by decide)

theorem instructionOf_ends {m : Syntax.MethodDecl} (h : m.At P) :
    Ends (Diagnostic.Placed name P) (Instruction.At P) (instructionOf name s isState m) := by
  refine .ite (ends_refuse h.pos (by decide)) ?_
  refine .bind (returnType_ends h.returns) fun _ _ => ?_
  refine .bind (paramsOf_ends h.params) fun params hParams => ?_
  refine .bind ((bodyOf_ends h.body).mono fun _ hd => hd.toPlaced) fun body hBody => ?_
  exact .ok ⟨hParams, hBody⟩

theorem instructionsOf_ends {seen : List Text} {ms : List Syntax.MethodDecl}
    (h : ∀ m ∈ ms, m.At P) :
    Ends (Diagnostic.Placed name P) (fun is => ∀ i ∈ is, i.At P)
      (instructionsOf name s isState seen ms) := by
  induction ms generalizing seen with
  | nil => exact .ok (List.forall_mem_nil _)
  | cons m ms ih =>
    obtain ⟨hm, hms⟩ := List.forall_mem_cons.mp h
    refine .ite (ends_refuse hm.pos (by decide)) ?_
    refine .bind (instructionOf_ends hm) fun i hi => ?_
    exact .bind (ih hms) fun is his => .ok (List.forall_mem_cons.mpr ⟨hi, his⟩)

theorem ofFile_ends {f : Syntax.File} (h : f.At P) :
    Ends (Diagnostic.Placed name P) (fun p => ∀ i ∈ p.instructions, i.At P) (ofFile name s f) := by
  have hInterfaces : ∀ i ∈ f.interfaces.filter isStateInterface, i.At P :=
    fun i hi => h.interfaces i (List.mem_of_mem_filter hi)
  refine .bind (programClass_ends h.classes) fun cls hClass => ?_
  refine .bind (stateNames_ends hInterfaces) fun names _ => ?_
  refine .bind (.mapM (B := fun _ => True) fun i hi => ?_) fun states _ => ?_
  · exact .bind (stateFields_ends (hInterfaces i hi).fields) fun _ _ => .ok trivial
  refine .bind (declaredId_ends hClass) fun id _ => ?_
  exact .bind (instructionsOf_ends hClass.methods) fun is his => .ok his

end Declarations

end Program

end AnchorScript
