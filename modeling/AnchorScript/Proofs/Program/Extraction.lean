import AnchorScript.Compiler
import AnchorScript.Proofs.Resolution.AccountRecord

/-!
# What an accepted source says

`Extracts` lists, form by form, which statement of an instruction a statement of a method becomes.
A body is extracted statement by statement, its trailing `return` aside, and the instructions of a
program are the methods of its class in order.
-/

namespace AnchorScript

open Outcome

def Syntax.Statement.isReturn : Syntax.Statement → Bool
  | .ret .. => true
  | _ => false

namespace Program

/-- The value that an expression of the source stands for. -/
inductive StandsFor (c : BodyContext) : Syntax.Expr → Value → Prop
  | int {pos : SourcePos} {lit : Text} (hValid : IntLiteral.isValid lit = true) :
      StandsFor c (.number pos lit) (.int pos lit)
  | bool {pos : SourcePos} {b : Bool} : StandsFor c (.bool pos b) (.bool pos b)
  | string {pos : SourcePos} {s : Text} : StandsFor c (.string pos s) (.string pos s)
  | account {pos : SourcePos} {id : Text} {q : Param} (hParam : c.param? id = some q)
      (hAccount : q.type.isAccount = true) : StandsFor c (.name pos id) (.account pos id)
  | arg {pos : SourcePos} {id : Text} {q : Param} (hParam : c.param? id = some q)
      (hValue : q.type.isAccount = false) : StandsFor c (.name pos id) (.arg pos id false)
  | var {pos : SourcePos} {id : Text} (hParam : c.param? id = none) :
      StandsFor c (.name pos id) (.var pos id false)
  | key {object : Syntax.Expr} {pos : SourcePos} {name account : Text}
      (hPath : (Syntax.Expr.member object pos name).path? = some [account, Text.ofString "key"]) :
      StandsFor c (.member object pos name) (.key pos account false)
  | field {object : Syntax.Expr} {pos : SourcePos} {name account field : Text}
      (hPath : (Syntax.Expr.member object pos name).path? = some [account, field])
      (hField : field ≠ "key") :
      StandsFor c (.member object pos name) (.field pos account field false)
  | bump {npos pos : SourcePos} {account : Text} :
      StandsFor c (.call (.member (.name npos account) pos (Text.ofString "getBump")) [])
        (.bump pos account)
  | toBytes {object : Syntax.Expr} {pos : SourcePos} {v w : Value} (hObject : StandsFor c object v)
      (hBytes : bytesOf? v = some w) :
      StandsFor c (.call (.member object pos (Text.ofString "toBytes")) []) w
  | paren {pos : SourcePos} {e : Syntax.Expr} {v : Value} (hInner : StandsFor c e v) :
      StandsFor c (.paren pos e) (.paren pos v)
  | neg {pos : SourcePos} {e : Syntax.Expr} {v : Value} (hOperand : StandsFor c e v) :
      StandsFor c (.unary pos .neg e) (.neg pos v)
  | binary {op : Syntax.BinaryOp} {arith : ArithOp} {l r : Syntax.Expr} {v w : Value}
      (hOp : arithOp? op = some arith) (hLeft : StandsFor c l v) (hRight : StandsFor c r w) :
      StandsFor c (.binary op l r) (.binary l.pos arith v w)

theorem standsFor_of_valueOf {c : BodyContext} {e : Syntax.Expr} {v : Value}
    (h : valueOf c e = .ok v) : StandsFor c e v := by
  fun_induction valueOf c e generalizing v with
  | case1 pos lit hValid =>
    cases h
    exact .int hValid
  | case2 => cases h
  | case3 =>
    cases h
    exact .string
  | case4 =>
    cases h
    exact .bool
  | case5 pos id =>
    cases h
    unfold nameValue
    split
    · rename_i q hParam
      split
      · rename_i hAccount
        exact .account hParam hAccount
      · rename_i hValue
        exact .arg hParam (by simpa using hValue)
    · rename_i hParam
      exact .var hParam
  | case6 object pos name =>
    unfold memberValue at h
    split at h
    · rename_i account field hPath
      split at h
      · rename_i hKey
        cases h
        subst hKey
        exact .key hPath
      · rename_i hField
        cases h
        exact .field hPath hField
    · cases h
  | case7 pos npos account =>
    cases h
    exact .bump
  | case8 => cases h
  | case9 object pos whole hMethod =>
    rename_i ih
    simp only [bind_eq_ok_iff] at h
    obtain ⟨v', hObject, h⟩ := h
    split at h
    · rename_i w hBytes
      cases h
      exact .toBytes (ih hObject) hBytes
    · cases h
  | case10 => cases h
  | case11 => cases h
  | case12 pos inner ih =>
    simp only [bind_eq_ok_iff, pure_eq_ok_iff] at h
    obtain ⟨v', hInner, rfl⟩ := h
    exact .paren (ih hInner)
  | case13 pos operand ih =>
    simp only [bind_eq_ok_iff, pure_eq_ok_iff] at h
    obtain ⟨v', hOperand, rfl⟩ := h
    exact .neg (ih hOperand)
  | case14 => cases h
  | case15 => cases h
  | case16 op left right arith hOp ihLeft ihRight =>
    simp only [bind_eq_ok_iff, pure_eq_ok_iff] at h
    obtain ⟨v, hLeft, w, hRight, rfl⟩ := h
    exact .binary hOp (ihLeft hLeft) (ihRight hRight)
  | case17 => cases h

theorem not_isDeriveMethod_of_ofNames? {id method : Text} {k : CallKind}
    (h : CallKind.ofNames? id method = some k) : isDeriveMethod method = false := by
  have hNames : method = "transfer" ∨ method = "mintTo" ∨ method = "burn" := by
    unfold CallKind.ofNames? at h
    split at h
    · simp_all
    · split at h
      · simp_all
      · split at h
        · simp_all
        · split at h
          · simp_all
          · cases h
  rcases hNames with rfl | rfl | rfl <;> decide

/-- The statement of the instruction that a statement of the method becomes. -/
inductive Extracts (c : BodyContext) : Syntax.Statement → Statement → Prop
  | bind {pos : SourcePos} {kind : Syntax.BindingKind} {name : Text}
      {type : Option Syntax.TypeRef} {value : Syntax.Expr} {v : Value} {declared : Option DataType}
      (hFresh : c.param? name = none)
      (hValue : valueOf c value = .ok v)
      (hDeclared : declaredType c name type = .ok declared) :
      Extracts c (.binding pos kind name type value)
        (.bind pos { name, isMutable := kind = .letting, declared, value := v })
  | assign {pos : SourcePos} {target value : Syntax.Expr} {account field : Text} {v : Value}
      (hTarget : target.path? = some [account, field])
      (hValue : valueOf c value = .ok v) :
      Extracts c (.expr pos (.assign target value)) (.assign pos { account, field, value := v })
  | call {spos npos pos : SourcePos} {id method : Text} {k : CallKind} {args : List Syntax.Expr}
      {call : CrossProgramCall}
      (hKind : CallKind.ofNames? id method = some k)
      (hCall : crossProgramCall c pos k args = .ok call) :
      Extracts c (.expr spos (.call (.member (.name npos id) pos method) args)) (.call pos call)
  | derive {spos npos pos : SourcePos} {id method : Text} {args : List Syntax.Expr} {d : Derive}
      (hMethod : isDeriveMethod method = true)
      (hKind : CallKind.ofNames? id method = none)
      (hDerive : deriveCall c (.name npos id) pos method args = .ok d) :
      Extracts c (.expr spos (.call (.member (.name npos id) pos method) args)) (.derive pos d)
  | init {spos ipos pos : SourcePos} {object : Syntax.Expr} {method : Text}
      {args initArgs : List Syntax.Expr} {d : Derive} {request : InitRequest}
      (hMethod : isDeriveMethod method = true)
      (hDerive : deriveCall c object pos method args = .ok d)
      (hRequest : initRequest c ipos d.account initArgs = .ok request) :
      Extracts c (.expr spos (.call (.member (.call (.member object pos method) args) ipos
        (Text.ofString "init")) initArgs)) (.derive pos { d with init := some request })
  | close {spos npos pos : SourcePos} {id : Text} {args : List Syntax.Expr} {call : CloseAccount}
      (hKind : CallKind.ofNames? id "close" = none)
      (hClose : closeCall c pos id args = .ok call) :
      Extracts c (.expr spos (.call (.member (.name npos id) pos (Text.ofString "close")) args))
        (.close pos call)

variable {c : BodyContext} {declared : List Text}

theorem extracts_of_bindStatement {pos : SourcePos} {kind : Syntax.BindingKind} {name : Text}
    {type : Option Syntax.TypeRef} {value : Syntax.Expr} {s : Statement}
    (h : bindStatement c declared pos kind name type value = .ok s) :
    Extracts c (.binding pos kind name type value) s := by
  simp only [bindStatement, refused_or_eq_ok_iff, bind_eq_ok_iff, pure_eq_ok_iff] at h
  obtain ⟨hFresh, v, hValue, type', hDeclared, rfl⟩ := h
  simp only [Bool.or_eq_true, not_or, Option.not_isSome_iff_eq_none] at hFresh
  exact .bind hFresh.1 hValue hDeclared

theorem extracts_of_assignStatement {pos : SourcePos} {target value : Syntax.Expr} {s : Statement}
    (h : assignStatement c pos target value = .ok s) :
    Extracts c (.expr pos (.assign target value)) s := by
  unfold assignStatement at h
  split at h
  · rename_i account field hTarget
    simp only [bind_eq_ok_iff, pure_eq_ok_iff] at h
    obtain ⟨v, hValue, rfl⟩ := h
    exact .assign hTarget hValue
  · cases h

theorem extracts_of_initCall {spos ipos : SourcePos} {object : Syntax.Expr}
    {args : List Syntax.Expr} {s : Statement} (h : initCall c ipos object args = .ok s) :
    Extracts c (.expr spos (.call (.member object ipos (Text.ofString "init")) args)) s := by
  unfold initCall at h
  split at h
  · rename_i inner pos method deriveArgs
    simp only [allowed_or_eq_ok_iff, bind_eq_ok_iff, pure_eq_ok_iff] at h
    obtain ⟨hMethod, d, hDerive, request, hRequest, rfl⟩ := h
    exact .init hMethod hDerive hRequest
  · cases h

theorem extracts_of_callStatement {spos : SourcePos} {callee : Syntax.Expr}
    {args : List Syntax.Expr} {s : Statement} (h : callStatement c callee args = .ok s) :
    Extracts c (.expr spos (.call callee args)) s := by
  unfold callStatement at h
  split at h
  · rename_i object pos method
    by_cases hInit : method = "init"
    · subst hInit
      exact extracts_of_initCall (by simpa using h)
    · simp only [hInit, ↓reduceIte] at h
      split at h
      · rename_i npos id
        split at h
        · rename_i k hKind
          simp only [bind_eq_ok_iff, pure_eq_ok_iff] at h
          obtain ⟨call, hCall, rfl⟩ := h
          exact .call hKind hCall
        · rename_i hKind
          simp only [refused_or_eq_ok_iff] at h
          obtain ⟨_, h⟩ := h
          split at h
          · rename_i hMethod
            simp only [bind_eq_ok_iff, pure_eq_ok_iff] at h
            obtain ⟨d, hDerive, rfl⟩ := h
            exact .derive hMethod hKind hDerive
          · simp only [allowed_or_eq_ok_iff, bind_eq_ok_iff, pure_eq_ok_iff] at h
            obtain ⟨rfl, call, hClose, rfl⟩ := h
            exact .close hKind hClose
      · cases h
  · cases h

/-- The parties, the amount and the seeds of a call are its arguments, in this order. -/
theorem crossProgramCall_ok {pos : SourcePos} {k : CallKind} {args : List Syntax.Expr}
    {call : CrossProgramCall} (h : crossProgramCall c pos k args = .ok call) :
    ∃ names amount rest, args.drop k.parties = amount :: rest ∧ rest.length ≤ 1 ∧
      partyNames c k 1 (args.take k.parties) = .ok names ∧
      call.action = k.action (names.getD 0 []) (names.getD 1 []) (names.getD 2 []) ∧
      valueOf c amount = .ok call.amount ∧
      signerSeeds c k call.action.signer rest = .ok call.signerSeeds := by
  have hRest {amount : Syntax.Expr} {rest : List Syntax.Expr}
      (hDrop : args.drop k.parties = amount :: rest) : args.drop (k.parties + 1) = rest := by
    rw [← List.drop_drop, hDrop]
    rfl
  unfold crossProgramCall at h
  split at h
  · rename_i amount hDrop
    simp only [bind_eq_ok_iff, pure_eq_ok_iff, hRest hDrop] at h
    obtain ⟨names, hNames, v, hAmount, seeds, hSeeds, rfl⟩ := h
    exact ⟨names, amount, [], hDrop, Nat.zero_le 1, hNames, rfl, hAmount, hSeeds⟩
  · rename_i amount last hDrop
    simp only [bind_eq_ok_iff, pure_eq_ok_iff, hRest hDrop] at h
    obtain ⟨names, hNames, v, hAmount, seeds, hSeeds, rfl⟩ := h
    exact ⟨names, amount, [last], hDrop, Nat.le_refl 1, hNames, rfl, hAmount, hSeeds⟩
  · cases h

/-- A body is extracted statement by statement. -/
theorem extracts_of_bodyOf {ss : List Syntax.Statement} {body : List Statement}
    (h : bodyOf c declared ss = .ok body) :
    List.Forall₂ (Extracts c) (ss.filter (!·.isReturn)) body := by
  fun_induction bodyOf c declared ss generalizing body with
  | case1 =>
    cases h
    exact .nil
  | case2 => cases h
  | case3 declared pos value rest hBare =>
    cases h
    simp only [Bool.or_eq_true, Bool.not_eq_true', not_or, Bool.not_eq_false] at hBare
    obtain rfl : rest = [] := List.isEmpty_iff.mp hBare.2
    exact .nil
  | case4 declared pos kind name type value rest ih =>
    simp only [bind_eq_ok_iff, pure_eq_ok_iff] at h
    obtain ⟨s, hs, body', hBody, rfl⟩ := h
    exact .cons (extracts_of_bindStatement hs) (ih hBody)
  | case5 declared pos target value rest ih =>
    simp only [bind_eq_ok_iff, pure_eq_ok_iff] at h
    obtain ⟨s, hs, body', hBody, rfl⟩ := h
    exact .cons (extracts_of_assignStatement hs) (ih hBody)
  | case6 declared pos callee args rest ih =>
    simp only [bind_eq_ok_iff, pure_eq_ok_iff] at h
    obtain ⟨s, hs, body', hBody, rfl⟩ := h
    exact .cons (extracts_of_callStatement hs) (ih hBody)
  | case7 => cases h

/-- Where the body of an instruction stood when it was extracted. -/
def bodyContext (file : Text) (s : Settings) (i : Instruction) : BodyContext :=
  ⟨file, i.name, i.params, s.stringMaxLen⟩

/-- The instruction that a method becomes. -/
structure ExtractsMethod (file : Text) (s : Settings) (m : Syntax.MethodDecl) (i : Instruction) :
    Prop where
  name : i.name = m.name
  params : i.DistinctParams
  body : List.Forall₂ (Extracts (bodyContext file s i)) (m.body.filter (!·.isReturn)) i.body

variable {file : Text} {s : Settings} {isState : Text → Bool}

/-- The names are distinct, and none of them is among those seen before. -/
def Unseen (seen names : List Text) : Prop := names.Nodup ∧ ∀ n ∈ names, n ∉ seen

theorem Unseen.cons {seen names : List Text} {name : Text} (hName : seen.contains name = false)
    (h : Unseen (name :: seen) names) : Unseen seen (name :: names) := by
  obtain ⟨hNodup, hApart⟩ := h
  simp only [List.mem_cons, not_or] at hApart
  refine ⟨List.nodup_cons.mpr ⟨fun hMem => (hApart name hMem).1 rfl, hNodup⟩, ?_⟩
  exact List.forall_mem_cons.mpr ⟨by simpa using hName, fun n hn => (hApart n hn).2⟩

theorem paramsOf_unseen {instruction : Text} {seen : List Text} {fs : List Syntax.FieldDecl}
    {params : List Param} (h : paramsOf file s instruction isState seen fs = .ok params) :
    Unseen seen (params.map (·.name)) := by
  fun_induction paramsOf file s instruction isState seen fs generalizing params with
  | case1 =>
    cases h
    exact ⟨List.nodup_nil, by simp⟩
  | case2 => cases h
  | case3 seen f fs hSeen type hType ih =>
    simp only [bind_eq_ok_iff, pure_eq_ok_iff] at h
    obtain ⟨rest, hRest, rfl⟩ := h
    exact (ih hRest).cons (by simpa using hSeen)
  | case4 => cases h

theorem extractsMethod_of_instructionOf {m : Syntax.MethodDecl} {i : Instruction}
    (h : instructionOf file s isState m = .ok i) : ExtractsMethod file s m i := by
  simp only [instructionOf, refused_or_eq_ok_iff, bind_eq_ok_iff, pure_eq_ok_iff] at h
  obtain ⟨_, returns, _, params, hParams, body, hBody, rfl⟩ := h
  exact ⟨rfl, (paramsOf_unseen hParams).1, extracts_of_bodyOf hBody⟩

theorem extractsMethod_of_instructionsOf {seen : List Text} {ms : List Syntax.MethodDecl}
    {is : List Instruction} (h : instructionsOf file s isState seen ms = .ok is) :
    List.Forall₂ (ExtractsMethod file s) ms is := by
  induction ms generalizing seen is with
  | nil =>
    cases h
    exact .nil
  | cons m ms ih =>
    simp only [instructionsOf, refused_or_eq_ok_iff, bind_eq_ok_iff, pure_eq_ok_iff] at h
    obtain ⟨_, i, hi, is', his, rfl⟩ := h
    exact .cons (extractsMethod_of_instructionOf hi) (ih his)

theorem instructionsOf_unseen {seen : List Text} {ms : List Syntax.MethodDecl}
    {is : List Instruction} (h : instructionsOf file s isState seen ms = .ok is) :
    Unseen seen (is.map (·.name)) := by
  induction ms generalizing seen is with
  | nil =>
    cases h
    exact ⟨List.nodup_nil, by simp⟩
  | cons m ms ih =>
    simp only [instructionsOf, refused_or_eq_ok_iff, bind_eq_ok_iff, pure_eq_ok_iff] at h
    obtain ⟨hSeen, i, hi, is', his, rfl⟩ := h
    rw [List.map_cons, (extractsMethod_of_instructionOf hi).name]
    exact (ih his).cons (by simpa using hSeen)

theorem mem_of_defaultClass {found : Option Syntax.ClassDecl} {classes : List Syntax.ClassDecl}
    {cls : Syntax.ClassDecl} (h : defaultClass file found classes = .ok cls) :
    found = some cls ∨ cls ∈ classes := by
  fun_induction defaultClass file found classes with
  | case1 c =>
    cases h
    exact .inl rfl
  | case2 => cases h
  | case3 => cases h
  | case4 c cs _ ih =>
    rcases ih h with hSame | hMem
    · cases hSame
      exact .inr List.mem_cons_self
    · exact .inr (List.mem_cons_of_mem c hMem)
  | case5 found c cs _ ih => exact (ih h).imp_right (List.mem_cons_of_mem c)

theorem mem_of_programClass {classes : List Syntax.ClassDecl} {cls : Syntax.ClassDecl}
    (h : programClass file classes = .ok cls) : cls ∈ classes := by
  obtain ⟨program, hDefault, h⟩ := bind_eq_ok_iff.mp h
  split at h
  · cases h
    rcases mem_of_defaultClass hDefault with hNone | hMem
    · cases hNone
    · exact hMem
  · split at h <;> cases h

theorem defaultClass_of_all {found : Option Syntax.ClassDecl} {classes : List Syntax.ClassDecl}
    {c : Syntax.ClassDecl} (h : defaultClass file found classes = .ok c)
    (hAll : ∀ c ∈ classes, c.isDefault = true) :
    found = some c ∧ classes = [] ∨ found = none ∧ classes = [c] := by
  fun_induction defaultClass file found classes with
  | case1 c' =>
    cases h
    exact .inl ⟨rfl, rfl⟩
  | case2 => cases h
  | case3 => cases h
  | case4 c' cs _ ih =>
    obtain ⟨_, hRest⟩ := List.forall_mem_cons.mp hAll
    rcases ih h hRest with ⟨hSame, rfl⟩ | ⟨hNone, _⟩
    · cases hSame
      exact .inr ⟨rfl, rfl⟩
    · cases hNone
  | case5 found c' cs hOther _ => exact absurd (hAll c' List.mem_cons_self) hOther

/-- The program class is the only class. -/
theorem programClass_ok {classes : List Syntax.ClassDecl} {c : Syntax.ClassDecl}
    (h : programClass file classes = .ok c) : classes = [c] ∧ c.isDefault = true := by
  obtain ⟨program, hDefault, h⟩ := bind_eq_ok_iff.mp h
  split at h
  · rename_i hNone
    cases h
    have hAll : ∀ c ∈ classes, c.isDefault = true := by simpa using hNone
    rcases defaultClass_of_all hDefault hAll with ⟨hFound, _⟩ | ⟨_, rfl⟩
    · cases hFound
    · exact ⟨rfl, hAll c (List.mem_singleton_self c)⟩
  · split at h <;> cases h

theorem programClass_singleton {c : Syntax.ClassDecl} (h : c.isDefault = true) :
    programClass file [c] = .ok c := by
  simp [programClass, defaultClass, h]

theorem extractsMethod_of_ofFile {f : Syntax.File} {p : Program} (h : ofFile file s f = .ok p) :
    p.file = file ∧ ∃ cls, programClass file f.classes = .ok cls ∧
      List.Forall₂ (ExtractsMethod file s) cls.methods p.instructions := by
  simp only [ofFile, bind_eq_ok_iff, pure_eq_ok_iff] at h
  obtain ⟨cls, hClass, names, _, states, _, id, _, is, his, rfl⟩ := h
  exact ⟨rfl, cls, hClass, extractsMethod_of_instructionsOf his⟩

end Program

/-- The stages from a method of the source to its handler. -/
structure Translated (o : CompileOptions) (name : Text) (p : Program) (m : Syntax.MethodDecl)
    (r : ResolvedInstruction) (t : Handler) : Prop where
  extracted : Program.ExtractsMethod name o.settings m r.source
  resolved : Resolution.resolveInstruction p r.source = .ok r
  handler : Handler.ofInstruction p r = .ok t

/-- Methods, resolved instructions and handlers correspond one to one. -/
theorem translated_of_handlers {o : CompileOptions} {name src : Text} {r : ResolvedProgram}
    {hs : List Handler} (h : resolveSource o name src = .ok r) (hHandlers : r.handlers = .ok hs) :
    ∃ f cls, Syntax.parse name src = .ok f ∧ Program.programClass name f.classes = .ok cls ∧
      r.instructions.length = hs.length ∧
      List.Forall₂ (fun m it => Translated o name r.source m it.1 it.2) cls.methods
        (r.instructions.zip hs) := by
  obtain ⟨p, hExtracted, hp⟩ := bind_eq_ok_iff.mp h
  obtain ⟨f, hParsed, hFile⟩ := bind_eq_ok_iff.mp hExtracted
  obtain ⟨_, cls, hClass, hMethods⟩ := Program.extractsMethod_of_ofFile hFile
  obtain ⟨rfl, hInstructions⟩ := Program.resolve_eq_ok_iff.mp hp
  have hTranslated := mapM_eq_ok_iff.mp hHandlers
  refine ⟨f, cls, hParsed, hClass, hTranslated.length_eq, ?_⟩
  refine (forall₂_zip (forall₂_trans hMethods hInstructions) hTranslated).imp ?_
  rintro m ⟨i, t⟩ ⟨⟨source, hMethod, hInstruction⟩, hHandler⟩
  obtain ⟨_, sc, _, rfl⟩ := Resolution.resolveInstruction_eq_ok_iff.mp hInstruction
  exact ⟨hMethod, hInstruction, hHandler⟩

/-- The parameters of an extracted instruction have distinct names. -/
theorem extractProgram_distinctParams {o : CompileOptions} {name src : Text} {p : Program}
    (h : extractProgram o name src = .ok p) : p.DistinctParams := by
  obtain ⟨f, _, hFile⟩ := bind_eq_ok_iff.mp h
  obtain ⟨_, cls, _, hMethods⟩ := Program.extractsMethod_of_ofFile hFile
  intro i hi
  obtain ⟨m, _, hMethod⟩ := exists_of_mem_right hMethods hi
  exact hMethod.params

theorem resolveSource_of_mem {o : CompileOptions} {name src : Text} {r : ResolvedProgram}
    (h : resolveSource o name src = .ok r) {i : ResolvedInstruction} (hi : i ∈ r.instructions) :
    i.source.DistinctParams ∧ Resolution.resolveInstruction r.source i.source = .ok i := by
  obtain ⟨p, hExtracted, hp⟩ := bind_eq_ok_iff.mp h
  obtain ⟨rfl, _⟩ := Program.resolve_eq_ok_iff.mp hp
  obtain ⟨hSource, hInstruction⟩ := Program.resolved_of_mem hp hi
  exact ⟨extractProgram_distinctParams hExtracted _ hSource, hInstruction⟩

theorem exists_compile_of_handlers {o : CompileOptions} {name src : Text} {r : ResolvedProgram}
    {hs : List Handler} (h : resolveSource o name src = .ok r) (hHandlers : r.handlers = .ok hs) :
    ∃ out, compile o name src = .ok out := by
  simp only [compile, bind_eq_ok_iff, pure_eq_ok_iff]
  exact ⟨_, r, h, hs, hHandlers, rfl⟩

/-- The output of a compilation is printed from the resolved program and its handlers. -/
theorem compile_ok {o : CompileOptions} {name src : Text} {out : CompileOutput}
    (h : compile o name src = .ok out) :
    ∃ r hs, resolveSource o name src = .ok r ∧ r.handlers = .ok hs ∧
      out.rust = (Rust.Crate.ofProgram r hs).text ∧
      ∀ t, out.interface = some t → t = (Interface.Description.ofProgram r).text := by
  simp only [compile, bind_eq_ok_iff, pure_eq_ok_iff] at h
  obtain ⟨r, hResolved, hs, hHandlers, rfl⟩ := h
  refine ⟨r, hs, hResolved, hHandlers, rfl, fun t ht => ?_⟩
  dsimp only at ht
  split at ht
  · exact (Option.some.inj ht).symm
  · cases ht

end AnchorScript
