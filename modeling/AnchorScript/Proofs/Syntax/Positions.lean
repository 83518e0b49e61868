import AnchorScript.Proofs.Syntax.Files
import AnchorScript.Proofs.Syntax.Passing

/-!
# Every node stands at a token

A tree keeps positions, and each of them is the position of a token it was read from. `At` says so of
each kind of node, for any property of positions that the tokens have. A source that is refused is
refused at one of its tokens.
-/

namespace AnchorScript.Syntax

open Outcome

inductive Expr.At (P : SourcePos → Prop) : Expr → Prop
  | name {pos : SourcePos} {id : Text} (hPos : P pos) : At P (.name pos id)
  | number {pos : SourcePos} {lit : Text} (hPos : P pos) : At P (.number pos lit)
  | string {pos : SourcePos} {value : Text} (hPos : P pos) : At P (.string pos value)
  | bool {pos : SourcePos} {value : Bool} (hPos : P pos) : At P (.bool pos value)
  | array {pos : SourcePos} {elems : List Expr} (hPos : P pos) (hElems : ∀ e ∈ elems, At P e) :
      At P (.array pos elems)
  | construct {pos : SourcePos} {className : Text} {args : List Expr} (hPos : P pos)
      (hArgs : ∀ e ∈ args, At P e) : At P (.construct pos className args)
  | paren {pos : SourcePos} {inner : Expr} (hPos : P pos) (hInner : At P inner) :
      At P (.paren pos inner)
  | unary {pos : SourcePos} {op : UnaryOp} {operand : Expr} (hPos : P pos)
      (hOperand : At P operand) : At P (.unary pos op operand)
  | binary {op : BinaryOp} {left right : Expr} (hLeft : At P left) (hRight : At P right) :
      At P (.binary op left right)
  | assign {target value : Expr} (hTarget : At P target) (hValue : At P value) :
      At P (.assign target value)
  | call {callee : Expr} {args : List Expr} (hCallee : At P callee) (hArgs : ∀ e ∈ args, At P e) :
      At P (.call callee args)
  | member {object : Expr} {pos : SourcePos} {field : Text} (hObject : At P object)
      (hPos : P pos) : At P (.member object pos field)
  | index {object position : Expr} (hObject : At P object) (hPosition : At P position) :
      At P (.index object position)

theorem Expr.At.pos {P : SourcePos → Prop} {e : Expr} (h : e.At P) : P e.pos := by
  induction h with
  | name hPos | number hPos | string hPos | bool hPos => exact hPos
  | array hPos | construct hPos | paren hPos | unary hPos => exact hPos
  | member _ hPos => exact hPos
  | binary _ _ ih _ | assign _ _ ih _ | index _ _ ih _ => exact ih
  | call _ _ ih _ => exact ih

structure FieldDecl.At (P : SourcePos → Prop) (f : FieldDecl) : Prop where
  pos : P f.pos
  type : P f.type.pos

inductive Statement.At (P : SourcePos → Prop) : Statement → Prop
  | binding {pos : SourcePos} {kind : BindingKind} {name : Text} {type : Option TypeRef}
      {value : Expr} (hPos : P pos) (hType : ∀ t ∈ type, P t.pos) (hValue : value.At P) :
      At P (.binding pos kind name type value)
  | expr {pos : SourcePos} {value : Expr} (hPos : P pos) (hValue : value.At P) :
      At P (.expr pos value)
  | ret {pos : SourcePos} {value : Option Expr} (hPos : P pos) (hValue : ∀ e ∈ value, e.At P) :
      At P (.ret pos value)

structure MethodDecl.At (P : SourcePos → Prop) (m : MethodDecl) : Prop where
  pos : P m.pos
  params : ∀ f ∈ m.params, f.At P
  returns : ∀ t ∈ m.returns, P t.pos
  body : ∀ s ∈ m.body, s.At P

structure PropertyDecl.At (P : SourcePos → Prop) (p : PropertyDecl) : Prop where
  pos : P p.pos
  value : p.value.At P

structure ClassDecl.At (P : SourcePos → Prop) (c : ClassDecl) : Prop where
  pos : P c.pos
  properties : ∀ p ∈ c.properties, p.At P
  methods : ∀ m ∈ c.methods, m.At P

structure InterfaceDecl.At (P : SourcePos → Prop) (i : InterfaceDecl) : Prop where
  pos : P i.pos
  fields : ∀ f ∈ i.fields, f.At P

structure File.At (P : SourcePos → Prop) (f : File) : Prop where
  classes : ∀ c ∈ f.classes, c.At P
  interfaces : ∀ i ∈ f.interfaces, i.At P

namespace Parser

variable {P : SourcePos → Prop} {ts : List Token}

/-- The property holds where each of the tokens stands. -/
def TokensAt (P : SourcePos → Prop) (ts : List Token) : Prop := ∀ t ∈ ts, P t.pos

theorem TokensAt.suffix {ts' : List Token} (h : TokensAt P ts) (hts : ts' <:+ ts) :
    TokensAt P ts' :=
  fun t ht => h t (hts.subset ht)

theorem at_of_spelledBy {e : Expr} (h : e.SpelledBy ts) (hts : TokensAt P ts) : e.At P := by
  induction h with
  | name => exact .name (hts _ (by simp))
  | number => exact .number (hts _ (by simp))
  | string => exact .string (hts _ (by simp))
  | bool => exact .bool (hts _ (by simp))
  | array _ _ hList ih =>
    refine .array (hts _ (by simp)) (List.forall_mem_map.mpr fun e he => ih e he fun t ht => ?_)
    have hPart := hList.subset e.2 (List.mem_map_of_mem he) ht
    exact hts t (by simp [hPart])
  | construct _ _ _ _ hList ih =>
    refine .construct (hts _ (by simp)) (List.forall_mem_map.mpr fun e he => ih e he fun t ht => ?_)
    have hPart := hList.subset e.2 (List.mem_map_of_mem he) ht
    exact hts t (by simp [hPart])
  | paren _ _ _ ih => exact .paren (hts _ (by simp)) (ih fun t ht => hts t (by simp [ht]))
  | unary _ _ ih => exact .unary (hts _ (by simp)) (ih fun t ht => hts t (by simp [ht]))
  | binary _ _ _ ihLeft ihRight =>
    exact .binary (ihLeft fun t ht => hts t (by simp [ht]))
      (ihRight fun t ht => hts t (by simp [ht]))
  | assign _ _ _ ihTarget ihValue =>
    exact .assign (ihTarget fun t ht => hts t (by simp [ht]))
      (ihValue fun t ht => hts t (by simp [ht]))
  | call _ _ _ _ hList ihCallee ih =>
    refine .call (ihCallee fun t ht => hts t (by simp [ht]))
      (List.forall_mem_map.mpr fun e he => ih e he fun t ht => ?_)
    have hPart := hList.subset e.2 (List.mem_map_of_mem he) ht
    exact hts t (by simp [hPart])
  | member _ _ _ ih =>
    exact .member (ih fun t ht => hts t (by simp [ht])) (hts _ (by simp))
  | index _ _ _ _ _ ihObject ihPosition =>
    exact .index (ihObject fun t ht => hts t (by simp [ht]))
      (ihPosition fun t ht => hts t (by simp [ht]))

theorem expression_at (hts : TokensAt P ts) {p : Parsed Expr ts.length}
    (h : expression ts = .ok p) : p.value.At P := by
  obtain ⟨used, hUsed, hSpelled, _⟩ := exprAt_spelled (by decide) (yields_of_ok h)
  refine at_of_spelledBy hSpelled ?_
  intro t ht
  exact hts t (hUsed ▸ List.mem_append_left _ ht)

theorem take_at (hts : TokensAt P ts) {k : TokenKind} {message : Text} {p : Parsed Token ts.length}
    (h : take k message ts = .ok p) : P p.value.pos :=
  hts _ (takeIf_ok h).1

theorem typeRef_at (hts : TokensAt P ts) {p : Parsed TypeRef ts.length} (h : typeRef ts = .ok p) :
    P p.value.pos := by
  simp only [typeRef, bind_eq_ok_iff] at h
  obtain ⟨⟨name, r, hr⟩, hName, h⟩ := h
  have hPos := take_at hts hName
  dsimp only at h
  split at h
  · simp only [bind_eq_ok_iff] at h
    obtain ⟨_, _, _, hSame, h⟩ := h
    cases hSame
    dsimp only at h
    split at h
    · cases h
    · cases h
      exact hPos
  · simp only [bind_eq_ok_iff, pure_eq_ok_iff] at h
    obtain ⟨_, rfl, h⟩ := h
    split at h
    · cases h
    · cases h
      exact hPos

theorem field_at (hts : TokensAt P ts) {what : Text} {p : Parsed FieldDecl ts.length}
    (h : field what ts = .ok p) : p.value.At P := by
  simp only [field, bind_eq_ok_iff] at h
  obtain ⟨⟨name, r, hr⟩, hName, h⟩ := h
  dsimp only at h
  split at h
  · cases h
  · simp only [bind_eq_ok_iff, pure_eq_ok_iff] at h
    obtain ⟨⟨_, r₁, h₁⟩, hColon, ⟨type, r₂, h₂⟩, hType, rfl⟩ := h
    have hSuffix := (take_suffix hColon).trans (take_suffix hName)
    exact ⟨take_at hts hName, typeRef_at (hts.suffix hSuffix) hType⟩

theorem typeAnnotation_at (hts : TokensAt P ts) {p : Parsed (Option TypeRef) (ts.length + 1)}
    (h : typeAnnotation ts = .ok p) : ∀ t ∈ p.value, P t.pos := by
  simp only [ typeAnnotation] at h
  split at h
  · simp only [bind_eq_ok_iff, pure_eq_ok_iff] at h
    obtain ⟨⟨type, r₁, h₁⟩, hType, rfl⟩ := h
    rintro t ⟨⟩
    exact typeRef_at (hts.suffix (skip?_suffix _ ts)) hType
  · cases h
    rintro t ⟨⟩

theorem fields_at (hts : TokensAt P ts) {closing : Punct} {message what : Text}
    {p : Parsed (List FieldDecl) ts.length}
    (h : listUntil closing message (field what) ts = .ok p) : ∀ f ∈ p.value, f.At P := by
  intro f hf
  obtain ⟨ts', q, hts', hq, rfl⟩ := listUntil_read (fun _ _ => field_suffix) h f hf
  exact field_at (hts.suffix hts') hq

theorem interfaceFields_at {ts : List Token} (hts : TokensAt P ts)
    {p : Parsed (List FieldDecl) ts.length} (h : interfaceFields ts = .ok p) :
    ∀ f ∈ p.value, f.At P := by
  rw [interfaceFields] at h
  split at h
  · simp only [bind_eq_ok_iff, pure_eq_ok_iff] at h
    obtain ⟨_, _, rfl⟩ := h
    simp
  · simp only [bind_eq_ok_iff, pure_eq_ok_iff] at h
    obtain ⟨⟨f, r, hr⟩, hField, ⟨_, r₁, h₁⟩, hEnd, ⟨fs, r₂, h₂⟩, hRest, rfl⟩ := h
    have hLength : r₁.length < r.length + 1 := h₁
    have hSuffix := (endOfField_suffix hEnd).trans (field_suffix hField)
    exact List.forall_mem_cons.mpr
      ⟨field_at hts hField, interfaceFields_at (hts.suffix hSuffix) hRest⟩
termination_by ts.length
decreasing_by omega

theorem binding_at {word : Token} (hWord : P word.pos) (hts : TokensAt P ts) {kind : BindingKind}
    {p : Parsed Statement ts.length} (h : binding word kind ts = .ok p) : p.value.At P := by
  simp only [binding, bind_eq_ok_iff, pure_eq_ok_iff] at h
  obtain ⟨⟨name, r, hr⟩, hName, ⟨type, r₁, h₁⟩, hType, ⟨_, r₂, h₂⟩, hAssign, ⟨value, r₃, h₃⟩,
    hValue, ⟨_, r₄, h₄⟩, _, rfl⟩ := h
  have hAfterName := hts.suffix (take_suffix hName)
  have hAfterType := hAfterName.suffix (typeAnnotation_suffix hType)
  exact .binding hWord (typeAnnotation_at hAfterName hType)
    (expression_at (hAfterType.suffix (take_suffix hAssign)) hValue)

theorem returned_at (hts : TokensAt P ts) {p : Parsed (Option Expr) (ts.length + 1)}
    (h : returned ts = .ok p) : ∀ e ∈ p.value, e.At P := by
  unfold returned at h
  split at h
  · cases h
    rintro e ⟨⟩
  · simp only [bind_eq_ok_iff, pure_eq_ok_iff] at h
    obtain ⟨⟨value, r, hr⟩, hValue, rfl⟩ := h
    rintro e ⟨⟩
    exact expression_at hts hValue

theorem statement_at {t : Token} {r : List Token} (hts : TokensAt P (t :: r))
    {p : Parsed Statement (r.length + 1)} (h : statement t r = .ok p) : p.value.At P := by
  have ht : P t.pos := hts t List.mem_cons_self
  have hr := hts.suffix (List.suffix_cons t r)
  unfold statement at h
  split at h
  · simp only [bind_eq_ok_iff, pure_eq_ok_iff] at h
    obtain ⟨⟨s, r₁, h₁⟩, hBinding, rfl⟩ := h
    exact binding_at ht hr hBinding
  · simp only [bind_eq_ok_iff, pure_eq_ok_iff] at h
    obtain ⟨⟨s, r₁, h₁⟩, hBinding, rfl⟩ := h
    exact binding_at ht hr hBinding
  · simp only [bind_eq_ok_iff, pure_eq_ok_iff] at h
    obtain ⟨⟨value, r₁, h₁⟩, hValue, _, _, rfl⟩ := h
    exact .ret ht (returned_at hr hValue)
  · simp only [bind_eq_ok_iff, pure_eq_ok_iff] at h
    obtain ⟨⟨value, r₁, h₁⟩, hValue, _, _, rfl⟩ := h
    exact .expr ht (expression_at hts hValue)

theorem statements_at {ts : List Token} (hts : TokensAt P ts) {what : Text}
    {p : Parsed (List Statement) ts.length} (h : statements what ts = .ok p) :
    ∀ s ∈ p.value, s.At P := by
  match ts, p, h with
  | [], p, h =>
    rw [statements] at h
    cases h
  | t :: r, p, h =>
    rw [statements] at h
    split at h
    · cases h
      simp
    · split at h
      · cases h
      · split at h
        · simp only [bind_eq_ok_iff, pure_eq_ok_iff] at h
          obtain ⟨⟨ss, r₁, h₁⟩, hRest, rfl⟩ := h
          exact statements_at (hts.suffix (List.suffix_cons t r)) hRest
        · simp only [bind_eq_ok_iff, pure_eq_ok_iff] at h
          obtain ⟨⟨s, r₁, h₁⟩, hFirst, ⟨ss, r₂, h₂⟩, hRest, rfl⟩ := h
          exact List.forall_mem_cons.mpr ⟨statement_at hts hFirst,
            statements_at (hts.suffix (statement_read hFirst).2) hRest⟩
termination_by ts.length
decreasing_by all_goals simp only [List.length_cons]; omega

theorem block_at (hts : TokensAt P ts) {what : Text} {p : Parsed (List Statement) ts.length}
    (h : block what ts = .ok p) : ∀ s ∈ p.value, s.At P := by
  simp only [block, bind_eq_ok_iff, pure_eq_ok_iff] at h
  obtain ⟨⟨_, r, hr⟩, hOpen, ⟨body, r₁, h₁⟩, hBody, rfl⟩ := h
  exact statements_at (hts.suffix (take_suffix hOpen)) hBody

theorem method_at {name : Token} (hName : P name.pos) (hts : TokensAt P ts)
    {p : Parsed MethodDecl ts.length} (h : method name ts = .ok p) : p.value.At P := by
  simp only [method, bind_eq_ok_iff, pure_eq_ok_iff] at h
  obtain ⟨⟨_, r, hr⟩, hOpen, ⟨params, r₁, h₁⟩, hParams, ⟨returns, r₂, h₂⟩, hReturns,
    ⟨body, r₃, h₃⟩, hBody, rfl⟩ := h
  have hAfterOpen := hts.suffix (take_suffix hOpen)
  have hAfterParams := hAfterOpen.suffix (listUntil_suffix (fun _ _ => field_suffix) hParams)
  have hAfterReturns := hAfterParams.suffix (typeAnnotation_suffix hReturns)
  exact ⟨hName, fields_at hAfterOpen hParams, typeAnnotation_at hAfterParams hReturns,
    block_at hAfterReturns hBody⟩

theorem member_at (hts : TokensAt P ts) {p : Parsed Member ts.length} (h : member ts = .ok p) :
    (∀ d, p.value = .property d → d.At P) ∧ ∀ m, p.value = .method m → m.At P := by
  simp only [member, bind_eq_ok_iff] at h
  obtain ⟨⟨name, r₂, h₂⟩, hName, h⟩ := h
  have hWords := hts.suffix ((skip?_suffix (.keyword .kwStatic) _).trans
    (skip?_suffix (.keyword .kwPublic) ts))
  have hPos := take_at hWords hName
  have hAfterName := hWords.suffix (take_suffix hName)
  dsimp only at h
  split at h
  · simp only [bind_eq_ok_iff, pure_eq_ok_iff] at h
    obtain ⟨⟨_, r₃, h₃⟩, hAssign, ⟨value, r₄, h₄⟩, hValue, _, _, rfl⟩ := h
    refine ⟨?_, fun m hm => by cases hm⟩
    rintro d ⟨⟩
    exact ⟨hPos, expression_at (hAfterName.suffix (take_suffix hAssign)) hValue⟩
  · split at h
    · split at h
      · cases h
      · simp only [bind_eq_ok_iff, pure_eq_ok_iff] at h
        obtain ⟨⟨m, r₃, h₃⟩, hMethod, rfl⟩ := h
        refine ⟨(fun d hd => by cases hd), ?_⟩
        rintro m' ⟨⟩
        exact method_at hPos hAfterName hMethod
    · cases h

theorem classDecl_at (hts : TokensAt P ts) {isExported isDefault : Bool}
    {p : Parsed ClassDecl ts.length} (h : classDecl isExported isDefault ts = .ok p) :
    p.value.At P := by
  simp only [classDecl, bind_eq_ok_iff, pure_eq_ok_iff] at h
  obtain ⟨⟨word, r, hr⟩, hWord, ⟨name, r₁, h₁⟩, hName, ⟨_, r₂, h₂⟩, hOpen, ⟨ms, r₃, h₃⟩,
    hMembers, rfl⟩ := h
  have hSuffix := ((take_suffix hOpen).trans (take_suffix hName)).trans (take_suffix hWord)
  have hRead := (members_read hMembers).1
  refine ⟨take_at hts hWord, ?_, ?_⟩
  · intro d hd
    obtain ⟨member, hMember, hProperty⟩ := List.mem_filterMap.mp hd
    obtain ⟨ts', q, hts', hq, hSame⟩ := hRead member hMember
    cases member with
    | method => cases hProperty
    | property d' =>
      cases hProperty
      exact (member_at (hts.suffix (hts'.trans hSuffix)) hq).1 d hSame
  · intro m hm
    obtain ⟨member, hMember, hMethod⟩ := List.mem_filterMap.mp hm
    obtain ⟨ts', q, hts', hq, hSame⟩ := hRead member hMember
    cases member with
    | property => cases hMethod
    | method m' =>
      cases hMethod
      exact (member_at (hts.suffix (hts'.trans hSuffix)) hq).2 m hSame

theorem interfaceDecl_at (hts : TokensAt P ts) {isExported : Bool}
    {p : Parsed InterfaceDecl ts.length} (h : interfaceDecl isExported ts = .ok p) :
    p.value.At P := by
  simp only [interfaceDecl, bind_eq_ok_iff, pure_eq_ok_iff] at h
  obtain ⟨⟨word, r, hr⟩, hWord, ⟨name, r₁, h₁⟩, hName, ⟨base, r₂, h₂⟩, hBase, ⟨_, r₃, h₃⟩, hOpen,
    ⟨fields, r₄, h₄⟩, hFields, rfl⟩ := h
  have hSuffix := (((take_suffix hOpen).trans (baseInterface_suffix hBase)).trans
    (take_suffix hName)).trans (take_suffix hWord)
  exact ⟨take_at hts hWord, interfaceFields_at (hts.suffix hSuffix) hFields⟩

theorem declaration_at (hts : TokensAt P ts) {p : Parsed Declaration ts.length}
    (h : declaration ts = .ok p) :
    (∀ c, p.value = .cls c → c.At P) ∧ ∀ i, p.value = .interface i → i.At P := by
  have hrest := hts.suffix (exportWords_suffix ts)
  simp only [declaration] at h
  split at h
  · simp only [bind_eq_ok_iff, pure_eq_ok_iff] at h
    obtain ⟨⟨c, r₁, h₁⟩, hClass, rfl⟩ := h
    refine ⟨?_, fun i hi => by cases hi⟩
    rintro c' ⟨⟩
    exact classDecl_at hrest hClass
  · split at h
    · cases h
    · simp only [bind_eq_ok_iff, pure_eq_ok_iff] at h
      obtain ⟨⟨i, r₁, h₁⟩, hInterface, rfl⟩ := h
      refine ⟨(fun c hc => by cases hc), ?_⟩
      rintro i' ⟨⟩
      exact interfaceDecl_at hrest hInterface
  · cases h
  · cases h

theorem file_at (hts : TokensAt P ts) {f : File} (h : file ts = .ok f) : f.At P := by
  simp only [file, bind_eq_ok_iff, pure_eq_ok_iff] at h
  obtain ⟨⟨imports, r, hr⟩, hImports, ds, hDeclarations, rfl⟩ := h
  have hr := hts.suffix (importDecls_suffix hImports)
  have hRead := declarations_read hDeclarations
  constructor
  · intro c hc
    obtain ⟨d, hd, hClass⟩ := List.mem_filterMap.mp hc
    obtain ⟨ts', q, hts', hq, hSame⟩ := hRead d hd
    cases d with
    | interface => cases hClass
    | cls c' =>
      cases hClass
      exact (declaration_at (hr.suffix hts') hq).1 c hSame
  · intro i hi
    obtain ⟨d, hd, hInterface⟩ := List.mem_filterMap.mp hi
    obtain ⟨ts', q, hts', hq, hSame⟩ := hRead d hd
    cases d with
    | cls => cases hInterface
    | interface i' =>
      cases hInterface
      exact (declaration_at (hr.suffix hts') hq).2 i hSame

theorem exists_endOfInput (l : Location) (s : Text) :
    ∃ t ∈ Lexer.tokensFrom l s, t.kind = .endOfInput := by
  fun_induction Lexer.tokensFrom l s with
  | case1 => exact ⟨_, List.mem_singleton_self _, rfl⟩
  | case2 =>
    rename_i ih
    obtain ⟨t, ht, hKind⟩ := ih
    exact ⟨t, List.mem_cons_of_mem _ ht, hKind⟩

/-- Reading does not go beyond the end of the input, so it fails at one of the tokens. -/
theorem token_mem_of_file {src : Text} {e : Failure} (h : file (tokens src) = .error e) :
    e.token ∈ tokens src := by
  have hStays := file_stays (tokens src)
  simp only [located, h, Except.mapError] at hStays
  generalize hToken : e.token = t at hStays
  cases hStays with
  | @failed taken rest hTokens hTaken =>
    cases rest with
    | cons t rest =>
      rw [hTokens]
      exact List.mem_append_right taken List.mem_cons_self
    | nil =>
      obtain ⟨last, hLast, hKind⟩ := exists_endOfInput .start src
      rw [List.append_nil] at hTokens
      have hPassed := hTaken last (hTokens ▸ hLast)
      simp [blocks, hKind] at hPassed

end Parser

end AnchorScript.Syntax
