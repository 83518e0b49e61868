import AnchorScript.Proofs.Syntax.Files

/-!
# Names that a source declares

A source names its classes, their methods, the parameters and variables of a method, its interfaces
and their fields. Each of these names is the text of an identifier, a word that begins with no
digit.
-/

namespace AnchorScript

open Outcome

namespace Syntax

/-- The variable that a statement declares. -/
def Statement.boundName? : Statement → Option Text
  | .binding _ _ name _ _ => some name
  | _ => none

def MethodDecl.names (m : MethodDecl) : List Text :=
  m.name :: (m.params.map (·.name) ++ m.body.filterMap Statement.boundName?)

def ClassDecl.names (c : ClassDecl) : List Text := c.name :: c.methods.flatMap MethodDecl.names

def InterfaceDecl.names (i : InterfaceDecl) : List Text := i.name :: i.fields.map (·.name)

def File.names (f : File) : List Text :=
  f.classes.flatMap ClassDecl.names ++ f.interfaces.flatMap InterfaceDecl.names

namespace Parser

variable {ts : List Token}

theorem takeIdent_isName (hts : AllLexed ts) {message : Text} {p : Parsed Token ts.length}
    (h : takeIdent message ts = .ok p) : IsName p.value.literal := by
  obtain ⟨hMem, hKind, _⟩ := takeIf_ok h
  exact (hts p.value hMem).isName (by rw [Token.isName, of_decide_eq_true hKind])

theorem field_isName (hts : AllLexed ts) {what : Text} {p : Parsed FieldDecl ts.length}
    (h : field what ts = .ok p) : IsName p.value.name := by
  simp only [field, bind_eq_ok_iff] at h
  obtain ⟨⟨name, r, hr⟩, hName, h⟩ := h
  have hIsName := takeIdent_isName hts hName
  dsimp only at h
  split at h
  · cases h
  · simp only [bind_eq_ok_iff, pure_eq_ok_iff] at h
    obtain ⟨_, _, _, _, rfl⟩ := h
    exact hIsName

theorem binding_isName (hts : AllLexed ts) {word : Token} {kind : BindingKind}
    {p : Parsed Statement ts.length} (h : binding word kind ts = .ok p) :
    ∀ n, p.value.boundName? = some n → IsName n := by
  simp only [binding, bind_eq_ok_iff, pure_eq_ok_iff] at h
  obtain ⟨⟨name, r, hr⟩, hName, _, _, _, _, _, _, _, _, rfl⟩ := h
  rintro n ⟨⟩
  exact takeIdent_isName hts hName

theorem statement_isName {t : Token} {r : List Token} (hr : AllLexed r)
    {p : Parsed Statement (r.length + 1)} (h : statement t r = .ok p) :
    ∀ n, p.value.boundName? = some n → IsName n := by
  unfold statement at h
  split at h
  · simp only [bind_eq_ok_iff, pure_eq_ok_iff] at h
    obtain ⟨_, hBinding, rfl⟩ := h
    exact binding_isName hr hBinding
  · simp only [bind_eq_ok_iff, pure_eq_ok_iff] at h
    obtain ⟨_, hBinding, rfl⟩ := h
    exact binding_isName hr hBinding
  · simp only [bind_eq_ok_iff, pure_eq_ok_iff] at h
    obtain ⟨_, _, _, _, rfl⟩ := h
    rintro n ⟨⟩
  · simp only [bind_eq_ok_iff, pure_eq_ok_iff] at h
    obtain ⟨_, _, _, _, rfl⟩ := h
    rintro n ⟨⟩

theorem statements_isName {ts : List Token} (hts : AllLexed ts) {what : Text}
    {p : Parsed (List Statement) ts.length} (h : statements what ts = .ok p) :
    ∀ n ∈ p.value.filterMap Statement.boundName?, IsName n := by
  match ts, p, h with
  | [], p, h =>
    rw [statements] at h
    cases h
  | t :: r, p, h =>
    have hr := hts.suffix (List.suffix_cons t r)
    rw [statements] at h
    split at h
    · cases h
      simp
    · split at h
      · cases h
      · split at h
        · simp only [bind_eq_ok_iff, pure_eq_ok_iff] at h
          obtain ⟨_, hRest, rfl⟩ := h
          exact statements_isName hr hRest
        · simp only [bind_eq_ok_iff, pure_eq_ok_iff] at h
          obtain ⟨⟨s, r₁, h₁⟩, hFirst, _, hRest, rfl⟩ := h
          have hLater := statements_isName (hts.suffix (statement_read hFirst).2) hRest
          intro n hn
          obtain ⟨s', hs', hBound⟩ := List.mem_filterMap.mp hn
          rcases List.mem_cons.mp hs' with rfl | hs'
          · exact statement_isName hr hFirst n hBound
          · exact hLater n (List.mem_filterMap.mpr ⟨s', hs', hBound⟩)
termination_by ts.length
decreasing_by all_goals simp only [List.length_cons]; omega

theorem method_isName (hts : AllLexed ts) {name : Token} (hName : IsName name.literal)
    {p : Parsed MethodDecl ts.length} (h : method name ts = .ok p) :
    ∀ n ∈ p.value.names, IsName n := by
  simp only [method, bind_eq_ok_iff, pure_eq_ok_iff] at h
  obtain ⟨⟨_, r, hr⟩, hOpen, ⟨params, r₁, h₁⟩, hParams, ⟨returns, r₂, h₂⟩, hReturns,
    ⟨body, r₃, h₃⟩, hBody, rfl⟩ := h
  have hAfterOpen := hts.suffix (take_suffix hOpen)
  have hSuffix := (typeAnnotation_suffix hReturns).trans
    (listUntil_suffix (fun _ _ => field_suffix) hParams)
  simp only [block, bind_eq_ok_iff, pure_eq_ok_iff] at hBody
  obtain ⟨_, hBrace, _, hStatements, hBlock⟩ := hBody
  cases hBlock
  refine List.forall_mem_cons.mpr ⟨hName, List.forall_mem_append.mpr ⟨?_, ?_⟩⟩
  · intro n hn
    obtain ⟨f, hf, rfl⟩ := List.mem_map.mp hn
    obtain ⟨ts', q, hts', hq, rfl⟩ := listUntil_read (fun _ _ => field_suffix) hParams f hf
    exact field_isName (hAfterOpen.suffix hts') hq
  · exact statements_isName ((hAfterOpen.suffix hSuffix).suffix (take_suffix hBrace)) hStatements

theorem member_isName (hts : AllLexed ts) {p : Parsed Member ts.length} (h : member ts = .ok p)
    {m : MethodDecl} (hm : p.value = .method m) : ∀ n ∈ m.names, IsName n := by
  simp only [member, bind_eq_ok_iff] at h
  obtain ⟨⟨name, r₂, h₂⟩, hName, h⟩ := h
  have hSuffix := (skip?_suffix (.keyword .kwStatic) _).trans
    (skip?_suffix (.keyword .kwPublic) ts)
  have hIsName := takeIdent_isName (hts.suffix hSuffix) hName
  dsimp only at h
  split at h
  · simp only [bind_eq_ok_iff, pure_eq_ok_iff] at h
    obtain ⟨_, _, _, _, _, _, rfl⟩ := h
    cases hm
  · split at h
    · split at h
      · cases h
      · simp only [bind_eq_ok_iff, pure_eq_ok_iff] at h
        obtain ⟨_, hMethod, rfl⟩ := h
        cases hm
        exact method_isName (hts.suffix ((take_suffix hName).trans hSuffix)) hIsName hMethod
    · cases h

theorem classDecl_isName {isExported isDefault : Bool} (hts : AllLexed ts)
    {p : Parsed ClassDecl ts.length} (h : classDecl isExported isDefault ts = .ok p) :
    ∀ n ∈ p.value.names, IsName n := by
  simp only [classDecl, bind_eq_ok_iff, pure_eq_ok_iff] at h
  obtain ⟨⟨word, r, hr⟩, hWord, ⟨name, r₁, h₁⟩, hName, ⟨_, r₂, h₂⟩, hOpen, ⟨ms, r₃, h₃⟩,
    hMembers, rfl⟩ := h
  have hSuffix := ((take_suffix hOpen).trans (take_suffix hName)).trans (take_suffix hWord)
  refine List.forall_mem_cons.mpr ⟨takeIdent_isName (hts.suffix (take_suffix hWord)) hName, ?_⟩
  intro n hn
  obtain ⟨m, hm, hn⟩ := List.mem_flatMap.mp hn
  obtain ⟨member, hMember, hMethod⟩ := List.mem_filterMap.mp hm
  obtain ⟨ts', q, hts', hq, hSame⟩ := (members_read hMembers).1 member hMember
  cases member with
  | property => cases hMethod
  | method m' =>
    cases hMethod
    exact member_isName (hts.suffix (hts'.trans hSuffix)) hq hSame n hn

theorem interfaceFields_isName {ts : List Token} (hts : AllLexed ts)
    {p : Parsed (List FieldDecl) ts.length} (h : interfaceFields ts = .ok p) :
    ∀ f ∈ p.value, IsName f.name := by
  rw [interfaceFields] at h
  split at h
  · simp only [bind_eq_ok_iff, pure_eq_ok_iff] at h
    obtain ⟨_, _, rfl⟩ := h
    simp
  · simp only [bind_eq_ok_iff, pure_eq_ok_iff] at h
    obtain ⟨⟨f, r, hr⟩, hField, ⟨_, r₁, h₁⟩, hEnd, ⟨fs, r₂, h₂⟩, hRest, rfl⟩ := h
    have hLength : r₁.length < r.length + 1 := h₁
    have hSuffix := (endOfField_suffix hEnd).trans (field_suffix hField)
    exact List.forall_mem_cons.mpr
      ⟨field_isName hts hField, interfaceFields_isName (hts.suffix hSuffix) hRest⟩
termination_by ts.length
decreasing_by omega

theorem interfaceDecl_isName {isExported : Bool} (hts : AllLexed ts)
    {p : Parsed InterfaceDecl ts.length} (h : interfaceDecl isExported ts = .ok p) :
    ∀ n ∈ p.value.names, IsName n := by
  simp only [interfaceDecl, bind_eq_ok_iff, pure_eq_ok_iff] at h
  obtain ⟨⟨word, r, hr⟩, hWord, ⟨name, r₁, h₁⟩, hName, ⟨base, r₂, h₂⟩, hBase, ⟨_, r₃, h₃⟩, hOpen,
    ⟨fields, r₄, h₄⟩, hFields, rfl⟩ := h
  have hSuffix := (((take_suffix hOpen).trans (baseInterface_suffix hBase)).trans
    (take_suffix hName)).trans (take_suffix hWord)
  refine List.forall_mem_cons.mpr ⟨takeIdent_isName (hts.suffix (take_suffix hWord)) hName, ?_⟩
  exact List.forall_mem_map.mpr (interfaceFields_isName (hts.suffix hSuffix) hFields)

theorem declaration_isName (hts : AllLexed ts) {p : Parsed Declaration ts.length}
    (h : declaration ts = .ok p) :
    (∀ c, p.value = .cls c → ∀ n ∈ c.names, IsName n) ∧
      ∀ i, p.value = .interface i → ∀ n ∈ i.names, IsName n := by
  have hrest := hts.suffix (exportWords_suffix ts)
  simp only [declaration] at h
  split at h
  · simp only [bind_eq_ok_iff, pure_eq_ok_iff] at h
    obtain ⟨_, hClass, rfl⟩ := h
    constructor
    · rintro c ⟨⟩
      exact classDecl_isName hrest hClass
    · rintro i ⟨⟩
  · split at h
    · cases h
    · simp only [bind_eq_ok_iff, pure_eq_ok_iff] at h
      obtain ⟨_, hInterface, rfl⟩ := h
      constructor
      · rintro c ⟨⟩
      · rintro i ⟨⟩
        exact interfaceDecl_isName hrest hInterface
  · cases h
  · cases h

theorem file_isName (hts : AllLexed ts) {f : File} (h : file ts = .ok f) :
    ∀ n ∈ f.names, IsName n := by
  simp only [file, bind_eq_ok_iff, pure_eq_ok_iff] at h
  obtain ⟨⟨imports, r, hr⟩, hImports, ds, hDeclarations, rfl⟩ := h
  have hr := hts.suffix (importDecls_suffix hImports)
  have hRead := declarations_read hDeclarations
  refine List.forall_mem_append.mpr ⟨?_, ?_⟩
  · intro n hn
    obtain ⟨c, hc, hn⟩ := List.mem_flatMap.mp hn
    obtain ⟨d, hd, hClass⟩ := List.mem_filterMap.mp hc
    obtain ⟨ts', q, hts', hq, hSame⟩ := hRead d hd
    cases d with
    | interface => cases hClass
    | cls c' =>
      cases hClass
      exact (declaration_isName (hr.suffix hts') hq).1 c hSame n hn
  · intro n hn
    obtain ⟨i, hi, hn⟩ := List.mem_flatMap.mp hn
    obtain ⟨d, hd, hInterface⟩ := List.mem_filterMap.mp hi
    obtain ⟨ts', q, hts', hq, hSame⟩ := hRead d hd
    cases d with
    | cls => cases hInterface
    | interface i' =>
      cases hInterface
      exact (declaration_isName (hr.suffix hts') hq).2 i hSame n hn

end Parser

theorem parse_isName {name src : Text} {f : File} (h : parse name src = .ok f) :
    ∀ n ∈ f.names, IsName n :=
  Parser.file_isName (allLexed_tokens src) (mapError_eq_ok_iff.mp h)

end Syntax

end AnchorScript
