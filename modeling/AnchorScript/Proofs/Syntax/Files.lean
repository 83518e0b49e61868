import AnchorScript.Proofs.Syntax.Precedence

/-!
# Files as they are read

Every reader leaves an end of the tokens it was given, so every expression in a file was read from
tokens of the source, and the expressions of its statements are well-formed.
-/

namespace AnchorScript.Syntax

open Outcome

def Statement.exprs : Statement → List Expr
  | .binding _ _ _ _ value => [value]
  | .expr _ value => [value]
  | .ret _ value => value.toList

def Statement.WellFormed (s : Statement) : Prop := ∀ e ∈ s.exprs, e.WellFormed

def MethodDecl.exprs (m : MethodDecl) : List Expr := m.body.flatMap Statement.exprs

def ClassDecl.exprs (c : ClassDecl) : List Expr :=
  c.properties.map PropertyDecl.value ++ c.methods.flatMap MethodDecl.exprs

/-- The expressions that a file holds as the value of a property or in a statement. -/
def File.exprs (f : File) : List Expr := f.classes.flatMap ClassDecl.exprs

namespace Parser

variable {ts : List Token}

/-- The expression was read at some place of the tokens. -/
def ReadFrom (ts : List Token) (e : Expr) : Prop :=
  ∃ ts' rest, ts' <:+ ts ∧ Yields (expression ts') e rest

/-- The expression was read at some place of the tokens, and none of the last ones was taken. -/
def ReadBetween (ts stop : List Token) (e : Expr) : Prop :=
  ∃ ts' rest, ts' <:+ ts ∧ stop <:+ rest ∧ Yields (expression ts') e rest

theorem ReadBetween.readFrom {stop : List Token} {e : Expr} (h : ReadBetween ts stop e) :
    ReadFrom ts e := by
  obtain ⟨ts', rest, hSuffix, _, hYields⟩ := h
  exact ⟨ts', rest, hSuffix, hYields⟩

theorem ReadBetween.mono {ts' stop stop' : List Token} {e : Expr} (h : ReadBetween ts stop e)
    (hts : ts <:+ ts') (hStop : stop' <:+ stop) : ReadBetween ts' stop' e := by
  obtain ⟨ts₁, rest, hSuffix, hRest, hYields⟩ := h
  exact ⟨ts₁, rest, hSuffix.trans hts, hStop.trans hRest, hYields⟩

theorem ReadFrom.mono {ts ts' : List Token} {e : Expr} (h : ReadFrom ts e) (hts : ts <:+ ts') :
    ReadFrom ts' e := by
  obtain ⟨ts₁, rest, hSuffix, hYields⟩ := h
  exact ⟨ts₁, rest, hSuffix.trans hts, hYields⟩

theorem ReadFrom.wellFormed {e : Expr} (h : ReadFrom ts e) (hts : AllLexed ts) : e.WellFormed := by
  obtain ⟨ts', rest, hSuffix, _, hExpr⟩ := h
  exact (exprAt_ok (hts.suffix hSuffix) (by decide) hExpr).1

theorem expression_read {p : Parsed Expr ts.length} (h : expression ts = .ok p) :
    ReadBetween ts p.rest p.value ∧ p.rest <:+ ts := by
  obtain ⟨used, hUsed, _⟩ := exprAt_spelled (by decide) (yields_of_ok h)
  exact ⟨⟨ts, p.rest, List.suffix_rfl, List.suffix_rfl, yields_of_ok h⟩, used, hUsed.symm⟩

theorem endOfStatement_suffix {what : Text} {p : Parsed PUnit (ts.length + 1)}
    (h : endOfStatement what ts = .ok p) : p.rest <:+ ts := by
  unfold endOfStatement at h
  split at h
  · cases h
    exact List.tail_suffix ts
  · split at h
    · cases h
      exact List.suffix_rfl
    · cases h

theorem listUntil_suffix {α : Type} {ts : List Token} {closing : Punct} {message : Text}
    {item : (ts : List Token) → Reader α ts.length}
    (hItem : ∀ (ts : List Token) (p : Parsed α ts.length), item ts = .ok p → p.rest <:+ ts)
    {p : Parsed (List α) ts.length} (h : listUntil closing message item ts = .ok p) :
    p.rest <:+ ts := by
  rw [listUntil] at h
  split at h
  · simp only [bind_eq_ok_iff, pure_eq_ok_iff] at h
    obtain ⟨⟨_, r, hr⟩, hClose, rfl⟩ := h
    exact take_suffix hClose
  · simp only [bind_eq_ok_iff] at h
    obtain ⟨⟨a, r, hr⟩, hFirst, h⟩ := h
    have hSkip := (skip?_suffix (.punct .comma) r).trans (hItem ts _ hFirst)
    have hLength : (skip? (.punct .comma) r).rest.length < ts.length := by
      have := (skip? (.punct .comma) r).bound
      omega
    dsimp only at h
    split at h
    · simp only [bind_eq_ok_iff, pure_eq_ok_iff] at h
      obtain ⟨⟨as, r₂, h₂⟩, hRest, rfl⟩ := h
      exact (listUntil_suffix hItem hRest).trans hSkip
    · simp only [bind_eq_ok_iff, pure_eq_ok_iff] at h
      obtain ⟨⟨_, r₂, h₂⟩, hClose, rfl⟩ := h
      exact (take_suffix hClose).trans hSkip
termination_by ts.length

/-- Each item of a list is read by itself. -/
theorem listUntil_read {α : Type} {ts : List Token} {closing : Punct} {message : Text}
    {item : (ts : List Token) → Reader α ts.length}
    (hItem : ∀ (ts : List Token) (p : Parsed α ts.length), item ts = .ok p → p.rest <:+ ts)
    {p : Parsed (List α) ts.length} (h : listUntil closing message item ts = .ok p) :
    ∀ a ∈ p.value, ∃ (ts' : List Token) (q : Parsed α ts'.length), ts' <:+ ts ∧
      item ts' = .ok q ∧ q.value = a := by
  rw [listUntil] at h
  split at h
  · simp only [bind_eq_ok_iff, pure_eq_ok_iff] at h
    obtain ⟨_, _, rfl⟩ := h
    simp
  · simp only [bind_eq_ok_iff] at h
    obtain ⟨⟨a, r, hr⟩, hFirst, h⟩ := h
    have hSkip := (skip?_suffix (.punct .comma) r).trans (hItem ts _ hFirst)
    have hLength : (skip? (.punct .comma) r).rest.length < ts.length := by
      have := (skip? (.punct .comma) r).bound
      omega
    have hHere : ∃ (ts' : List Token) (q : Parsed α ts'.length), ts' <:+ ts ∧
        item ts' = .ok q ∧ q.value = a := ⟨ts, _, List.suffix_rfl, hFirst, rfl⟩
    dsimp only at h
    split at h
    · simp only [bind_eq_ok_iff, pure_eq_ok_iff] at h
      obtain ⟨⟨as, r₂, h₂⟩, hRest, rfl⟩ := h
      refine List.forall_mem_cons.mpr ⟨hHere, ?_⟩
      intro b hb
      obtain ⟨ts', q, hts', hq⟩ := listUntil_read hItem hRest b hb
      exact ⟨ts', q, hts'.trans hSkip, hq⟩
    · simp only [bind_eq_ok_iff, pure_eq_ok_iff] at h
      obtain ⟨_, _, rfl⟩ := h
      exact List.forall_mem_singleton.mpr hHere
termination_by ts.length

theorem typeArg_suffix {name : Text} {p : Parsed (Option Text) ts.length}
    (h : typeArg name ts = .ok p) : p.rest <:+ ts := by
  simp only [typeArg, bind_eq_ok_iff, pure_eq_ok_iff] at h
  obtain ⟨⟨arg, r, hr⟩, hArg, ⟨_, r₁, h₁⟩, hClose, rfl⟩ := h
  exact (take_suffix hClose).trans (takeIf_ok hArg).2.2

theorem typeRef_suffix {p : Parsed TypeRef ts.length} (h : typeRef ts = .ok p) :
    p.rest <:+ ts := by
  simp only [typeRef, bind_eq_ok_iff] at h
  obtain ⟨⟨name, r, hr⟩, hName, h⟩ := h
  have hSkip := (skip?_suffix (.punct .lt) r).trans (take_suffix hName)
  dsimp only at h
  split at h
  · simp only [bind_eq_ok_iff] at h
    obtain ⟨⟨arg, r₂, h₂⟩, hArg, _, hSame, h⟩ := h
    cases hSame
    have hSuffix := (typeArg_suffix hArg).trans hSkip
    dsimp only at h
    split at h
    · cases h
    · cases h
      exact hSuffix
  · simp only [bind_eq_ok_iff, pure_eq_ok_iff] at h
    obtain ⟨_, rfl, h⟩ := h
    split at h
    · cases h
    · cases h
      exact hSkip

theorem field_suffix {what : Text} {p : Parsed FieldDecl ts.length} (h : field what ts = .ok p) :
    p.rest <:+ ts := by
  simp only [field, bind_eq_ok_iff] at h
  obtain ⟨⟨name, r, hr⟩, hName, h⟩ := h
  dsimp only at h
  split at h
  · cases h
  · simp only [bind_eq_ok_iff, pure_eq_ok_iff] at h
    obtain ⟨⟨_, r₁, h₁⟩, hColon, ⟨type, r₂, h₂⟩, hType, rfl⟩ := h
    exact ((typeRef_suffix hType).trans (take_suffix hColon)).trans (take_suffix hName)

theorem typeAnnotation_suffix {p : Parsed (Option TypeRef) (ts.length + 1)}
    (h : typeAnnotation ts = .ok p) : p.rest <:+ ts := by
  have hSkip := skip?_suffix (.punct .colon) ts
  simp only [ typeAnnotation] at h
  split at h
  · simp only [bind_eq_ok_iff, pure_eq_ok_iff] at h
    obtain ⟨⟨type, r₁, h₁⟩, hType, rfl⟩ := h
    exact (typeRef_suffix hType).trans hSkip
  · cases h
    exact hSkip

theorem binding_read {word : Token} {kind : BindingKind} {p : Parsed Statement ts.length}
    (h : binding word kind ts = .ok p) :
    (∀ e ∈ p.value.exprs, ReadBetween ts p.rest e) ∧ p.rest <:+ ts := by
  simp only [binding, bind_eq_ok_iff, pure_eq_ok_iff] at h
  obtain ⟨⟨name, r, hr⟩, hName, ⟨type, r₁, h₁⟩, hType, ⟨_, r₂, h₂⟩, hAssign, ⟨value, r₃, h₃⟩,
    hValue, ⟨_, r₄, h₄⟩, hEnd, rfl⟩ := h
  have hSuffix := ((take_suffix hAssign).trans (typeAnnotation_suffix hType)).trans
    (take_suffix hName)
  obtain ⟨hRead, hSuffix'⟩ := expression_read hValue
  have hEnd := endOfStatement_suffix hEnd
  exact ⟨List.forall_mem_singleton.mpr (hRead.mono hSuffix hEnd),
    (hEnd.trans hSuffix').trans hSuffix⟩

theorem returned_read {p : Parsed (Option Expr) (ts.length + 1)} (h : returned ts = .ok p) :
    (∀ e ∈ p.value.toList, ReadBetween ts p.rest e) ∧ p.rest <:+ ts := by
  unfold returned at h
  split at h
  · cases h
    exact ⟨by simp, List.suffix_rfl⟩
  · simp only [bind_eq_ok_iff, pure_eq_ok_iff] at h
    obtain ⟨⟨value, r, hr⟩, hValue, rfl⟩ := h
    obtain ⟨hRead, hSuffix⟩ := expression_read hValue
    exact ⟨List.forall_mem_singleton.mpr hRead, hSuffix⟩

theorem statement_read {t : Token} {r : List Token} {p : Parsed Statement (r.length + 1)}
    (h : statement t r = .ok p) :
    (∀ e ∈ p.value.exprs, ReadBetween (t :: r) p.rest e) ∧ p.rest <:+ (t :: r) := by
  have hTail := List.suffix_cons t r
  unfold statement at h
  split at h
  · simp only [bind_eq_ok_iff, pure_eq_ok_iff] at h
    obtain ⟨⟨s, r₁, h₁⟩, hBinding, rfl⟩ := h
    obtain ⟨hRead, hSuffix⟩ := binding_read hBinding
    exact ⟨fun e he => (hRead e he).mono hTail List.suffix_rfl, hSuffix.trans hTail⟩
  · simp only [bind_eq_ok_iff, pure_eq_ok_iff] at h
    obtain ⟨⟨s, r₁, h₁⟩, hBinding, rfl⟩ := h
    obtain ⟨hRead, hSuffix⟩ := binding_read hBinding
    exact ⟨fun e he => (hRead e he).mono hTail List.suffix_rfl, hSuffix.trans hTail⟩
  · simp only [bind_eq_ok_iff, pure_eq_ok_iff] at h
    obtain ⟨⟨value, r₁, h₁⟩, hValue, ⟨_, r₂, h₂⟩, hEnd, rfl⟩ := h
    obtain ⟨hRead, hSuffix⟩ := returned_read hValue
    have hEnd := endOfStatement_suffix hEnd
    exact ⟨fun e he => (hRead e he).mono hTail hEnd, (hEnd.trans hSuffix).trans hTail⟩
  · simp only [bind_eq_ok_iff, pure_eq_ok_iff] at h
    obtain ⟨⟨value, r₁, h₁⟩, hValue, ⟨_, r₂, h₂⟩, hEnd, rfl⟩ := h
    obtain ⟨hRead, hSuffix⟩ := expression_read hValue
    have hEnd := endOfStatement_suffix hEnd
    exact ⟨List.forall_mem_singleton.mpr (hRead.mono List.suffix_rfl hEnd), hEnd.trans hSuffix⟩

theorem statements_read {ts : List Token} {what : Text} {p : Parsed (List Statement) ts.length}
    (h : statements what ts = .ok p) :
    (∀ e ∈ p.value.flatMap Statement.exprs, ReadBetween ts p.rest e) ∧ p.rest <:+ ts := by
  match ts, p, h with
  | [], p, h =>
    rw [statements] at h
    cases h
  | t :: r, p, h =>
    have hTail := List.suffix_cons t r
    rw [statements] at h
    split at h
    · cases h
      exact ⟨by simp, hTail⟩
    · split at h
      · cases h
      · split at h
        · simp only [bind_eq_ok_iff, pure_eq_ok_iff] at h
          obtain ⟨⟨ss, r₁, h₁⟩, hRest, rfl⟩ := h
          obtain ⟨hRead, hSuffix⟩ := statements_read hRest
          exact ⟨fun e he => (hRead e he).mono hTail List.suffix_rfl, hSuffix.trans hTail⟩
        · simp only [bind_eq_ok_iff, pure_eq_ok_iff] at h
          obtain ⟨⟨s, r₁, h₁⟩, hFirst, ⟨ss, r₂, h₂⟩, hRest, rfl⟩ := h
          obtain ⟨hRead, hSuffix⟩ := statement_read hFirst
          obtain ⟨hRestRead, hSuffix'⟩ := statements_read hRest
          refine ⟨fun e he => ?_, hSuffix'.trans hSuffix⟩
          rcases List.mem_append.mp he with he | he
          · exact (hRead e he).mono List.suffix_rfl hSuffix'
          · exact (hRestRead e he).mono hSuffix List.suffix_rfl
termination_by ts.length
decreasing_by all_goals simp only [List.length_cons]; omega

theorem block_read {what : Text} {p : Parsed (List Statement) ts.length}
    (h : block what ts = .ok p) :
    (∀ e ∈ p.value.flatMap Statement.exprs, ReadBetween ts p.rest e) ∧ p.rest <:+ ts := by
  simp only [block, bind_eq_ok_iff, pure_eq_ok_iff] at h
  obtain ⟨⟨_, r, hr⟩, hOpen, ⟨body, r₁, h₁⟩, hBody, rfl⟩ := h
  obtain ⟨hRead, hSuffix⟩ := statements_read hBody
  have hOpen := take_suffix hOpen
  exact ⟨fun e he => (hRead e he).mono hOpen List.suffix_rfl, hSuffix.trans hOpen⟩

theorem importedNames_suffix {p : Parsed (List Text) ts.length} (h : importedNames ts = .ok p) :
    p.rest <:+ ts := by
  unfold importedNames at h
  split at h
  · cases h
  · split at h
    · simp only [bind_eq_ok_iff, pure_eq_ok_iff] at h
      obtain ⟨⟨names, r₁, h₁⟩, hNames, rfl⟩ := h
      have hSuffix := listUntil_suffix (fun _ _ => take_suffix) hNames
      exact hSuffix.trans (List.suffix_cons _ _)
    · cases h
      exact List.suffix_cons _ _
    · cases h

theorem importDecl_suffix {p : Parsed ImportDecl ts.length} (h : importDecl ts = .ok p) :
    p.rest <:+ ts := by
  simp only [importDecl, bind_eq_ok_iff] at h
  obtain ⟨⟨word, r, hr⟩, hWord, ⟨names, r₁, h₁⟩, hNames, ⟨_, r₂, h₂⟩, hFrom, ⟨literal, r₃, h₃⟩,
    hLiteral, h⟩ := h
  have hSuffix := (((take_suffix hLiteral).trans (takeIf_ok hFrom).2.2).trans
    (importedNames_suffix hNames)).trans (take_suffix hWord)
  dsimp only at h
  split at h
  · cases h
  · simp only [bind_eq_ok_iff, pure_eq_ok_iff] at h
    obtain ⟨⟨_, r₄, h₄⟩, hEnd, rfl⟩ := h
    exact (endOfStatement_suffix hEnd).trans hSuffix

theorem importDecls_suffix {ts : List Token} {p : Parsed (List ImportDecl) (ts.length + 1)}
    (h : importDecls ts = .ok p) : p.rest <:+ ts := by
  rw [importDecls] at h
  split at h
  · simp only [bind_eq_ok_iff, pure_eq_ok_iff] at h
    obtain ⟨⟨d, r, hr⟩, hFirst, ⟨ds, r₁, h₁⟩, hRest, rfl⟩ := h
    exact (importDecls_suffix hRest).trans (importDecl_suffix hFirst)
  · cases h
    exact List.suffix_rfl
termination_by ts.length

def Member.exprs : Member → List Expr
  | .property p => [p.value]
  | .method m => m.exprs

theorem method_read {name : Token} {p : Parsed MethodDecl ts.length}
    (h : method name ts = .ok p) : (∀ e ∈ p.value.exprs, ReadBetween ts p.rest e) ∧ p.rest <:+ ts := by
  simp only [method, bind_eq_ok_iff, pure_eq_ok_iff] at h
  obtain ⟨⟨_, r, hr⟩, hOpen, ⟨params, r₁, h₁⟩, hParams, ⟨returns, r₂, h₂⟩, hReturns,
    ⟨body, r₃, h₃⟩, hBody, rfl⟩ := h
  have hSuffix := ((typeAnnotation_suffix hReturns).trans
    (listUntil_suffix (fun _ _ => field_suffix) hParams)).trans (take_suffix hOpen)
  obtain ⟨hRead, hSuffix'⟩ := block_read hBody
  exact ⟨fun e he => (hRead e he).mono hSuffix List.suffix_rfl, hSuffix'.trans hSuffix⟩

theorem member_read {p : Parsed Member ts.length} (h : member ts = .ok p) :
    (∀ e ∈ p.value.exprs, ReadBetween ts p.rest e) ∧ p.rest <:+ ts := by
  simp only [member, bind_eq_ok_iff] at h
  obtain ⟨⟨name, r₂, h₂⟩, hName, h⟩ := h
  have hSuffix := (take_suffix hName).trans ((skip?_suffix (.keyword .kwStatic) _).trans
    (skip?_suffix (.keyword .kwPublic) ts))
  dsimp only at h
  split at h
  · simp only [bind_eq_ok_iff, pure_eq_ok_iff] at h
    obtain ⟨⟨_, r₃, h₃⟩, hAssign, ⟨value, r₄, h₄⟩, hValue, ⟨_, r₅, h₅⟩, hEnd, rfl⟩ := h
    have hSuffix' := (take_suffix hAssign).trans hSuffix
    obtain ⟨hRead, hValueSuffix⟩ := expression_read hValue
    have hEnd := endOfStatement_suffix hEnd
    exact ⟨List.forall_mem_singleton.mpr (hRead.mono hSuffix' hEnd),
      (hEnd.trans hValueSuffix).trans hSuffix'⟩
  · split at h
    · split at h
      · cases h
      · simp only [bind_eq_ok_iff, pure_eq_ok_iff] at h
        obtain ⟨⟨m, r₃, h₃⟩, hMethod, rfl⟩ := h
        obtain ⟨hRead, hSuffix'⟩ := method_read hMethod
        exact ⟨fun e he => (hRead e he).mono hSuffix List.suffix_rfl, hSuffix'.trans hSuffix⟩
    · cases h

/-- Each member of a class is read by itself. -/
theorem members_read {ts : List Token} {p : Parsed (List Member) ts.length}
    (h : members ts = .ok p) :
    (∀ m ∈ p.value, ∃ (ts' : List Token) (q : Parsed Member ts'.length), ts' <:+ ts ∧
      member ts' = .ok q ∧ q.value = m) ∧ p.rest <:+ ts := by
  match ts, p, h with
  | [], p, h =>
    rw [members] at h
    cases h
  | t :: r, p, h =>
    have hTail := List.suffix_cons t r
    rw [members] at h
    split at h
    · cases h
      exact ⟨by simp, hTail⟩
    · split at h
      · cases h
      · split at h
        · simp only [bind_eq_ok_iff, pure_eq_ok_iff] at h
          obtain ⟨⟨ms, r₁, h₁⟩, hRest, rfl⟩ := h
          obtain ⟨hRead, hSuffix⟩ := members_read hRest
          refine ⟨fun m hm => ?_, hSuffix.trans hTail⟩
          obtain ⟨ts', q, hts', hq⟩ := hRead m hm
          exact ⟨ts', q, hts'.trans hTail, hq⟩
        · simp only [bind_eq_ok_iff, pure_eq_ok_iff] at h
          obtain ⟨⟨m, r₁, h₁⟩, hFirst, ⟨ms, r₂, h₂⟩, hRest, rfl⟩ := h
          have hSuffix := (member_read hFirst).2
          have hLength : r₁.length < (t :: r).length := h₁
          obtain ⟨hRead, hSuffix'⟩ := members_read hRest
          refine ⟨List.forall_mem_cons.mpr ⟨?_, fun m hm => ?_⟩, hSuffix'.trans hSuffix⟩
          · exact ⟨t :: r, _, List.suffix_rfl, hFirst, rfl⟩
          · obtain ⟨ts', q, hts', hq⟩ := hRead m hm
            exact ⟨ts', q, hts'.trans hSuffix, hq⟩
termination_by ts.length
decreasing_by all_goals simp only [List.length_cons] at *; omega

theorem exists_member_of_mem_exprs {ms : List Member} {e : Expr}
    (h : e ∈ (ms.filterMap Member.property?).map PropertyDecl.value ++
      (ms.filterMap Member.method?).flatMap MethodDecl.exprs) : ∃ m ∈ ms, e ∈ m.exprs := by
  rcases List.mem_append.mp h with h | h
  · obtain ⟨p, hp, rfl⟩ := List.mem_map.mp h
    obtain ⟨m, hm, hProperty⟩ := List.mem_filterMap.mp hp
    cases m with
    | property =>
      cases hProperty
      exact ⟨_, hm, List.mem_singleton_self _⟩
    | method => cases hProperty
  · obtain ⟨d, hd, he⟩ := List.mem_flatMap.mp h
    obtain ⟨m, hm, hMethod⟩ := List.mem_filterMap.mp hd
    cases m with
    | property => cases hMethod
    | method =>
      cases hMethod
      exact ⟨_, hm, he⟩

theorem classDecl_read {isExported isDefault : Bool} {p : Parsed ClassDecl ts.length}
    (h : classDecl isExported isDefault ts = .ok p) :
    (∀ e ∈ p.value.exprs, ReadFrom ts e) ∧ p.rest <:+ ts := by
  simp only [classDecl, bind_eq_ok_iff, pure_eq_ok_iff] at h
  obtain ⟨⟨word, r, hr⟩, hWord, ⟨name, r₁, h₁⟩, hName, ⟨_, r₂, h₂⟩, hOpen, ⟨ms, r₃, h₃⟩,
    hMembers, rfl⟩ := h
  have hSuffix := ((take_suffix hOpen).trans (take_suffix hName)).trans (take_suffix hWord)
  obtain ⟨hRead, hSuffix'⟩ := members_read hMembers
  refine ⟨fun e he => ?_, hSuffix'.trans hSuffix⟩
  obtain ⟨m, hm, hMember⟩ := exists_member_of_mem_exprs he
  obtain ⟨ts', q, hts', hq, rfl⟩ := hRead m hm
  exact ((member_read hq).1 e hMember).readFrom.mono (hts'.trans hSuffix)

theorem endOfField_suffix {name : Text} {p : Parsed PUnit (ts.length + 1)}
    (h : endOfField name ts = .ok p) : p.rest <:+ ts := by
  unfold endOfField at h
  split at h
  · cases h
    exact List.tail_suffix ts
  · split at h
    · cases h
      exact List.suffix_rfl
    · cases h

theorem interfaceFields_suffix {ts : List Token} {p : Parsed (List FieldDecl) ts.length}
    (h : interfaceFields ts = .ok p) : p.rest <:+ ts := by
  rw [interfaceFields] at h
  split at h
  · simp only [bind_eq_ok_iff, pure_eq_ok_iff] at h
    obtain ⟨⟨_, r, hr⟩, hClose, rfl⟩ := h
    exact take_suffix hClose
  · simp only [bind_eq_ok_iff, pure_eq_ok_iff] at h
    obtain ⟨⟨f, r, hr⟩, hField, ⟨_, r₁, h₁⟩, hEnd, ⟨fs, r₂, h₂⟩, hRest, rfl⟩ := h
    have hLength : r₁.length < r.length + 1 := h₁
    exact ((interfaceFields_suffix hRest).trans (endOfField_suffix hEnd)).trans (field_suffix hField)
termination_by ts.length
decreasing_by omega

theorem baseInterface_suffix {p : Parsed (Option Text) (ts.length + 1)}
    (h : baseInterface ts = .ok p) : p.rest <:+ ts := by
  have hSkip := skip?_suffix (.keyword .kwExtends) ts
  simp only [baseInterface] at h
  split at h
  · simp only [bind_eq_ok_iff, pure_eq_ok_iff] at h
    obtain ⟨⟨base, r₁, h₁⟩, hBase, rfl⟩ := h
    exact (take_suffix hBase).trans hSkip
  · cases h
    exact hSkip

theorem interfaceDecl_suffix {isExported : Bool} {p : Parsed InterfaceDecl ts.length}
    (h : interfaceDecl isExported ts = .ok p) : p.rest <:+ ts := by
  simp only [interfaceDecl, bind_eq_ok_iff, pure_eq_ok_iff] at h
  obtain ⟨⟨word, r, hr⟩, hWord, ⟨name, r₁, h₁⟩, hName, ⟨base, r₂, h₂⟩, hBase, ⟨_, r₃, h₃⟩, hOpen,
    ⟨fields, r₄, h₄⟩, hFields, rfl⟩ := h
  exact ((((interfaceFields_suffix hFields).trans (take_suffix hOpen)).trans
    (baseInterface_suffix hBase)).trans (take_suffix hName)).trans (take_suffix hWord)

theorem exportWords_suffix (ts : List Token) : (exportWords ts).rest <:+ ts := by
  have hSkip := skip?_suffix (.keyword .kwExport) ts
  unfold exportWords
  dsimp only
  split
  · exact (skip?_suffix (.keyword .kwDefault) _).trans hSkip
  · exact hSkip

theorem declaration_read {p : Parsed Declaration ts.length} (h : declaration ts = .ok p) :
    (∀ c, p.value = .cls c → ∀ e ∈ c.exprs, ReadFrom ts e) ∧ p.rest <:+ ts := by
  have hSuffix := exportWords_suffix ts
  simp only [declaration] at h
  split at h
  · simp only [bind_eq_ok_iff, pure_eq_ok_iff] at h
    obtain ⟨⟨c, r₁, h₁⟩, hClass, rfl⟩ := h
    obtain ⟨hRead, hSuffix'⟩ := classDecl_read hClass
    refine ⟨?_, hSuffix'.trans hSuffix⟩
    rintro c' hc' e he
    cases hc'
    exact (hRead e he).mono hSuffix
  · split at h
    · cases h
    · simp only [bind_eq_ok_iff, pure_eq_ok_iff] at h
      obtain ⟨⟨i, r₁, h₁⟩, hInterface, rfl⟩ := h
      exact ⟨(fun c hc => by cases hc), (interfaceDecl_suffix hInterface).trans hSuffix⟩
  · cases h
  · cases h

/-- Each declaration of a file is read by itself. -/
theorem declarations_read {ts : List Token} {ds : List Declaration}
    (h : declarations ts = .ok ds) :
    ∀ d ∈ ds, ∃ (ts' : List Token) (q : Parsed Declaration ts'.length), ts' <:+ ts ∧
      declaration ts' = .ok q ∧ q.value = d := by
  match ts, h with
  | [], h =>
    rw [declarations] at h
    cases h
    simp
  | t :: r, h =>
    have hTail := List.suffix_cons t r
    rw [declarations] at h
    split at h
    · cases h
      simp
    · split at h
      · intro d hd
        obtain ⟨ts', q, hts', hq⟩ := declarations_read h d hd
        exact ⟨ts', q, hts'.trans hTail, hq⟩
      · simp only [bind_eq_ok_iff, pure_eq_ok_iff] at h
        obtain ⟨⟨d, r₁, h₁⟩, hFirst, ds', hRest, rfl⟩ := h
        have hSuffix := (declaration_read hFirst).2
        have hLength : r₁.length < (t :: r).length := h₁
        refine List.forall_mem_cons.mpr ⟨⟨t :: r, _, List.suffix_rfl, hFirst, rfl⟩, ?_⟩
        intro d' hd'
        obtain ⟨ts', q, hts', hq⟩ := declarations_read hRest d' hd'
        exact ⟨ts', q, hts'.trans hSuffix, hq⟩
termination_by ts.length
decreasing_by all_goals simp only [List.length_cons] at *; omega

theorem file_read {f : File} (h : file ts = .ok f) : ∀ e ∈ f.exprs, ReadFrom ts e := by
  simp only [file, bind_eq_ok_iff, pure_eq_ok_iff] at h
  obtain ⟨⟨imports, r, hr⟩, hImports, ds, hDeclarations, rfl⟩ := h
  intro e he
  obtain ⟨c, hc, he⟩ := List.mem_flatMap.mp he
  obtain ⟨d, hd, hClass⟩ := List.mem_filterMap.mp hc
  obtain ⟨ts', q, hts', hq, hSame⟩ := declarations_read hDeclarations d hd
  cases d with
  | interface => cases hClass
  | cls c' =>
    cases hClass
    exact ((declaration_read hq).1 c hSame e he).mono (hts'.trans (importDecls_suffix hImports))

end Parser

/-- Every expression of a parsed source was read from its tokens. -/
theorem parse_read {name src : Text} {f : File} (h : parse name src = .ok f) :
    ∀ e ∈ f.exprs, Parser.ReadFrom (tokens src) e :=
  Parser.file_read (mapError_eq_ok_iff.mp h)

/-- Every statement of every method in a parsed source is well-formed. -/
theorem parse_wellFormed {name src : Text} {f : File} (h : parse name src = .ok f) :
    ∀ c ∈ f.classes, ∀ m ∈ c.methods, ∀ s ∈ m.body, s.WellFormed := by
  intro c hc m hm s hs e he
  have hMethod : e ∈ m.exprs := List.mem_flatMap.mpr ⟨s, hs, he⟩
  have hClass : e ∈ c.exprs := List.mem_append_right _ (List.mem_flatMap.mpr ⟨m, hm, hMethod⟩)
  have hFile : e ∈ f.exprs := List.mem_flatMap.mpr ⟨c, hc, hClass⟩
  exact (parse_read h e hFile).wellFormed (allLexed_tokens src)

end AnchorScript.Syntax
