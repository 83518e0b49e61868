import AnchorScript.Proofs.Syntax.Placement
import AnchorScript.Proofs.Syntax.Positions

/-!
# Reading does not look at places

Read from the same tokens at other places, every reader takes the same tokens and returns the same
tree at other places, or refuses both. The same holds where a string literal is written instead of
another: the tree then holds its value.
-/

namespace AnchorScript.Syntax.Parser

open Outcome

variable {α β α' β' : Type} {n m n' m' : Nat} {ρ : Rewriting}

/-- Both readers fail, or both succeed and the second has what the first has, rewritten and without
its places. -/
def Alike (ρ : Rewriting) (g : α → α') (x : Reader α n) (x' : Reader α' n') : Prop :=
  Agree (fun _ _ => True)
    (fun p p' => p'.value = g p.value ∧ p'.rest = p.rest.map ρ.token) x x'

namespace Alike

theorem fail {g : α → α'} {t t' : Token} {message message' : Text} :
    Alike ρ g (Parser.fail t message : Reader α n) (Parser.fail t' message' : Reader α' n') :=
  .error trivial

theorem ok {g : α → α'} {a : α} {r : List Token} {h : r.length < n}
    {h' : (r.map ρ.token).length < n'} :
    Alike ρ g (.ok ⟨a, r, h⟩) (.ok ⟨g a, r.map ρ.token, h'⟩) :=
  Agree.ok ⟨rfl, rfl⟩

theorem bind {g : α → α'} {k : β → β'} {x : Reader α n} {x' : Reader α' n'}
    {f : Parsed α n → Reader β m} {f' : Parsed α' n' → Reader β' m'} (h : Alike ρ g x x')
    (hNext : ∀ a r hr hr', Alike ρ k (f ⟨a, r, hr⟩) (f' ⟨g a, r.map ρ.token, hr'⟩)) :
    Alike ρ k (x >>= f) (x' >>= f') := by
  refine Agree.bind h ?_
  rintro ⟨a, r, hr⟩ ⟨_, _, hr'⟩ ⟨rfl, rfl⟩
  exact hNext a r hr hr'

theorem ite {g : α → α'} {p q : Prop} [Decidable p] [Decidable q] {x y : Reader α n}
    {x' y' : Reader α' n'} (h : q ↔ p) (hThen : Alike ρ g x x') (hElse : Alike ρ g y y') :
    Alike ρ g (if p then x else y) (if q then x' else y') :=
  Agree.ite h hThen hElse

end Alike

@[simp] theorem kind_token (t : Token) : (ρ.token t).kind = t.kind := rfl

@[simp] theorem newlineBefore_token (t : Token) :
    (ρ.token t).newlineBefore = t.newlineBefore := rfl

theorem token_of_ne {t : Token} (h : t.kind ≠ .string) : ρ.token t = t.unplaced := by
  simp [Rewriting.token, Token.unplaced, h]

theorem value?_token {t : Token} (h : t.kind = .string) :
    StringLiteral.value? (ρ.token t).literal =
      (StringLiteral.value? t.literal).map (ρ.value t.pos) := by
  simp only [Rewriting.token, h, ↓reduceIte, ρ.value?_literal]

@[simp] theorem kind_current (ts : List Token) :
    (current (ts.map ρ.token)).kind = (current ts).kind := by
  cases ts <;> rfl

@[simp] theorem newlineBefore_current (ts : List Token) :
    (current (ts.map ρ.token)).newlineBefore = (current ts).newlineBefore := by
  cases ts <;> rfl

@[simp] theorem atKind_token (k : TokenKind) (ts : List Token) :
    atKind k (ts.map ρ.token) = atKind k ts := by
  rw [atKind, kind_current]
  rfl

@[simp] theorem atPunct_token (p : Punct) (ts : List Token) :
    atPunct p (ts.map ρ.token) = atPunct p ts :=
  atKind_token (.punct p) ts

@[simp] theorem atKeyword_token (k : Keyword) (ts : List Token) :
    atKeyword k (ts.map ρ.token) = atKeyword k ts :=
  atKind_token (.keyword k) ts

theorem takeIf_alike {accept : Token → Bool} (hWord : ∀ t, accept t = true → t.kind ≠ .string)
    (h : ∀ t, accept t.unplaced = accept t) (message message' : Text) (ts : List Token) :
    Alike ρ Token.unplaced (takeIf accept message ts)
      (takeIf accept message' (ts.map ρ.token)) := by
  cases ts with
  | nil => exact .fail
  | cons t r =>
    by_cases hString : t.kind = .string
    · have hRefused : accept t = false := Bool.eq_false_iff.mpr fun ht => hWord t ht hString
      have hRefused' : accept (ρ.token t) = false :=
        Bool.eq_false_iff.mpr fun ht => hWord _ ht hString
      rw [List.map_cons, takeIf, takeIf, hRefused, hRefused']
      exact .fail
    · rw [List.map_cons, takeIf, takeIf, token_of_ne hString, h]
      split
      · exact .ok
      · exact .fail

theorem isName_ne {t : Token} (h : t.isName = true) : t.kind ≠ .string := by
  rintro hKind
  simp [Token.isName, hKind] at h

theorem take_alike {k : TokenKind} (hWord : k ≠ .string) (message message' : Text)
    (ts : List Token) :
    Alike ρ Token.unplaced (take k message ts) (take k message' (ts.map ρ.token)) := by
  refine takeIf_alike (fun t ht => ?_) (fun _ => rfl) message message' ts
  rwa [of_decide_eq_true ht]

theorem skip?_alike (k : TokenKind) (ts : List Token) :
    ∃ found r hr hr', skip? k ts = ⟨found, r, hr⟩ ∧
      skip? k (ts.map ρ.token) = ⟨found, r.map ρ.token, hr'⟩ := by
  have hTail : (ts.map ρ.token).tail = ts.tail.map ρ.token := List.map_tail.symm
  have hLength := length_tail_lt_succ (ts.map ρ.token)
  unfold skip?
  rw [hTail] at hLength
  simp only [atKind_token, hTail]
  split
  · exact ⟨true, ts.tail, length_tail_lt_succ ts, hLength, rfl, rfl⟩
  · exact ⟨false, ts, length_lt_succ ts, length_lt_succ _, rfl, rfl⟩

theorem apply_rewritten (i : Infix) (left right : Expr) :
    i.apply (left.rewritten ρ) (right.rewritten ρ) = (i.apply left right).rewritten ρ := by
  cases i <;> rfl

mutual

theorem exprAt_alike (min : Nat) (ts : List Token) :
    Alike ρ (Expr.rewritten ρ) (exprAt min ts) (exprAt min (ts.map ρ.token)) := by
  rw [exprAt, exprAt]
  refine .bind (operand_alike ts) fun left r hr hr' => ?_
  exact .bind (climb_alike min left r) fun e r' _ _ => .ok
termination_by 8 * ts.length + 6
decreasing_by all_goals omega

theorem climb_alike (min : Nat) (left : Expr) (ts : List Token) :
    Alike ρ (Expr.rewritten ρ) (climb min left ts) (climb min (left.rewritten ρ) (ts.map ρ.token)) := by
  match ts with
  | [] =>
    rw [List.map_nil, climb, climb]
    exact .ok
  | t :: r =>
    rw [List.map_cons, climb, climb, kind_token]
    split
    · exact .ok
    · rename_i i _
      split
      · refine .bind (exprAt_alike i.rightLevel r) fun right r₁ h₁ h₁' => ?_
        dsimp only
        rw [apply_rewritten]
        exact .bind (climb_alike min (i.apply left right) r₁) fun e r₂ _ _ => .ok
      · exact .ok
termination_by 8 * ts.length
decreasing_by all_goals simp only [List.length_cons]; omega

theorem operand_alike (ts : List Token) :
    Alike ρ (Expr.rewritten ρ) (operand ts) (operand (ts.map ρ.token)) := by
  match ts with
  | [] =>
    rw [List.map_nil, operand]
    exact .fail
  | t :: r =>
    rw [List.map_cons, operand, operand, kind_token]
    split
    · exact .bind (operand_alike r) fun e r' _ _ => .ok
    · refine .bind (primary_alike t r) fun e r₁ h₁ _ => ?_
      exact .bind (postfixes_alike e r₁) fun e' r₂ _ _ => .ok
termination_by 8 * ts.length + 5
decreasing_by all_goals simp only [List.length_cons]; omega

theorem primary_alike (t : Token) (r : List Token) :
    Alike ρ (Expr.rewritten ρ) (primary t r) (primary (ρ.token t) (r.map ρ.token)) := by
  rw [primary, primary, kind_token]
  split
  · rename_i hKind
    rw [token_of_ne (by simp [hKind])]
    exact .ok
  · rename_i hKind
    rw [token_of_ne (by simp [hKind])]
    exact .ok
  · rename_i hKind
    rw [value?_token hKind]
    cases hValue : StringLiteral.value? t.literal with
    | some value => exact .ok
    | none => exact .fail
  · exact .ok
  · exact .ok
  · refine .bind (exprsUntil_alike .rbracket "array literal" r) fun elems r' _ _ => ?_
    rw [← Expr.rewrittenAll_eq]
    exact .ok
  · refine .bind (take_alike (by simp) _ _ r) fun name r₁ h₁ _ => ?_
    refine .bind (take_alike (by simp) _ _ r₁) fun opening r₂ h₂ _ => ?_
    refine .bind (exprsUntil_alike .rparen "constructor arguments" r₂) fun args r₃ _ _ => ?_
    rw [← Expr.rewrittenAll_eq]
    exact .ok
  · refine .bind (exprAt_alike anyLevel r) fun inner r₁ _ _ => ?_
    exact .bind (take_alike (by simp) _ _ r₁) fun _ r₂ _ _ => .ok
  · exact .fail
  · exact .fail
termination_by 8 * r.length + 8
decreasing_by all_goals omega

theorem postfixes_alike (left : Expr) (ts : List Token) :
    Alike ρ (Expr.rewritten ρ) (postfixes left ts)
      (postfixes (left.rewritten ρ) (ts.map ρ.token)) := by
  match ts with
  | [] =>
    rw [List.map_nil, postfixes, postfixes]
    exact .ok
  | t :: r =>
    rw [List.map_cons, postfixes, postfixes, kind_token, newlineBefore_token]
    split
    · refine .bind (takeIf_alike (fun _ => isName_ne) (fun _ => rfl) _ _ r) fun name r₁ h₁ _ => ?_
      exact .bind (postfixes_alike (.member left name.pos name.literal) r₁) fun e r₂ _ _ => .ok
    · split
      · refine .bind (exprsUntil_alike .rparen "argument list" r) fun args r₁ h₁ _ => ?_
        have hRest := postfixes_alike (.call left args) r₁
        rw [Expr.rewritten, Expr.rewrittenAll_eq] at hRest
        exact .bind hRest fun e r₂ _ _ => .ok
      · split
        · refine .bind (exprAt_alike anyLevel r) fun position r₁ h₁ _ => ?_
          refine .bind (take_alike (by simp) _ _ r₁) fun _ r₂ h₂ _ => ?_
          exact .bind (postfixes_alike (.index left position) r₂) fun e r₃ _ _ => .ok
        · exact .ok
termination_by 8 * ts.length
decreasing_by all_goals simp only [List.length_cons]; omega

theorem exprsUntil_alike (closing : Punct) (what : Text) (ts : List Token) :
    Alike ρ (List.map (Expr.rewritten ρ)) (exprsUntil closing what ts)
      (exprsUntil closing what (ts.map ρ.token)) := by
  rw [exprsUntil, exprsUntil]
  refine .ite (by simp) ?_ ?_
  · exact .bind (take_alike (by simp) _ _ ts) fun _ r _ _ => .ok
  · refine .bind (exprAt_alike anyLevel ts) fun e r hr _ => ?_
    obtain ⟨more, r₁, h₁, _, hSkip, hSkip'⟩ := skip?_alike (.punct .comma) r
    dsimp only
    rw [hSkip, hSkip']
    dsimp only
    split
    · exact .bind (exprsUntil_alike closing what r₁) fun es r₂ _ _ => .ok
    · exact .bind (take_alike (by simp) _ _ r₁) fun _ r₂ _ _ => .ok
termination_by 8 * ts.length + 7
decreasing_by all_goals omega

end

theorem expression_alike (ts : List Token) :
    Alike ρ (Expr.rewritten ρ) (expression ts) (expression (ts.map ρ.token)) :=
  exprAt_alike anyLevel ts

theorem endOfStatement_alike (what : Text) (ts : List Token) :
    Alike ρ id (endOfStatement what ts) (endOfStatement what (ts.map ρ.token)) := by
  refine .ite (by simp) (Agree.ok ⟨rfl, List.map_tail.symm⟩) ?_
  exact .ite (by simp) .ok .fail

theorem listUntil_alike {item : (ts : List Token) → Reader α ts.length}
    {item' : (ts : List Token) → Reader α' ts.length} {g : α → α'}
    (hItem : ∀ ts, Alike ρ g (item ts) (item' (ts.map ρ.token))) (closing : Punct)
    (message : Text) (ts : List Token) :
    Alike ρ (List.map g) (listUntil closing message item ts)
      (listUntil closing message item' (ts.map ρ.token)) := by
  rw [listUntil, listUntil]
  refine .ite (by simp) ?_ ?_
  · exact .bind (take_alike (by simp) _ _ ts) fun _ r _ _ => .ok
  · refine .bind (hItem ts) fun a r hr _ => ?_
    obtain ⟨more, r₁, h₁, _, hSkip, hSkip'⟩ := skip?_alike (.punct .comma) r
    dsimp only
    rw [hSkip, hSkip']
    dsimp only
    split
    · exact .bind (listUntil_alike hItem closing message r₁) fun as r₂ _ _ => .ok
    · exact .bind (take_alike (by simp) _ _ r₁) fun _ r₂ _ _ => .ok
termination_by ts.length

theorem typeArg_alike (name : Text) (ts : List Token) :
    Alike ρ id (typeArg name ts) (typeArg name (ts.map ρ.token)) := by
  have hWord (t : Token) (ht : isTypeArg t = true) : t.kind ≠ .string := by
    intro hKind
    simp [isTypeArg, hKind] at ht
  refine .bind (takeIf_alike hWord (fun _ => rfl) _ _ ts) fun arg r _ _ => ?_
  exact .bind (take_alike (by simp) _ _ r) fun _ r₁ _ _ => .ok

theorem typeRef_alike (ts : List Token) :
    Alike ρ TypeRef.unplaced (typeRef ts) (typeRef (ts.map ρ.token)) := by
  refine .bind (take_alike (by simp) _ _ ts) fun name r _ _ => ?_
  obtain ⟨hasArg, r₁, _, _, hSkip, hSkip'⟩ := skip?_alike (.punct .lt) r
  dsimp only
  rw [hSkip, hSkip']
  dsimp only
  split
  · refine .bind (typeArg_alike _ r₁) fun arg r₂ _ _ => ?_
    exact .ite (by simp) .fail .ok
  · exact .ite (by simp) .fail .ok

theorem field_alike (what : Text) (ts : List Token) :
    Alike ρ FieldDecl.unplaced (field what ts) (field what (ts.map ρ.token)) := by
  refine .bind (take_alike (by simp) _ _ ts) fun name r _ _ => ?_
  refine .ite (by simp) .fail ?_
  refine .bind (take_alike (by simp) _ _ r) fun _ r₁ _ _ => ?_
  exact .bind (typeRef_alike r₁) fun type r₂ _ _ => .ok

theorem typeAnnotation_alike (ts : List Token) :
    Alike ρ (Option.map TypeRef.unplaced) ( typeAnnotation ts)
      ( typeAnnotation (ts.map ρ.token)) := by
  obtain ⟨present, r, _, _, hSkip, hSkip'⟩ := skip?_alike (.punct .colon) ts
  rw [ typeAnnotation, typeAnnotation, hSkip, hSkip']
  dsimp only
  split
  · exact .bind (typeRef_alike r) fun type r₁ _ _ => .ok
  · exact .ok

theorem binding_alike (word : Token) (kind : BindingKind) (ts : List Token) :
    Alike ρ (Statement.rewritten ρ) (binding word kind ts)
      (binding (ρ.token word) kind (ts.map ρ.token)) := by
  refine .bind (take_alike (by simp) _ _ ts) fun name r _ _ => ?_
  refine .bind (typeAnnotation_alike r) fun type r₁ _ _ => ?_
  refine .bind (take_alike (by simp) _ _ r₁) fun _ r₂ _ _ => ?_
  refine .bind (expression_alike r₂) fun value r₃ _ _ => ?_
  exact .bind (endOfStatement_alike _ r₃) fun _ r₄ _ _ => .ok

theorem returned_alike (ts : List Token) :
    Alike ρ (Option.map (Expr.rewritten ρ)) (returned ts) (returned (ts.map ρ.token)) := by
  refine .ite (by simp) .ok ?_
  exact .bind (expression_alike ts) fun value r _ _ => .ok

theorem statement_alike (t : Token) (r : List Token) :
    Alike ρ (Statement.rewritten ρ) (statement t r) (statement (ρ.token t) (r.map ρ.token)) := by
  rw [statement, statement, kind_token]
  split
  · exact .bind (binding_alike t .const r) fun s r₁ _ _ => .ok
  · exact .bind (binding_alike t .letting r) fun s r₁ _ _ => .ok
  · refine .bind (returned_alike r) fun value r₁ _ _ => ?_
    exact .bind (endOfStatement_alike _ r₁) fun _ r₂ _ _ => .ok
  · refine .bind (expression_alike (t :: r)) fun value r₁ _ _ => ?_
    exact .bind (endOfStatement_alike _ r₁) fun _ r₂ _ _ => .ok

theorem statements_alike (what : Text) (ts : List Token) :
    Alike ρ (List.map (Statement.rewritten ρ)) (statements what ts)
      (statements what (ts.map ρ.token)) := by
  match ts with
  | [] =>
    rw [List.map_nil, statements]
    exact .fail
  | t :: r =>
    rw [List.map_cons, statements, statements, kind_token]
    split
    · exact .ok
    · split
      · exact .fail
      · split
        · exact .bind (statements_alike what r) fun ss r₁ _ _ => .ok
        · refine .bind (statement_alike t r) fun s r₁ h₁ _ => ?_
          exact .bind (statements_alike what r₁) fun ss r₂ _ _ => .ok
termination_by ts.length
decreasing_by all_goals simp only [List.length_cons]; omega

theorem block_alike (what : Text) (ts : List Token) :
    Alike ρ (List.map (Statement.rewritten ρ)) (block what ts) (block what (ts.map ρ.token)) := by
  refine .bind (take_alike (by simp) _ _ ts) fun _ r _ _ => ?_
  exact .bind (statements_alike what r) fun body r₁ _ _ => .ok

theorem importedNames_alike (ts : List Token) :
    Alike ρ id (importedNames ts) (importedNames (ts.map ρ.token)) := by
  cases ts with
  | nil => exact .fail
  | cons t r =>
    rw [List.map_cons, importedNames, importedNames, kind_token]
    split
    · refine .bind (listUntil_alike (take_alike (by simp) _ _) .rbrace _ r) fun names r₁ _ _ => ?_
      have hNames : (names.map Token.unplaced).map Token.literal = names.map Token.literal := by
        rw [List.map_map]
        rfl
      dsimp only
      rw [hNames]
      exact .ok
    · rename_i hKind
      rw [token_of_ne (by simp [hKind])]
      exact .ok
    · exact .fail

/-- The module of an import is the value of a string, but the tree does not say where it stands. -/
def ImportRewritten (ρ : Rewriting) (d d' : ImportDecl) : Prop :=
  ∃ pos, d' = { d.unplaced with module := ρ.value pos d.module }

theorem take_string_agree (message message' : Text) (ts : List Token) :
    Agree (fun _ _ => True)
      (fun p p' : Parsed Token _ => p.value.kind = .string ∧ p'.value = ρ.token p.value ∧
        p'.rest = p.rest.map ρ.token)
      (take .string message ts) (take .string message' (ts.map ρ.token)) := by
  cases ts with
  | nil => exact .error trivial
  | cons t r =>
    rw [List.map_cons, take, take, takeIf, takeIf, kind_token]
    split
    · rename_i hKind
      exact .ok ⟨of_decide_eq_true hKind, rfl, rfl⟩
    · exact .error trivial

theorem importDecl_agree (ts : List Token) :
    Agree (fun _ _ => True)
      (fun p p' : Parsed ImportDecl _ => ImportRewritten ρ p.value p'.value ∧
        p'.rest = p.rest.map ρ.token)
      (importDecl ts) (importDecl (ts.map ρ.token)) := by
  refine Agree.bind (take_alike (k := .keyword .kwImport) (by simp) _ _ ts) ?_
  rintro ⟨word, r, _⟩ ⟨_, _, _⟩ ⟨rfl, rfl⟩
  refine Agree.bind (importedNames_alike r) ?_
  rintro ⟨names, r₁, _⟩ ⟨_, _, _⟩ ⟨hNames, hRest⟩
  dsimp only [id] at hNames hRest
  subst hNames hRest
  have hFrom (t : Token) (ht : isFrom t = true) : t.kind ≠ .string := by
    intro hKind
    simp [isFrom, hKind] at ht
  refine Agree.bind (takeIf_alike hFrom (fun _ => rfl) _ _ r₁) ?_
  rintro ⟨_, r₂, _⟩ ⟨_, _, _⟩ ⟨rfl, rfl⟩
  refine Agree.bind (take_string_agree _ _ r₂) ?_
  rintro ⟨literal, r₃, _⟩ ⟨_, _, _⟩ ⟨hKind, rfl, rfl⟩
  dsimp only
  rw [value?_token hKind]
  cases StringLiteral.value? literal.literal with
  | none => exact .error trivial
  | some module =>
    refine Agree.bind (endOfStatement_alike _ r₃) ?_
    rintro ⟨_, r₄, _⟩ ⟨_, _, _⟩ ⟨_, rfl⟩
    exact .ok ⟨⟨literal.pos, rfl⟩, rfl⟩

theorem importDecls_agree (ts : List Token) :
    Agree (fun _ _ => True)
      (fun p p' : Parsed (List ImportDecl) _ =>
        List.Forall₂ (ImportRewritten ρ) p.value p'.value ∧ p'.rest = p.rest.map ρ.token)
      (importDecls ts) (importDecls (ts.map ρ.token)) := by
  rw [importDecls, importDecls]
  refine .ite (by simp) ?_ (.ok ⟨.nil, rfl⟩)
  refine Agree.bind (importDecl_agree ts) ?_
  rintro ⟨d, r, hr⟩ ⟨_, _, _⟩ ⟨hFirst, rfl⟩
  refine Agree.bind (importDecls_agree r) ?_
  rintro ⟨ds, r₁, _⟩ ⟨_, _, _⟩ ⟨hRest, rfl⟩
  exact .ok ⟨.cons hFirst hRest, rfl⟩
termination_by ts.length

theorem method_alike (name : Token) (ts : List Token) :
    Alike ρ (MethodDecl.rewritten ρ) (method name ts)
      (method name.unplaced (ts.map ρ.token)) := by
  refine .bind (take_alike (by simp) _ _ ts) fun _ r _ _ => ?_
  refine .bind (listUntil_alike (field_alike _) .rparen _ r) fun params r₁ _ _ => ?_
  refine .bind (typeAnnotation_alike r₁) fun returns r₂ _ _ => ?_
  exact .bind (block_alike _ r₂) fun body r₃ _ _ => .ok

def Member.rewritten (ρ : Rewriting) : Member → Member
  | .property p => .property (p.rewritten ρ)
  | .method m => .method (m.rewritten ρ)

theorem member_alike (ts : List Token) :
    Alike ρ (Member.rewritten ρ) (member ts) (member (ts.map ρ.token)) := by
  obtain ⟨_, r, _, _, hPublic, hPublic'⟩ := skip?_alike (.keyword .kwPublic) ts
  obtain ⟨isStatic, r₁, _, _, hStatic, hStatic'⟩ := skip?_alike (.keyword .kwStatic) r
  rw [member, member, hPublic, hPublic']
  dsimp only
  rw [hStatic, hStatic']
  refine .bind (take_alike (by simp) _ _ r₁) fun name r₂ _ _ => ?_
  refine .ite (by simp) ?_ (.ite (by simp) ?_ .fail)
  · refine .bind (take_alike (by simp) _ _ r₂) fun _ r₃ _ _ => ?_
    refine .bind (expression_alike r₃) fun value r₄ _ _ => ?_
    exact .bind (endOfStatement_alike _ r₄) fun _ r₅ _ _ => .ok
  · exact .ite .rfl .fail (.bind (method_alike name r₂) fun m r₃ _ _ => .ok)

theorem members_alike (ts : List Token) :
    Alike ρ (List.map (Member.rewritten ρ)) (members ts) (members (ts.map ρ.token)) := by
  match ts with
  | [] =>
    rw [List.map_nil, members]
    exact .fail
  | t :: r =>
    rw [List.map_cons, members, members, kind_token]
    split
    · exact .ok
    · split
      · exact .fail
      · split
        · exact .bind (members_alike r) fun ms r₁ _ _ => .ok
        · refine .bind (member_alike (t :: r)) fun m r₁ h₁ _ => ?_
          exact .bind (members_alike r₁) fun ms r₂ _ _ => .ok
termination_by ts.length
decreasing_by all_goals simp only [List.length_cons] at *; omega

theorem properties_rewritten (ms : List Member) :
    (ms.map (Member.rewritten ρ)).filterMap Member.property? =
      (ms.filterMap Member.property?).map (PropertyDecl.rewritten ρ) := by
  rw [List.filterMap_map, List.map_filterMap]
  congr 1
  funext m
  cases m <;> rfl

theorem methods_rewritten (ms : List Member) :
    (ms.map (Member.rewritten ρ)).filterMap Member.method? =
      (ms.filterMap Member.method?).map (MethodDecl.rewritten ρ) := by
  rw [List.filterMap_map, List.map_filterMap]
  congr 1
  funext m
  cases m <;> rfl

theorem classDecl_alike (isExported isDefault : Bool) (ts : List Token) :
    Alike ρ (ClassDecl.rewritten ρ) (classDecl isExported isDefault ts)
      (classDecl isExported isDefault (ts.map ρ.token)) := by
  refine .bind (take_alike (by simp) _ _ ts) fun word r _ _ => ?_
  refine .bind (take_alike (by simp) _ _ r) fun name r₁ _ _ => ?_
  refine .bind (take_alike (by simp) _ _ r₁) fun _ r₂ _ _ => ?_
  refine .bind (members_alike r₂) fun ms r₃ _ _ => ?_
  dsimp only
  rw [properties_rewritten, methods_rewritten]
  exact .ok

theorem endOfField_alike (name : Text) (ts : List Token) :
    Alike ρ id (endOfField name ts) (endOfField name (ts.map ρ.token)) := by
  refine .ite (by simp) (Agree.ok ⟨rfl, List.map_tail.symm⟩) ?_
  exact .ite (by simp) .ok .fail

theorem interfaceFields_alike (ts : List Token) :
    Alike ρ (List.map FieldDecl.unplaced) (interfaceFields ts)
      (interfaceFields (ts.map ρ.token)) := by
  rw [interfaceFields, interfaceFields]
  refine .ite (by simp) ?_ ?_
  · exact .bind (take_alike (by simp) _ _ ts) fun _ r _ _ => .ok
  · refine .bind (field_alike _ ts) fun f r hr _ => ?_
    refine .bind (endOfField_alike _ r) fun _ r₁ h₁ _ => ?_
    exact .bind (interfaceFields_alike r₁) fun fs r₂ _ _ => .ok
termination_by ts.length
decreasing_by omega

theorem baseInterface_alike (ts : List Token) :
    Alike ρ id (baseInterface ts) (baseInterface (ts.map ρ.token)) := by
  obtain ⟨present, r, _, _, hSkip, hSkip'⟩ := skip?_alike (.keyword .kwExtends) ts
  rw [baseInterface, baseInterface, hSkip, hSkip']
  dsimp only
  split
  · exact .bind (take_alike (by simp) _ _ r) fun base r₁ _ _ => .ok
  · exact .ok

theorem interfaceDecl_alike (isExported : Bool) (ts : List Token) :
    Alike ρ InterfaceDecl.unplaced (interfaceDecl isExported ts)
      (interfaceDecl isExported (ts.map ρ.token)) := by
  refine .bind (take_alike (by simp) _ _ ts) fun word r _ _ => ?_
  refine .bind (take_alike (by simp) _ _ r) fun name r₁ _ _ => ?_
  refine .bind (baseInterface_alike r₁) fun base r₂ _ _ => ?_
  refine .bind (take_alike (by simp) _ _ r₂) fun _ r₃ _ _ => ?_
  exact .bind (interfaceFields_alike r₃) fun fields r₄ _ _ => .ok

def Declaration.rewritten (ρ : Rewriting) : Declaration → Declaration
  | .cls c => .cls (c.rewritten ρ)
  | .interface i => .interface i.unplaced

theorem exportWords_alike (ts : List Token) :
    ∃ words r hr hr', exportWords ts = ⟨words, r, hr⟩ ∧
      exportWords (ts.map ρ.token) = ⟨words, r.map ρ.token, hr'⟩ := by
  obtain ⟨isExported, r, _, _, hExport, hExport'⟩ := skip?_alike (.keyword .kwExport) ts
  obtain ⟨isDefault, r₁, _, _, hDefault, hDefault'⟩ := skip?_alike (.keyword .kwDefault) r
  rw [exportWords, exportWords, hExport, hExport']
  dsimp only
  split
  · rw [hDefault, hDefault']
    exact ⟨(true, isDefault), r₁, by omega, by omega, rfl, rfl⟩
  · exact ⟨(false, false), r, by omega, by omega, rfl, rfl⟩

theorem declaration_alike (ts : List Token) :
    Alike ρ (Declaration.rewritten ρ) (declaration ts) (declaration (ts.map ρ.token)) := by
  obtain ⟨⟨isExported, isDefault⟩, r, _, _, hWords, hWords'⟩ := exportWords_alike ts
  rw [declaration, declaration, hWords, hWords']
  dsimp only
  rw [kind_current]
  split
  · exact .bind (classDecl_alike isExported isDefault r) fun c r₁ _ _ => .ok
  · split
    · exact .fail
    · exact .bind (interfaceDecl_alike isExported r) fun i r₁ _ _ => .ok
  · exact .fail
  · exact .fail

theorem declarations_alike (ts : List Token) :
    Agree (fun _ _ => True) (fun ds ds' => ds' = ds.map (Declaration.rewritten ρ)) (declarations ts)
      (declarations (ts.map ρ.token)) := by
  match ts with
  | [] =>
    rw [List.map_nil, declarations]
    exact .ok rfl
  | t :: r =>
    rw [List.map_cons, declarations, declarations, kind_token]
    split
    · exact .ok rfl
    · split
      · exact declarations_alike r
      · refine Agree.bind (declaration_alike (t :: r)) ?_
        rintro ⟨d, r₁, h₁⟩ ⟨_, _, _⟩ ⟨rfl, rfl⟩
        refine Agree.bind (declarations_alike r₁) ?_
        rintro ds _ rfl
        exact .ok rfl
termination_by ts.length
decreasing_by all_goals simp only [List.length_cons] at *; omega

theorem classes_rewritten (ds : List Declaration) :
    (ds.map (Declaration.rewritten ρ)).filterMap Declaration.class? =
      (ds.filterMap Declaration.class?).map (ClassDecl.rewritten ρ) := by
  rw [List.filterMap_map, List.map_filterMap]
  congr 1
  funext d
  cases d <;> rfl

theorem interfaces_rewritten (ds : List Declaration) :
    (ds.map (Declaration.rewritten ρ)).filterMap Declaration.interface? =
      (ds.filterMap Declaration.interface?).map InterfaceDecl.unplaced := by
  rw [List.filterMap_map, List.map_filterMap]
  congr 1
  funext d
  cases d <;> rfl

theorem file_agree (ts : List Token) :
    Agree (fun _ _ => True)
      (fun f f' => List.Forall₂ (ImportRewritten ρ) f.imports f'.imports ∧
        f'.classes = f.classes.map (ClassDecl.rewritten ρ) ∧
        f'.interfaces = f.interfaces.map InterfaceDecl.unplaced)
      (file ts) (file (ts.map ρ.token)) := by
  refine Agree.bind (importDecls_agree ts) ?_
  rintro ⟨imports, r, _⟩ ⟨_, _, _⟩ ⟨hImports, rfl⟩
  refine Agree.bind (declarations_alike r) ?_
  rintro ds _ rfl
  exact .ok ⟨hImports, classes_rewritten ds, interfaces_rewritten ds⟩

theorem file_alike (ts : List Token) :
    Agree (fun _ _ => True) (fun f f' => f' = f.unplaced) (file ts)
      (file (ts.map Token.unplaced)) := by
  rw [← token_none]
  refine (file_agree ts).mono (fun _ _ h => h) ?_
  rintro f ⟨imports, classes, interfaces⟩ ⟨hImports, rfl, rfl⟩
  have hImports : imports = f.imports.map ImportDecl.unplaced := by
    rw [← List.forall₂_eq_eq_eq, List.forall₂_map_right_iff]
    exact hImports.flip.imp fun d' d ⟨_, hSame⟩ => hSame
  rw [hImports, funext ClassDecl.rewritten_none]
  rfl

end AnchorScript.Syntax.Parser
