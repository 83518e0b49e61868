import AnchorScript.Proofs.Syntax.Reading

/-!
# Tokens that no reader passes over

A byte that begins no token, a string that nothing closes and the end of the input fit nowhere.
Readers stop in front of such a token or fail at it or before it, so a file that is read has none of
them before its end.
-/

namespace AnchorScript.Syntax.Parser

open Outcome

variable {α β : Type}

def blocks (t : Token) : Bool :=
  match t.kind with
  | .illegal | .endOfInput => true
  | .string => (StringLiteral.value? t.literal).isNone
  | _ => false

theorem blocks_punct {t : Token} {p : Punct} (h : t.kind = .punct p) : blocks t = false := by
  rw [blocks, h]

theorem blocks_keyword {t : Token} {k : Keyword} (h : t.kind = .keyword k) : blocks t = false := by
  rw [blocks, h]

theorem blocks_ident {t : Token} (h : t.kind = .ident) : blocks t = false := by
  rw [blocks, h]

/-- What is read of `ts` stands before the first token that blocks. -/
inductive Stays (ts : List Token) : Except Token (α × List Token) → Prop
  | read {a : α} {taken rest : List Token} (hTokens : ts = taken ++ rest)
      (hTaken : ∀ t ∈ taken, blocks t = false) : Stays ts (.ok (a, rest))
  | failed {taken rest : List Token} (hTokens : ts = taken ++ rest)
      (hTaken : ∀ t ∈ taken, blocks t = false) : Stays ts (.error (current rest))

namespace Stays

variable {ts : List Token} {t : Token} {r : List Token}

theorem here {a : α} : Stays ts (.ok (a, ts)) := .read (List.nil_append ts).symm (by simp)

theorem refused : Stays ts (.error (current ts) : Except Token (α × List Token)) :=
  .failed (List.nil_append ts).symm (by simp)

theorem cons {x : Except Token (α × List Token)} (ht : blocks t = false) (h : Stays r x) :
    Stays (t :: r) x := by
  cases h with
  | @read a taken rest hTokens hTaken =>
    have hCons : t :: r = (t :: taken) ++ rest := congrArg (t :: ·) hTokens
    exact .read hCons (List.forall_mem_cons.mpr ⟨ht, hTaken⟩)
  | @failed taken rest hTokens hTaken =>
    have hCons : t :: r = (t :: taken) ++ rest := congrArg (t :: ·) hTokens
    exact .failed hCons (List.forall_mem_cons.mpr ⟨ht, hTaken⟩)

theorem one {a : α} (ht : blocks t = false) : Stays (t :: r) (.ok (a, r)) := cons ht here

theorem append {taken : List Token} {x : Except Token (α × List Token)}
    (hTaken : ∀ t ∈ taken, blocks t = false) (h : Stays r x) : Stays (taken ++ r) x := by
  induction taken with
  | nil => exact h
  | cons t taken ih =>
    obtain ⟨ht, hRest⟩ := List.forall_mem_cons.mp hTaken
    exact cons ht (ih hRest)

theorem bind {x : Except Token (α × List Token)}
    {f : α × List Token → Except Token (β × List Token)} (h : Stays ts x)
    (hNext : ∀ a r, x = .ok (a, r) → Stays r (f (a, r))) : Stays ts (x >>= f) := by
  cases h with
  | read hTokens hTaken =>
    rw [hTokens]
    exact append hTaken (hNext _ _ rfl)
  | failed hTokens hTaken => exact .failed hTokens hTaken

theorem map {x : Except Token (α × List Token)} {f : α × List Token → β × List Token}
    (h : Stays ts x) (hRest : ∀ p, (f p).2 = p.2) : Stays ts (x >>= fun p => pure (f p)) := by
  refine bind h fun a r _ => ?_
  rw [show pure (f (a, r)) = Except.ok ((f (a, r)).1, (f (a, r)).2) from rfl, hRest]
  exact here

theorem ite {p : Prop} [Decidable p] {x y : Except Token (α × List Token)} (hx : p → Stays ts x)
    (hy : ¬p → Stays ts y) : Stays ts (if p then x else y) := by
  split
  · exact hx ‹_›
  · exact hy ‹_›

end Stays

/-- A reader that takes at least one token fails at a token that blocks. -/
theorem reading_of_blocks {t : Token} {r : List Token} {x : Reader α (t :: r).length}
    (h : Stays (t :: r) (reading x)) (ht : blocks t = true) : reading x = .error t := by
  generalize hx : reading x = y at h
  cases h with
  | @read a taken rest hTokens hTaken =>
    have hShorter := length_lt_of_reading hx
    cases taken with
    | nil =>
      subst hTokens
      omega
    | cons u taken =>
      cases hTokens
      rw [hTaken t (List.mem_cons_self ..)] at ht
      cases ht
  | @failed taken rest hTokens hTaken =>
    cases taken with
    | nil =>
      cases hTokens
      rfl
    | cons u taken =>
      cases hTokens
      rw [hTaken t (List.mem_cons_self ..)] at ht
      cases ht

theorem word_stays {accept : Token → Bool} (h : ∀ t, accept t = true → blocks t = false)
    (ts : List Token) : Stays ts (word accept ts) := by
  cases ts with
  | nil => exact .refused
  | cons t r =>
    exact .ite (fun hAccept => .one (h t hAccept)) fun _ => .refused

theorem punct_stays (p : Punct) (ts : List Token) : Stays ts (kind (.punct p) ts) :=
  word_stays (fun _ h => blocks_punct (of_decide_eq_true h)) ts

theorem ident_stays (ts : List Token) : Stays ts (kind .ident ts) :=
  word_stays (fun _ h => blocks_ident (of_decide_eq_true h)) ts

theorem keyword_stays (k : Keyword) (ts : List Token) : Stays ts (kind (.keyword k) ts) :=
  word_stays (fun _ h => blocks_keyword (of_decide_eq_true h)) ts

theorem name_stays (ts : List Token) : Stays ts (word Token.isName ts) := by
  refine word_stays (fun t h => ?_) ts
  unfold Token.isName at h
  split at h
  · exact blocks_ident ‹_›
  · exact blocks_keyword ‹_›
  · cases h

/-- Past a token that is known to stand in front. -/
theorem stays_tail {k : TokenKind} {ts : List Token} {x : Except Token (α × List Token)}
    (hk : ∀ t : Token, t.kind = k → blocks t = false) (h : atKind k ts = true)
    (hx : Stays ts.tail x) : Stays ts x := by
  cases ts with
  | nil => exact hx
  | cons t r => exact .cons (hk t (of_decide_eq_true h)) hx

theorem listUntil_stays {closing : Punct} {message : Text}
    {item : (ts : List Token) → Reader α ts.length} (ts : List Token)
    (hItem : ∀ r : List Token, r.length ≤ ts.length → Stays r (reading (item r))) :
    Stays ts (reading (listUntil closing message item ts)) := by
  rw [reading_listUntil]
  refine .ite (fun _ => .map (punct_stays closing ts) fun _ => rfl) fun _ => ?_
  refine .bind (hItem ts (Nat.le_refl _)) fun a r hRead => ?_
  have hShorter := length_lt_of_reading hRead
  refine .ite (fun hComma => ?_) fun _ => .map (punct_stays closing r) fun _ => rfl
  refine stays_tail (fun _ => blocks_punct) hComma ?_
  have hTail := List.length_tail (l := r)
  refine .map (listUntil_stays r.tail fun r' hr' => hItem r' (by omega)) fun _ => rfl
termination_by ts.length
decreasing_by omega

mutual

theorem exprAt_stays (min : Nat) (ts : List Token) : Stays ts (reading (exprAt min ts)) := by
  rw [reading_exprAt]
  refine .bind (operand_stays ts) fun left r hRead => ?_
  have hShorter := length_lt_of_reading hRead
  exact climb_stays min left r
termination_by 8 * ts.length + 6
decreasing_by all_goals omega

theorem climb_stays (min : Nat) (left : Expr) (ts : List Token) :
    Stays ts (reading (climb min left ts)) := by
  match ts with
  | [] =>
    rw [reading_climb_nil]
    exact .here
  | t :: r =>
    rw [reading_climb_cons]
    split
    · exact .here
    · rename_i i hInfix
      have ht : blocks t = false := by
        obtain ⟨hInfix, _⟩ := Option.filter_eq_some_iff.mp hInfix
        unfold Infix.ofKind? at hInfix
        split at hInfix
        case h_15 => cases hInfix
        all_goals exact blocks_punct ‹_›
      refine .cons ht (.bind (exprAt_stays i.rightLevel r) fun right r₁ hRead => ?_)
      have hShorter := length_lt_of_reading hRead
      exact climb_stays min _ r₁
termination_by 8 * ts.length
decreasing_by all_goals simp only [List.length_cons]; omega

theorem operand_stays (ts : List Token) : Stays ts (reading (operand ts)) := by
  match ts with
  | [] =>
    rw [reading_operand_nil]
    exact .refused
  | t :: r =>
    rw [reading_operand_cons]
    split
    · rename_i op hOp
      have ht : blocks t = false := by
        unfold unaryOp? at hOp
        split at hOp
        · exact blocks_punct ‹_›
        · exact blocks_punct ‹_›
        · cases hOp
      exact .cons ht (.map (operand_stays r) fun _ => rfl)
    · refine .bind (primary_stays t r) fun e r₁ hRead => ?_
      have hShorter := length_lt_of_reading hRead
      exact postfixes_stays e r₁
termination_by 8 * ts.length + 5
decreasing_by all_goals simp only [List.length_cons]; omega

theorem primary_stays (t : Token) (r : List Token) :
    Stays (t :: r) (reading (primary t r)) := by
  rw [reading_primary]
  have hFail : Stays (t :: r) (.error t : Except Token (Expr × List Token)) := .refused
  split
  · exact .one (blocks_ident ‹_›)
  · rename_i hKind
    exact .one (by rw [blocks, hKind])
  · rename_i hKind
    split
    · rename_i hValue
      exact .one (by rw [blocks, hKind, hValue]; rfl)
    · exact hFail
  · exact .one (blocks_keyword ‹_›)
  · exact .one (blocks_keyword ‹_›)
  · exact .cons (blocks_punct ‹_›) (.map (exprsUntil_stays .rbracket _ r) fun _ => rfl)
  · refine .cons (blocks_keyword ‹_›) (.bind (ident_stays r) fun name r₁ h₁ => ?_)
    refine .bind (punct_stays .lparen r₁) fun _ r₂ h₂ => ?_
    have hName := length_lt_of_word h₁
    have hOpening := length_lt_of_word h₂
    exact .map (exprsUntil_stays .rparen _ r₂) fun _ => rfl
  · refine .cons (blocks_punct ‹_›) (.bind (exprAt_stays anyLevel r) fun inner r₁ _ => ?_)
    exact .map (punct_stays .rparen r₁) fun _ => rfl
  · exact hFail
termination_by 8 * r.length + 8
decreasing_by all_goals omega

theorem postfixes_stays (left : Expr) (ts : List Token) :
    Stays ts (reading (postfixes left ts)) := by
  match ts with
  | [] =>
    rw [reading_postfixes_nil]
    exact .here
  | t :: r =>
    rw [reading_postfixes_cons]
    refine .ite (fun hDot => ?_) fun _ => .ite (fun hCall => ?_) fun _ => .ite (fun hIndex => ?_)
      fun _ => .here
    · refine .cons (blocks_punct hDot) (.bind (name_stays r) fun name r₁ hRead => ?_)
      have hShorter := length_lt_of_word hRead
      exact postfixes_stays _ r₁
    · have hKind : t.kind = .punct .lparen := by simp_all
      refine .cons (blocks_punct hKind) ?_
      refine .bind (exprsUntil_stays .rparen _ r) fun args r₁ hRead => ?_
      have hShorter := length_lt_of_reading hRead
      exact postfixes_stays _ r₁
    · have hKind : t.kind = .punct .lbracket := by simp_all
      refine .cons (blocks_punct hKind) ?_
      refine .bind (exprAt_stays anyLevel r) fun position r₁ hRead => ?_
      have hShorter := length_lt_of_reading hRead
      refine .bind (punct_stays .rbracket r₁) fun _ r₂ hClose => ?_
      have hClosed := length_lt_of_word hClose
      exact postfixes_stays _ r₂
termination_by 8 * ts.length
decreasing_by all_goals simp only [List.length_cons] at *; omega

theorem exprsUntil_stays (closing : Punct) (what : Text) (ts : List Token) :
    Stays ts (reading (exprsUntil closing what ts)) := by
  rw [reading_exprsUntil closing what []]
  exact listUntil_stays ts fun r hr => exprAt_stays anyLevel r
termination_by 8 * ts.length + 7
decreasing_by all_goals omega

end

theorem typeArg_stays (name : Text) (ts : List Token) : Stays ts (reading (typeArg name ts)) := by
  rw [reading_typeArg]
  refine .bind (word_stays (fun t h => ?_) ts) fun _ r _ => .map (punct_stays .gt r) fun _ => rfl
  simp only [isTypeArg, Bool.or_eq_true, decide_eq_true_eq] at h
  rcases h with hKind | hKind <;> rw [blocks, hKind]

theorem typeRef_stays (ts : List Token) : Stays ts (reading (typeRef ts)) := by
  rw [reading_typeRef]
  refine .bind (ident_stays ts) fun name r _ => .bind ?_ fun _ r₁ _ => ?_
  · refine .ite (fun hArg => ?_) fun _ => .here
    exact stays_tail (fun _ => blocks_punct) hArg (typeArg_stays _ _)
  · exact .ite (fun _ => .refused) fun _ => .here

theorem field_stays (what : Text) (ts : List Token) : Stays ts (reading (field what ts)) := by
  rw [reading_field]
  refine .bind (ident_stays ts) fun name r _ => .ite (fun _ => .refused) fun _ => ?_
  refine .bind (punct_stays .colon r) fun _ r₁ _ => ?_
  exact .map (typeRef_stays r₁) fun _ => rfl

theorem typeAnnotation_stays (ts : List Token) : Stays ts (reading ( typeAnnotation ts)) := by
  rw [ reading_typeAnnotation]
  refine .ite (fun hColon => ?_) fun _ => .here
  exact stays_tail (fun _ => blocks_punct) hColon (.map (typeRef_stays _) fun _ => rfl)

theorem endOfStatement_stays (what : Text) (ts : List Token) :
    Stays ts (reading (endOfStatement what ts)) := by
  rw [reading_endOfStatement]
  refine .ite (fun hSemicolon => ?_) fun _ => .ite (fun _ => .here) fun _ => .refused
  exact stays_tail (fun _ => blocks_punct) hSemicolon .here

theorem binding_stays (t : Token) (k : BindingKind) (ts : List Token) :
    Stays ts (reading (binding t k ts)) := by
  rw [reading_binding]
  refine .bind (ident_stays ts) fun _ r _ => ?_
  refine .bind (typeAnnotation_stays r) fun _ r₁ _ => ?_
  refine .bind (punct_stays .assign r₁) fun _ r₂ _ => ?_
  refine .bind (exprAt_stays anyLevel r₂) fun _ r₃ _ => ?_
  exact .map (endOfStatement_stays _ r₃) fun _ => rfl

theorem returned_stays (ts : List Token) : Stays ts (reading (returned ts)) := by
  rw [reading_returned]
  exact .ite (fun _ => .here) fun _ => .map (exprAt_stays anyLevel ts) fun _ => rfl

theorem statement_stays (t : Token) (r : List Token) :
    Stays (t :: r) (reading (statement t r)) := by
  rw [reading_statement]
  split
  · exact .cons (blocks_keyword ‹_›) (binding_stays t .const r)
  · exact .cons (blocks_keyword ‹_›) (binding_stays t .letting r)
  · refine .cons (blocks_keyword ‹_›) (.bind (returned_stays r) fun _ r₁ _ => ?_)
    exact .map (endOfStatement_stays _ r₁) fun _ => rfl
  · refine .bind (exprAt_stays anyLevel (t :: r)) fun _ r₁ _ => ?_
    exact .map (endOfStatement_stays _ r₁) fun _ => rfl

theorem statements_stays (what : Text) (ts : List Token) :
    Stays ts (reading (statements what ts)) := by
  match ts with
  | [] =>
    rw [reading_statements_nil]
    exact .refused
  | t :: r =>
    rw [reading_statements_cons]
    refine .ite (fun hClose => .one (blocks_punct hClose)) fun _ => .ite (fun _ => .refused)
      fun _ => .ite (fun hSemicolon => ?_) fun _ => ?_
    · exact .cons (blocks_punct hSemicolon) (statements_stays what r)
    · refine .bind (statement_stays t r) fun _ r₁ hRead => ?_
      have hShorter := length_lt_of_reading hRead
      exact .map (statements_stays what r₁) fun _ => rfl
termination_by ts.length
decreasing_by all_goals simp only [List.length_cons]; omega

theorem block_stays (what : Text) (ts : List Token) : Stays ts (reading (block what ts)) := by
  rw [reading_block]
  refine .bind (punct_stays .lbrace ts) fun _ r _ => ?_
  exact statements_stays what r

theorem importedNames_stays (ts : List Token) : Stays ts (reading (importedNames ts)) := by
  cases ts with
  | nil => exact .refused
  | cons t r =>
    rw [reading_importedNames_cons]
    split
    · refine .cons (blocks_punct ‹_›) (.map (listUntil_stays r fun r' _ => ?_) fun _ => rfl)
      rw [takeIdent, reading_take]
      exact ident_stays r'
    · exact .one (blocks_ident ‹_›)
    · exact .refused

theorem modulePath_stays (ts : List Token) : Stays ts (modulePath ts) := by
  cases ts with
  | nil => exact .refused
  | cons t r =>
    rw [modulePath_cons]
    refine .ite (fun hKind => ?_) fun _ => .refused
    cases hValue : StringLiteral.value? t.literal with
    | none => exact .refused
    | some module => exact .one (by rw [blocks, hKind, hValue]; rfl)

theorem importDecl_stays (ts : List Token) : Stays ts (reading (importDecl ts)) := by
  rw [reading_importDecl]
  refine .bind (keyword_stays .kwImport ts) fun _ r _ => ?_
  refine .bind (importedNames_stays r) fun _ r₁ _ => ?_
  refine .bind (word_stays (fun t h => ?_) r₁) fun _ r₂ _ => ?_
  · simp only [isFrom, Bool.and_eq_true, decide_eq_true_eq] at h
    exact blocks_ident h.1
  · refine .bind (modulePath_stays r₂) fun _ r₃ _ => ?_
    exact .map (endOfStatement_stays _ r₃) fun _ => rfl

theorem importDecls_stays (ts : List Token) : Stays ts (reading (importDecls ts)) := by
  rw [reading_importDecls]
  refine .ite (fun _ => .bind (importDecl_stays ts) fun _ r hRead => ?_) fun _ => .here
  have hShorter := length_lt_of_reading hRead
  exact .map (importDecls_stays r) fun _ => rfl
termination_by ts.length

theorem method_stays (name : Token) (ts : List Token) : Stays ts (reading (method name ts)) := by
  rw [reading_method]
  refine .bind (punct_stays .lparen ts) fun _ r _ => ?_
  refine .bind (listUntil_stays r fun r' _ => field_stays _ r') fun _ r₁ _ => ?_
  refine .bind (typeAnnotation_stays r₁) fun _ r₂ _ => ?_
  exact .map (block_stays _ r₂) fun _ => rfl

theorem memberBody_stays {name : Token} (hName : name.kind = .ident) (isStatic : Bool)
    (ts : List Token) : Stays (name :: ts) (memberBody isStatic name ts) := by
  refine .ite (fun _ => .cons (blocks_ident hName) ?_) fun _ => .ite (fun _ => ?_) fun _ => ?_
  · refine .bind (punct_stays .assign ts) fun _ r _ => ?_
    refine .bind (exprAt_stays anyLevel r) fun _ r₁ _ => ?_
    exact .map (endOfStatement_stays _ r₁) fun _ => rfl
  · refine .ite (fun _ => .refused) fun _ => .cons (blocks_ident hName) ?_
    exact .map (method_stays name ts) fun _ => rfl
  · exact .cons (blocks_ident hName) .refused

/-- A word that may stand in front is passed over or not there. -/
theorem skipped_stays {k : Keyword} {ts : List Token} {x : Except Token (α × List Token)}
    (h : Stays (skipped (.keyword k) ts).2 x) : Stays ts x := by
  unfold skipped at h
  cases hAt : atKind (.keyword k) ts with
  | true =>
    rw [skip?_of_at hAt] at h
    exact stays_tail (fun _ => blocks_keyword) hAt h
  | false =>
    rw [skip?_of_not_at hAt] at h
    exact h

theorem member_stays (ts : List Token) : Stays ts (reading (member ts)) := by
  rw [reading_member]
  refine skipped_stays (k := .kwPublic) (skipped_stays (k := .kwStatic) ?_)
  dsimp only
  generalize (skipped (.keyword .kwStatic) (skipped (.keyword .kwPublic) ts).2).2 = r
  generalize (skipped (.keyword .kwStatic) (skipped (.keyword .kwPublic) ts).2).1 = isStatic
  cases r with
  | nil => exact .refused
  | cons name r₁ =>
    rw [kind, word]
    split
    · rename_i hName
      exact memberBody_stays (of_decide_eq_true hName) isStatic r₁
    · exact .refused

theorem members_stays (ts : List Token) : Stays ts (reading (members ts)) := by
  match ts with
  | [] =>
    rw [reading_members_nil]
    exact .refused
  | t :: r =>
    rw [reading_members_cons]
    refine .ite (fun hClose => .one (blocks_punct hClose)) fun _ => .ite (fun _ => .refused)
      fun _ => .ite (fun hSemicolon => ?_) fun _ => ?_
    · exact .cons (blocks_punct hSemicolon) (members_stays r)
    · refine .bind (member_stays (t :: r)) fun _ r₁ hRead => ?_
      have hShorter := length_lt_of_reading hRead
      exact .map (members_stays r₁) fun _ => rfl
termination_by ts.length
decreasing_by all_goals simp only [List.length_cons] at *; omega

theorem classDecl_stays (isExported isDefault : Bool) (ts : List Token) :
    Stays ts (reading (classDecl isExported isDefault ts)) := by
  rw [reading_classDecl]
  refine .bind (keyword_stays .kwClass ts) fun _ r _ => ?_
  refine .bind (ident_stays r) fun _ r₁ _ => ?_
  refine .bind (punct_stays .lbrace r₁) fun _ r₂ _ => ?_
  exact .map (members_stays r₂) fun _ => rfl

theorem endOfField_stays (name : Text) (ts : List Token) :
    Stays ts (reading (endOfField name ts)) := by
  rw [reading_endOfField]
  refine .ite (fun hEnd => ?_) fun _ => .ite (fun _ => .here) fun _ => .refused
  rcases (Bool.or_eq_true ..).mp hEnd with hAt | hAt
  · exact stays_tail (fun _ => blocks_punct) hAt .here
  · exact stays_tail (fun _ => blocks_punct) hAt .here

theorem interfaceFields_stays (ts : List Token) : Stays ts (reading (interfaceFields ts)) := by
  rw [reading_interfaceFields]
  refine .ite (fun _ => .map (punct_stays .rbrace ts) fun _ => rfl) fun _ => ?_
  refine .bind (field_stays _ ts) fun f r hField => .bind (endOfField_stays _ r) fun _ r₁ hEnd => ?_
  have hShorter := length_lt_of_reading hField
  have hNoLonger := length_lt_of_reading hEnd
  exact .map (interfaceFields_stays r₁) fun _ => rfl
termination_by ts.length
decreasing_by omega

theorem baseInterface_stays (ts : List Token) : Stays ts (reading (baseInterface ts)) := by
  rw [reading_baseInterface]
  refine .ite (fun hExtends => ?_) fun _ => .here
  exact stays_tail (fun _ => blocks_keyword) hExtends (.map (ident_stays _) fun _ => rfl)

theorem interfaceDecl_stays (isExported : Bool) (ts : List Token) :
    Stays ts (reading (interfaceDecl isExported ts)) := by
  rw [reading_interfaceDecl]
  refine .bind (keyword_stays .kwInterface ts) fun _ r _ => ?_
  refine .bind (ident_stays r) fun _ r₁ _ => ?_
  refine .bind (baseInterface_stays r₁) fun _ r₂ _ => ?_
  refine .bind (punct_stays .lbrace r₂) fun _ r₃ _ => ?_
  exact .map (interfaceFields_stays r₃) fun _ => rfl

theorem declared_stays (isExported isDefault : Bool) (ts : List Token) :
    Stays ts (declared isExported isDefault ts) := by
  unfold declared
  split
  · exact .map (classDecl_stays _ _ ts) fun _ => rfl
  · exact .ite (fun _ => .refused) fun _ => .map (interfaceDecl_stays _ ts) fun _ => rfl
  · exact .refused

theorem exportedAs_stays {ts : List Token} {x : Except Token (α × List Token)}
    (h : Stays (exportedAs ts).2 x) : Stays ts x := by
  rw [exportedAs_eq] at h
  split at h
  · rename_i hExport
    exact stays_tail (fun _ => blocks_keyword) hExport (skipped_stays h)
  · exact h

theorem declaration_stays (ts : List Token) : Stays ts (reading (declaration ts)) := by
  rw [reading_declaration]
  exact exportedAs_stays (declared_stays _ _ _)

/-- A file is read through its end, and a fault stands no later than the first token that blocks. -/
inductive FileStays (ts : List Token) : Except Token α → Prop
  | read {a : α} {taken rest : List Token} (hTokens : ts = taken ++ rest)
      (hTaken : ∀ t ∈ taken, blocks t = false) (hStop : (current rest).kind = .endOfInput) :
      FileStays ts (.ok a)
  | failed {taken rest : List Token} (hTokens : ts = taken ++ rest)
      (hTaken : ∀ t ∈ taken, blocks t = false) : FileStays ts (.error (current rest))

theorem Stays.file {ts : List Token} {x : Except Token (α × List Token)}
    {f : α × List Token → Except Token β} (h : Stays ts x)
    (hNext : ∀ a r, x = .ok (a, r) → FileStays r (f (a, r))) : FileStays ts (x >>= f) := by
  cases h with
  | @read a taken rest hTokens hTaken =>
    have hRest := hNext a rest rfl
    show FileStays ts (f (a, rest))
    generalize f (a, rest) = y at hRest
    cases hRest with
    | read hTokens' hTaken' hStop =>
      rw [hTokens', ← List.append_assoc] at hTokens
      exact .read hTokens (List.forall_mem_append.mpr ⟨hTaken, hTaken'⟩) hStop
    | failed hTokens' hTaken' =>
      rw [hTokens', ← List.append_assoc] at hTokens
      exact .failed hTokens (List.forall_mem_append.mpr ⟨hTaken, hTaken'⟩)
  | failed hTokens hTaken => exact .failed hTokens hTaken

theorem FileStays.map {ts : List Token} {x : Except Token α} {f : α → β} (h : FileStays ts x) :
    FileStays ts (x >>= fun a => pure (f a)) := by
  cases h with
  | read hTokens hTaken hStop => exact .read hTokens hTaken hStop
  | failed hTokens hTaken => exact .failed hTokens hTaken

theorem declarations_stays (ts : List Token) : FileStays ts (located (declarations ts)) := by
  match ts with
  | [] =>
    rw [located_declarations_nil]
    exact .read (List.nil_append []).symm (by simp) rfl
  | t :: r =>
    rw [located_declarations_cons]
    split
    · exact .read (List.nil_append _).symm (by simp) ‹_›
    · split
      · have hFirst : Stays (t :: r) (.ok ((), r)) := .one (blocks_punct ‹_›)
        refine hFirst.file (f := fun p => located (declarations p.2)) fun _ _ hSame => ?_
        cases hSame
        exact declarations_stays r
      · refine (declaration_stays (t :: r)).file fun d r₁ hRead => ?_
        have hShorter := length_lt_of_reading hRead
        exact (declarations_stays r₁).map
termination_by ts.length
decreasing_by all_goals simp only [List.length_cons] at *; omega

theorem file_stays (ts : List Token) : FileStays ts (located (file ts)) := by
  rw [located_file]
  exact (importDecls_stays ts).file fun _ r _ => (declarations_stays r).map

end AnchorScript.Syntax.Parser
