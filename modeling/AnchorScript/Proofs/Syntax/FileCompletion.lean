import AnchorScript.Proofs.Syntax.Completion

/-!
# Completing files

Types, statements and declarations can be completed wherever they were cut off, and so can files: a
file that fails where its tokens end is the beginning of one that is read.
-/

namespace AnchorScript.Syntax.Parser

variable {α β : Type} {pre : List Token} {stop : Token} {rest : List Token}
  {F G : TokenKind → Bool} {ws : List Word} {read : List Token → Except Token (α × List Token)}

/-- A part that may be missing: its first token decides whether it is there. -/
theorem completable_optional {a : α} (h : ∀ ts, Meets F ts → read ts = .ok (a, ts))
    (hStop : read (stop :: rest) = .ok (a, stop :: rest))
    (hCut : ∀ t pre, CutAt (stop :: rest) F read (t :: pre)) :
    Completable (stop :: rest) F [] read where
  toFillable := .optional h
  cut pre := by
    cases pre with
    | nil => exact .read (List.suffix_refl []) hStop fun tail hTail => h tail (hTail rfl)
    | cons t pre => exact hCut t pre

/-- No type goes on with a token of this kind, and none begins behind a name. -/
def typeEnd (k : TokenKind) : Bool :=
  k ≠ .punct .lt && k ≠ .punct .lbracket && k ≠ .punct .colon

theorem Meets.not_atPunct {ts : List Token} {p : Punct} (h : Meets F ts)
    (hF : F (.punct p) = false) : atPunct p ts = false := by
  refine decide_eq_false fun hKind => ?_
  rw [Meets, hKind, hF] at h
  cases h

theorem Halts.not_atPunct (hStop : Halts stop) (p : Punct) (ts : List Token) :
    atPunct p (stop :: ts) = false :=
  decide_eq_false (hStop.kind_ne_punct p)

theorem completable_typeArg (hStop : Halts stop) (name : Text) :
    Completable (stop :: rest) anyKind [Word.someName, .punct .gt] fun ts =>
      reading (typeArg name ts) := by
  simp only [reading_typeArg]
  refine .bind (completable_word (w := Word.someName) (fun t ht => ?_) ?_) (fun arg =>
    (completable_punct hStop .gt).map fun _ => some arg.literal) rfl
  · have hKind : t.kind = .ident := ht.1
    simp [isTypeArg, hKind]
  · rcases hStop with hKind | hKind <;> simp [isTypeArg, hKind]

theorem completable_typeArg? (hStop : Halts stop) (name : Text) :
    Completable (stop :: rest) typeEnd [] ( typeArg? name) := by
  have hNone : ∀ ts, atPunct .lt ts = false → typeArg? name ts = .ok (none, ts) := by
    intro ts h
    rw [ typeArg?, h]
    rfl
  refine completable_optional (fun ts hts => hNone ts (hts.not_atPunct rfl))
    (hNone _ (hStop.not_atPunct .lt rest)) fun t pre => ?_
  by_cases hKind : t.kind = .punct .lt
  · have hArg : Completable (stop :: rest) typeEnd _ fun ts => reading (typeArg name ts) :=
      (completable_typeArg hStop name).mono fun _ _ => rfl
    refine (hArg.cut pre).step fun r => ?_
    exact if_pos (decide_eq_true hKind)
  · exact (Cut.done none (t :: pre)).choose fun r => hNone (t :: r) (decide_eq_false hKind)

theorem completable_typeRef (hStop : Halts stop) :
    Completable (stop :: rest) typeEnd [Word.someName] fun ts => reading (typeRef ts) := by
  simp only [reading_typeRef]
  refine .bind (completable_ident hStop) (fun name => ?_) fun _ _ => rfl
  dsimp only
  refine .bind (completable_typeArg? hStop name.literal) (fun arg => ?_) fun _ h => h
  have hNone : ∀ ts, atPunct .lbracket ts = false →
      (if atPunct .lbracket ts then .error (current ts)
        else .ok (⟨name.literal, arg, name.pos⟩, ts) : Except Token (TypeRef × List Token)) =
      .ok (⟨name.literal, arg, name.pos⟩, ts) := by
    intro ts h
    rw [h]
    rfl
  refine completable_optional (fun ts hts => hNone ts (hts.not_atPunct rfl))
    (hNone _ (hStop.not_atPunct .lbracket rest)) fun t pre => ?_
  by_cases hKind : t.kind = .punct .lbracket
  · exact .refuse fun r => if_pos (decide_eq_true hKind)
  · exact (Cut.done _ (t :: pre)).choose fun r => hNone (t :: r) (decide_eq_false hKind)

/-- A token that must not follow. -/
theorem completable_guarded {p : Punct} {w : Word} (hStop : Halts stop) (hw : w.kind ≠ .punct p)
    (h : Completable (stop :: rest) F (w :: ws) read) :
    Completable (stop :: rest) F (w :: ws) fun r =>
      if atPunct p r then .error (current r) else read r := by
  have hNone : ∀ ts, atPunct p ts = false →
      (if atPunct p ts then .error (current ts) else read ts) = read ts :=
    fun ts h => if_neg (by simp [h])
  have hFillable : Fillable (stop :: rest) F (w :: ws) fun r =>
      if atPunct p r then .error (current r) else read r := by
    refine ⟨fun ts tail hSpell hTail => ?_, fun _ => ?_⟩
    · obtain ⟨a, ha⟩ := h.fill ts tail hSpell hTail
      refine ⟨a, (hNone _ ?_).trans ha⟩
      cases hSpell with
      | cons ht _ => exact decide_eq_false (ht.1 ▸ hw)
    · exact (hNone _ (hStop.not_atPunct p rest)).trans (h.strict (List.cons_ne_nil w ws))
  refine ⟨hFillable, fun pre => ?_⟩
  cases pre with
  | nil => exact hFillable.cut_nil
  | cons t pre =>
    by_cases hKind : t.kind = .punct p
    · exact .refuse fun r => if_pos (decide_eq_true hKind)
    · exact (h.cut (t :: pre)).choose fun r => hNone (t :: r) (decide_eq_false hKind)

theorem completable_field (hStop : Halts stop) (what : Text) :
    Completable (stop :: rest) typeEnd [Word.someName, .punct .colon, Word.someName] fun ts =>
      reading (field what ts) := by
  simp only [reading_field]
  refine .bind (completable_ident hStop) (fun name => ?_) rfl
  refine completable_guarded hStop (by simp [Word.punct]) ?_
  dsimp only
  refine .bind (completable_punct hStop .colon) (fun _ => ?_) rfl
  exact (completable_typeRef hStop).map fun type => FieldDecl.mk name.literal type name.pos

theorem completable_typeAnnotation (hStop : Halts stop) :
    Completable (stop :: rest) typeEnd [] fun ts => reading ( typeAnnotation ts) := by
  have hNone : ∀ ts, atPunct .colon ts = false → reading ( typeAnnotation ts) = .ok (none, ts) := by
    intro ts h
    rw [ reading_typeAnnotation, h]
    rfl
  refine completable_optional (fun ts hts => hNone ts (hts.not_atPunct rfl))
    (hNone _ (hStop.not_atPunct .colon rest)) fun t pre => ?_
  by_cases hKind : t.kind = .punct .colon
  · refine (((completable_typeRef hStop).map some).cut pre).step fun r => ?_
    rw [ reading_typeAnnotation, atPunct_cons, decide_eq_true hKind]
    rfl
  · exact (Cut.done none (t :: pre)).choose fun r => hNone (t :: r) (decide_eq_false hKind)

/-- A closing brace or the end of the input ends a statement. -/
def statementEnd (k : TokenKind) : Bool := k = .punct .rbrace || k = .endOfInput

def braceEnd (k : TokenKind) : Bool := k = .punct .rbrace

theorem quiet_of_statementEnd (k : TokenKind) (h : statementEnd k = true) : quiet k = true := by
  simp only [statementEnd, Bool.or_eq_true, decide_eq_true_eq] at h
  rcases h with rfl | rfl <;> rfl

theorem statementEnd_of_braceEnd (k : TokenKind) (h : braceEnd k = true) :
    statementEnd k = true := by
  rw [statementEnd, show decide (k = .punct .rbrace) = true from h, Bool.true_or]

theorem completable_endOfStatement (hStop : Halts stop) (what : Text) :
    Completable (stop :: rest) statementEnd [] fun ts => reading (endOfStatement what ts) := by
  have hEnd : ∀ ts, Meets statementEnd ts → reading (endOfStatement what ts) = .ok (⟨⟩, ts) := by
    intro ts hts
    have hSemicolon := hts.not_atPunct (p := .semicolon) rfl
    have hClose : (atPunct .rbrace ts || atKind .endOfInput ts) = true := hts
    rw [reading_endOfStatement, hSemicolon, hClose]
    rfl
  have hOpen : ∀ t r, t.kind ≠ .punct .semicolon →
      reading (endOfStatement what (t :: r)) =
        if t.kind = .punct .rbrace || t.kind = .endOfInput || t.newlineBefore then
          .ok (⟨⟩, t :: r)
        else .error t := by
    intro t r h
    rw [reading_endOfStatement, atPunct_cons, decide_eq_false h]
    rfl
  refine ⟨.optional hEnd, fun pre => ?_⟩
  cases pre with
  | nil =>
    have hRead := hOpen stop rest (hStop.kind_ne_punct .semicolon)
    split at hRead
    · exact .read (List.suffix_refl []) hRead fun tail hTail => hEnd tail (hTail rfl)
    · exact .starved hRead (.optional hEnd)
  | cons t pre =>
    by_cases hKind : t.kind = .punct .semicolon
    · refine (Cut.done ⟨⟩ pre).step fun r => ?_
      rw [reading_endOfStatement, atPunct_cons, decide_eq_true hKind]
      rfl
    · simp only [CutAt, List.cons_append, hOpen t _ hKind]
      generalize (decide (t.kind = .punct .rbrace) || decide (t.kind = .endOfInput) ||
        t.newlineBefore) = ends
      cases ends with
      | true => exact Cut.done PUnit.unit (t :: pre)
      | false => exact .refused (List.mem_cons_self ..) rfl fun _ => rfl

theorem completable_binding (hStop : Halts stop) (t : Token) (k : BindingKind) :
    Completable (stop :: rest) statementEnd [Word.someName, .punct .assign, Word.someName]
      fun ts => reading (binding t k ts) := by
  simp only [reading_binding]
  refine .bind (completable_ident hStop) (fun name => ?_) rfl
  dsimp only
  refine .bind ( completable_typeAnnotation hStop) (fun type => ?_) rfl
  dsimp only
  refine .bind (completable_punct hStop .assign) (fun _ => ?_) rfl
  dsimp only
  refine .bind (completable_expression hStop) (fun value => ?_) quiet_of_statementEnd
  exact (completable_endOfStatement hStop _).map fun _ =>
    Statement.binding t.pos k name.literal type value

theorem completable_returned (hStop : Halts stop) :
    Completable (stop :: rest) braceEnd [] fun ts => reading (returned ts) := by
  have hEnd : ∀ ts, Meets braceEnd ts → reading (returned ts) = .ok (none, ts) := by
    intro ts hts
    have hClose : atPunct .rbrace ts = true := hts
    rw [reading_returned, hClose, Bool.or_true, Bool.true_or]
    rfl
  have hExpr : Completable (stop :: rest) braceEnd [Word.someName] fun ts =>
      reading (expression ts) >>= fun p => pure (some p.1, p.2) :=
    ((completable_expression hStop).map some).mono fun k hk =>
      quiet_of_statementEnd k (statementEnd_of_braceEnd k hk)
  have hSplit : ∀ t r, reading (returned (t :: r)) =
      if t.kind = .punct .semicolon || t.kind = .punct .rbrace || t.newlineBefore then
        .ok (none, t :: r)
      else reading (expression (t :: r)) >>= fun p => pure (some p.1, p.2) :=
    fun t r => reading_returned (t :: r)
  refine ⟨.optional hEnd, fun pre => ?_⟩
  cases pre with
  | nil =>
    have hRead := hSplit stop rest
    split at hRead
    · exact .read (List.suffix_refl []) hRead fun tail hTail => hEnd tail (hTail rfl)
    · exact .starved (hRead.trans (hExpr.strict (List.cons_ne_nil _ _))) (.optional hEnd)
  | cons t pre =>
    have hCut := hExpr.cut (t :: pre)
    simp only [CutAt, List.cons_append, hSplit] at hCut ⊢
    generalize (decide (t.kind = .punct .semicolon) || decide (t.kind = .punct .rbrace) ||
      t.newlineBefore) = ends
    cases ends with
    | true => exact Cut.done none (t :: pre)
    | false => exact hCut

theorem completable_return (hStop : Halts stop) (t : Token) :
    Completable (stop :: rest) braceEnd [] fun r => (do
      let (value, r) ← reading (returned r)
      let (_, r) ← reading (endOfStatement "return statement" r)
      return (Statement.ret t.pos value, r)) := by
  refine .bind (completable_returned hStop) (fun value => ?_) fun _ h => h
  exact ((completable_endOfStatement hStop _).mono statementEnd_of_braceEnd).map fun _ =>
    Statement.ret t.pos value

theorem completable_exprStatement (hStop : Halts stop) (t : Token) :
    Completable (stop :: rest) braceEnd [Word.someName] fun ts => (do
      let (value, r) ← reading (expression ts)
      let (_, r) ← reading (endOfStatement "expression statement" r)
      return (Statement.expr t.pos value, r)) := by
  refine .bind (completable_expression hStop) (fun value => ?_) fun k hk =>
    quiet_of_statementEnd k (statementEnd_of_braceEnd k hk)
  exact ((completable_endOfStatement hStop _).mono statementEnd_of_braceEnd).map fun _ =>
    Statement.expr t.pos value

theorem cut_statement (hStop : Halts stop) (t : Token) (pre : List Token) :
    Cut (t :: pre) (stop :: rest) braceEnd (reading (statement t (pre ++ stop :: rest))) fun tail =>
      reading (statement t (pre ++ tail)) := by
  have hBinding : ∀ k, CutAt (stop :: rest) braceEnd (fun ts => reading (binding t k ts)) pre :=
    fun k => ((completable_binding hStop t k).mono statementEnd_of_braceEnd).cut pre
  simp only [reading_statement]
  generalize t.kind = k
  split
  · exact .cons (hBinding .const)
  · exact .cons (hBinding .letting)
  · exact .cons ((completable_return hStop t).cut pre)
  · exact (completable_exprStatement hStop t).cut (t :: pre)

theorem fills_statements (what : Text) :
    Fills [.punct .rbrace] F fun ts => reading (statements what ts) := by
  intro ts tail hSpell _
  cases hSpell with
  | cons ht hRest =>
    cases hRest
    refine ⟨[], ?_⟩
    exact (reading_statements_cons ..).trans (if_pos ht.1)

theorem cut_statements (hStop : Halts stop) (what : Text) (pre : List Token) :
    CutAt (stop :: rest) anyKind (fun ts => reading (statements what ts)) pre := by
  have hFill : Fillable (stop :: rest) anyKind [.punct .rbrace] fun ts =>
      reading (statements what ts) :=
    fillable_reader hStop (statements_stays what) (fills_statements what)
  cases pre with
  | nil => exact hFill.cut_nil
  | cons t pre =>
    simp only [CutAt, List.cons_append, reading_statements_cons]
    split
    · exact .cons (.done [] pre)
    · split
      · exact .refused (List.mem_cons_self ..) rfl fun _ => rfl
      · split
        · exact .cons (cut_statements hStop what pre)
        · refine .bind (cut_statement hStop t pre) (fun s post _ hRead => ?_)
            (fun s => hFill.map (s :: ·)) rfl
          have hShorter := length_le_of_cut hRead
          exact (cut_statements hStop what post).map (s :: ·)
termination_by pre.length
decreasing_by all_goals simp only [List.length_cons]; omega

theorem completable_block (hStop : Halts stop) (what : Text) :
    Completable (stop :: rest) anyKind [.punct .lbrace, .punct .rbrace] fun ts =>
      reading (block what ts) := by
  simp only [reading_block]
  refine .bind (completable_punct hStop .lbrace) (fun _ => ?_) rfl
  exact ⟨fillable_reader hStop (statements_stays what) (fills_statements what),
    cut_statements hStop what⟩

namespace Word

def fromWord : Word := .ident "from" ⟨102, "rom", rfl, rfl, List.all_eq_true.mp rfl⟩ (by decide)

def importWord : Word :=
  .keyword .kwImport "import" ⟨105, "mport", rfl, rfl, List.all_eq_true.mp rfl⟩ (by decide)

def classWord : Word :=
  .keyword .kwClass "class" ⟨99, "lass", rfl, rfl, List.all_eq_true.mp rfl⟩ (by decide)

def interfaceWord : Word :=
  .keyword .kwInterface "interface" ⟨105, "nterface", rfl, rfl, List.all_eq_true.mp rfl⟩ (by decide)

def emptyString : Word := ⟨.string, Text.quoted [], fun _ => Lexer.scans_quoted (by simp) _⟩

end Word

theorem completable_keyword {w : Word} {k : Keyword} (hStop : Halts stop)
    (hw : w.kind = .keyword k) :
    Completable (stop :: rest) anyKind [w] (kind (.keyword k)) :=
  completable_word (fun _ ht => decide_eq_true (ht.1.trans hw))
    (decide_eq_false (hStop.kind_ne_keyword k))

theorem completable_importedNames (hStop : Halts stop) :
    Completable (stop :: rest) anyKind [Word.someName] fun ts => reading (importedNames ts) := by
  have hFill : Fillable (stop :: rest) anyKind [Word.someName] fun ts =>
      reading (importedNames ts) := by
    refine fillable_reader hStop importedNames_stays fun ts tail hSpell _ => ?_
    cases hSpell with
    | @cons t _ _ _ ht hRest =>
      cases hRest
      have hKind : t.kind = .ident := ht.1
      refine ⟨[t.literal], (reading_importedNames_cons t tail).trans ?_⟩
      rw [hKind]
  refine ⟨hFill, fun pre => ?_⟩
  cases pre with
  | nil => exact hFill.cut_nil
  | cons t pre =>
    simp only [CutAt, List.cons_append, reading_importedNames_cons]
    generalize t.kind = k
    split
    · refine .cons (.map (cut_listUntil _ hStop (by simp) rfl (fun ts => ?_) pre fun p _ => ?_) _)
      · rw [takeIdent, reading_take]
        exact ident_stays ts
      · simp only [takeIdent, reading_take]
        exact (completable_ident hStop).cut p
    · exact .cons (.done _ pre)
    · exact .refused (List.mem_cons_self ..) rfl fun _ => rfl

theorem completable_modulePath (hStop : Halts stop) :
    Completable (stop :: rest) anyKind [Word.emptyString] modulePath := by
  have hFill : Fillable (stop :: rest) anyKind [Word.emptyString] modulePath := by
    refine ⟨fun ts tail hSpell _ => ?_, fun _ => ?_⟩
    · cases hSpell with
      | @cons t _ _ _ ht hRest =>
        cases hRest
        have hValue : StringLiteral.value? t.literal = some [] :=
          (congrArg StringLiteral.value? ht.2).trans (Lexer.value?_quoted (by simp))
        refine ⟨[], (modulePath_cons t tail).trans ((if_pos ht.1).trans ?_)⟩
        rw [hValue]
    · rw [modulePath_cons, if_neg]
      · rfl
      · rcases hStop with hKind | hKind <;> simp [hKind]
  refine ⟨hFill, fun pre => ?_⟩
  cases pre with
  | nil => exact hFill.cut_nil
  | cons t pre =>
    simp only [CutAt, List.cons_append, modulePath_cons]
    split
    · cases StringLiteral.value? t.literal with
      | none => exact .refused (List.mem_cons_self ..) rfl fun _ => rfl
      | some module => exact .cons (.done module pre)
    · exact .refused (List.mem_cons_self ..) rfl fun _ => rfl

theorem completable_importDecl (hStop : Halts stop) :
    Completable (stop :: rest) statementEnd
      [Word.importWord, Word.someName, Word.fromWord, Word.emptyString] fun ts =>
      reading (importDecl ts) := by
  simp only [reading_importDecl]
  refine .bind (completable_keyword hStop rfl) (fun t => ?_) rfl
  dsimp only
  refine .bind (completable_importedNames hStop) (fun names => ?_) rfl
  dsimp only
  refine .bind (completable_word (w := Word.fromWord) (fun u hu => ?_) ?_) (fun _ => ?_) rfl
  · have hKind : u.kind = .ident := hu.1
    have hText : u.literal = "from" := hu.2
    simp [isFrom, hKind, hText]
  · rcases hStop with hKind | hKind <;> simp [isFrom, hKind]
  · dsimp only
    refine .bind (completable_modulePath hStop) (fun module => ?_) fun _ _ => rfl
    exact (completable_endOfStatement hStop _).map fun _ => ImportDecl.mk names module t.pos

theorem importDecls_of_not_at {ts : List Token} (h : atKeyword .kwImport ts = false) :
    reading (importDecls ts) = .ok ([], ts) := by
  rw [reading_importDecls, h]
  rfl

theorem importDecls_of_end (ts : List Token) (h : Meets statementEnd ts) :
    reading (importDecls ts) = .ok ([], ts) := by
  refine importDecls_of_not_at (decide_eq_false fun hKind => ?_)
  rw [Meets, hKind] at h
  cases h

/-- Imports that begin with one. -/
def importsFrom (ts : List Token) : Except Token (List ImportDecl × List Token) := do
  let (d, r) ← reading (importDecl ts)
  let (ds, r) ← reading (importDecls r)
  return (d :: ds, r)

theorem cut_importDecls (hStop : Halts stop) (pre : List Token) :
    CutAt (stop :: rest) statementEnd (fun ts => reading (importDecls ts)) pre := by
  cases pre with
  | nil =>
    refine .read (List.suffix_refl []) ?_ fun tail hTail => importDecls_of_end tail (hTail rfl)
    exact importDecls_of_not_at (decide_eq_false (hStop.kind_ne_keyword .kwImport))
  | cons t pre =>
    by_cases hKind : t.kind = .keyword .kwImport
    · have hMore : CutAt (stop :: rest) statementEnd importsFrom (t :: pre) := by
        refine .bind ((completable_importDecl hStop).cut (t :: pre)) (fun d post _ hRead => ?_)
          (fun d => .map (.optional importDecls_of_end) (d :: ·)) fun _ h => h
        have hShorter := length_lt_of_cut hRead
        exact (cut_importDecls hStop post).map (d :: ·)
      refine hMore.choose fun r => ?_
      rw [reading_importDecls, atKeyword_cons, decide_eq_true hKind]
      rfl
    · exact (Cut.done [] (t :: pre)).choose fun r => importDecls_of_not_at (decide_eq_false hKind)
termination_by pre.length
decreasing_by exact hShorter

theorem completable_method (hStop : Halts stop) (name : Token) :
    Completable (stop :: rest) anyKind
      [.punct .lparen, .punct .rparen, .punct .lbrace, .punct .rbrace] fun ts =>
      reading (method name ts) := by
  simp only [reading_method]
  refine .bind (completable_punct hStop .lparen) (fun _ => ?_) rfl
  dsimp only
  have hParams : Completable (stop :: rest) typeEnd [.punct .rparen] fun ts =>
      reading (listUntil .rparen "expected ')' after parameter list" (field "parameter") ts) := by
    refine ⟨fillable_reader hStop (fun ts => listUntil_stays ts fun r _ => field_stays _ r)
      fills_listUntil, fun pre => ?_⟩
    exact cut_listUntil _ hStop (by simp) rfl (field_stays _) pre fun p _ =>
      (completable_field hStop _).cut p
  refine .bind hParams (fun params => ?_) rfl
  dsimp only
  refine .bind ( completable_typeAnnotation hStop) (fun returns => ?_) rfl
  exact (completable_block hStop _).map fun body =>
    MethodDecl.mk name.literal params returns body name.pos

theorem completable_property (hStop : Halts stop) (isStatic : Bool) (name : Token) :
    Completable (stop :: rest) statementEnd [.punct .assign, Word.someName] fun ts => (do
      let (_, r) ← kind (.punct .assign) ts
      let (value, r) ← reading (expression r)
      let (_, r) ← reading (endOfStatement "property declaration" r)
      return (Member.property ⟨name.literal, isStatic, value, name.pos⟩, r)) := by
  refine .bind (completable_punct hStop .assign) (fun _ => ?_) rfl
  dsimp only
  refine .bind (completable_expression hStop) (fun value => ?_) quiet_of_statementEnd
  exact (completable_endOfStatement hStop _).map fun _ =>
    Member.property ⟨name.literal, isStatic, value, name.pos⟩

theorem fillable_memberBody (hStop : Halts stop) (isStatic : Bool) (name : Token) :
    Fillable (stop :: rest) statementEnd [.punct .assign, Word.someName]
      (memberBody isStatic name) where
  fill ts tail hSpell hTail := by
    have hProperty : Completable (stop :: rest) statementEnd [.punct .assign, Word.someName] _ :=
      completable_property hStop isStatic name
    obtain ⟨m, hm⟩ := hProperty.fill ts tail hSpell hTail
    refine ⟨m, .trans (if_pos ?_) hm⟩
    cases hSpell with
    | cons ht _ => exact decide_eq_true ht.1
  strict _ := by
    rw [memberBody, hStop.not_atPunct .assign rest, hStop.not_atPunct .lparen rest]
    rfl

theorem cut_memberBody (hStop : Halts stop) (isStatic : Bool) (name : Token) (pre : List Token) :
    Cut (name :: pre) (stop :: rest) statementEnd (memberBody isStatic name (pre ++ stop :: rest))
      fun tail => memberBody isStatic name (pre ++ tail) := by
  cases pre with
  | nil => exact .cons (fillable_memberBody hStop isStatic name).cut_nil
  | cons t pre =>
    by_cases hAssign : t.kind = .punct .assign
    · refine .cons (((completable_property hStop isStatic name).cut (t :: pre)).choose fun r => ?_)
      exact if_pos (decide_eq_true hAssign)
    · by_cases hParen : t.kind = .punct .lparen
      · have hRead : ∀ r, memberBody isStatic name (t :: r) =
            if isStatic then .error name
            else reading (method name (t :: r)) >>= fun p => pure (Member.method p.1, p.2) := by
          intro r
          rw [memberBody, atPunct_cons, atPunct_cons, decide_eq_false hAssign,
            decide_eq_true hParen]
          rfl
        cases isStatic with
        | true => exact .refused (List.mem_cons_self ..) (hRead _) fun tail => hRead _
        | false =>
          have hMethod : Completable (stop :: rest) statementEnd _ fun ts =>
              reading (method name ts) >>= fun p => pure (Member.method p.1, p.2) :=
            ((completable_method hStop name).map Member.method).mono fun _ _ => rfl
          exact .cons ((hMethod.cut (t :: pre)).choose hRead)
      · refine .cons (.refuse fun r => ?_)
        rw [memberBody, atPunct_cons, atPunct_cons, decide_eq_false hAssign, decide_eq_false hParen]
        rfl

/-- A member from its name on. -/
def namedMember (isStatic : Bool) (ts : List Token) : Except Token (Member × List Token) := do
  let (name, r) ← kind .ident ts
  memberBody isStatic name r

theorem completable_namedMember (hStop : Halts stop) (isStatic : Bool) :
    Completable (stop :: rest) statementEnd [Word.someName, .punct .assign, Word.someName]
      (namedMember isStatic) := by
  have hFill : Fillable (stop :: rest) statementEnd
      [Word.someName, .punct .assign, Word.someName] (namedMember isStatic) :=
    (completable_ident hStop).bindFillable (fillable_memberBody hStop isStatic) rfl
  refine ⟨hFill, fun pre => ?_⟩
  cases pre with
  | nil => exact hFill.cut_nil
  | cons name pre =>
    by_cases hName : name.kind = .ident
    · have hRead : ∀ r, namedMember isStatic (name :: r) = memberBody isStatic name r := by
        intro r
        rw [namedMember, kind_of_eq r hName]
        rfl
      simp only [CutAt, List.cons_append, hRead]
      exact cut_memberBody hStop isStatic name pre
    · refine .refuse fun r => ?_
      rw [namedMember, kind_of_ne r hName]
      rfl

/-- A keyword that may stand in front. -/
theorem completable_skip (hStop : Halts stop) (k : Keyword) :
    Completable (stop :: rest) (· ≠ .keyword k) [] fun ts => .ok (skipped (.keyword k) ts) := by
  have hNone : ∀ ts, atKeyword k ts = false →
      (.ok (skipped (.keyword k) ts) : Except Token (Bool × List Token)) = .ok (false, ts) := by
    intro ts h
    rw [skipped, skip?_of_not_at h]
  refine completable_optional (fun ts hts => hNone ts (decide_eq_false (of_decide_eq_true hts)))
    (hNone _ (decide_eq_false (hStop.kind_ne_keyword k))) fun t pre => ?_
  by_cases hKind : t.kind = .keyword k
  · refine (Cut.done true pre).step fun r => ?_
    have hAt : atKind (.keyword k) (t :: r) = true := decide_eq_true hKind
    rw [skipped, skip?_of_at hAt]
    rfl
  · exact (Cut.done false (t :: pre)).choose fun r => hNone (t :: r) (decide_eq_false hKind)

theorem completable_member (hStop : Halts stop) :
    Completable (stop :: rest) statementEnd [Word.someName, .punct .assign, Word.someName]
      fun ts => reading (member ts) := by
  have hRead : ∀ ts, reading (member ts) =
      ((.ok (skipped (.keyword .kwPublic) ts) : Except Token (Bool × List Token)) >>= fun p =>
        .ok (skipped (.keyword .kwStatic) p.2) >>= fun q => namedMember q.1 q.2) :=
    reading_member
  simp only [hRead]
  refine .bind (completable_skip hStop .kwPublic) (fun _ => ?_) rfl
  exact .bind (completable_skip hStop .kwStatic) (completable_namedMember hStop) rfl

theorem fills_members : Fills [.punct .rbrace] F fun ts => reading (members ts) := by
  intro ts tail hSpell _
  cases hSpell with
  | cons ht hRest =>
    cases hRest
    refine ⟨[], ?_⟩
    exact (reading_members_cons ..).trans (if_pos ht.1)

theorem fillable_members (hStop : Halts stop) :
    Fillable (stop :: rest) anyKind [.punct .rbrace] fun ts => reading (members ts) :=
  fillable_reader hStop members_stays fills_members

theorem cut_members (hStop : Halts stop) (pre : List Token) :
    CutAt (stop :: rest) anyKind (fun ts => reading (members ts)) pre := by
  cases pre with
  | nil => exact (fillable_members hStop).cut_nil
  | cons t pre =>
    simp only [CutAt, List.cons_append, reading_members_cons]
    split
    · exact .cons (.done [] pre)
    · split
      · exact .refused (List.mem_cons_self ..) rfl fun _ => rfl
      · split
        · exact .cons (cut_members hStop pre)
        · refine .bind ((completable_member hStop).cut (t :: pre)) (fun m post _ hRead => ?_)
            (fun m => (fillable_members hStop).map (m :: ·)) rfl
          have hShorter : post.length < (t :: pre).length := length_lt_of_cut hRead
          exact (cut_members hStop post).map (m :: ·)
termination_by pre.length
decreasing_by
  · exact hShorter
  · exact length_lt_cons t pre

theorem completable_classDecl (hStop : Halts stop) (isExported isDefault : Bool) :
    Completable (stop :: rest) anyKind
      [Word.classWord, Word.someName, .punct .lbrace, .punct .rbrace] fun ts =>
      reading (classDecl isExported isDefault ts) := by
  simp only [reading_classDecl]
  refine .bind (completable_keyword hStop rfl) (fun t => ?_) rfl
  dsimp only
  refine .bind (completable_ident hStop) (fun name => ?_) rfl
  dsimp only
  refine .bind (completable_punct hStop .lbrace) (fun _ => ?_) rfl
  have hMembers : Completable (stop :: rest) anyKind [.punct .rbrace] fun ts =>
      reading (members ts) :=
    ⟨fillable_members hStop, cut_members hStop⟩
  exact hMembers.map fun ms => ClassDecl.mk name.literal isExported isDefault
    (ms.filterMap Member.property?) (ms.filterMap Member.method?) t.pos

theorem completable_endOfField (hStop : Halts stop) (name : Text) :
    Completable (stop :: rest) braceEnd [] fun ts => reading (endOfField name ts) := by
  have hEnd : ∀ ts, Meets braceEnd ts → reading (endOfField name ts) = .ok (⟨⟩, ts) := by
    intro ts hts
    have hSemicolon := hts.not_atPunct (p := .semicolon) rfl
    have hComma := hts.not_atPunct (p := .comma) rfl
    have hClose : atPunct .rbrace ts = true := hts
    rw [reading_endOfField, hSemicolon, hComma, hClose]
    rfl
  have hSplit : ∀ t r, reading (endOfField name (t :: r)) =
      if t.kind = .punct .semicolon || t.kind = .punct .comma then .ok (⟨⟩, r)
      else if t.kind = .punct .rbrace || t.newlineBefore then .ok (⟨⟩, t :: r)
      else .error t :=
    fun t r => reading_endOfField name (t :: r)
  refine ⟨.optional hEnd, fun pre => ?_⟩
  cases pre with
  | nil =>
    have hRead := hSplit stop rest
    rw [if_neg (by simp [hStop.kind_ne_punct])] at hRead
    split at hRead
    · exact .read (List.suffix_refl []) hRead fun tail hTail => hEnd tail (hTail rfl)
    · exact .starved hRead (.optional hEnd)
  | cons t pre =>
    simp only [CutAt, List.cons_append, hSplit]
    generalize (decide (t.kind = .punct .semicolon) || decide (t.kind = .punct .comma)) = ends
    generalize (decide (t.kind = .punct .rbrace) || t.newlineBefore) = breaks
    cases ends with
    | true => exact .cons (.done PUnit.unit pre)
    | false =>
      cases breaks with
      | true => exact Cut.done PUnit.unit (t :: pre)
      | false => exact .refused (List.mem_cons_self ..) rfl fun _ => rfl

theorem fills_interfaceFields :
    Fills [.punct .rbrace] F fun ts => reading (interfaceFields ts) := by
  intro ts tail hSpell _
  cases hSpell with
  | @cons t _ _ _ ht hRest =>
    cases hRest
    have hKind : t.kind = .punct .rbrace := ht.1
    refine ⟨[], (reading_interfaceFields _).trans ?_⟩
    rw [List.singleton_append, atPunct_cons, decide_eq_true hKind, kind_of_eq tail hKind]
    rfl

theorem fillable_interfaceFields (hStop : Halts stop) :
    Fillable (stop :: rest) anyKind [.punct .rbrace] fun ts => reading (interfaceFields ts) :=
  fillable_reader hStop interfaceFields_stays fills_interfaceFields

/-- Fields that begin with one. -/
def fieldsFrom (ts : List Token) : Except Token (List FieldDecl × List Token) := do
  let (f, r) ← reading (field "field" ts)
  let (_, r) ← reading (endOfField f.name r)
  let (fs, r) ← reading (interfaceFields r)
  return (f :: fs, r)

theorem cut_interfaceFields (hStop : Halts stop) (pre : List Token) :
    CutAt (stop :: rest) anyKind (fun ts => reading (interfaceFields ts)) pre := by
  cases pre with
  | nil => exact (fillable_interfaceFields hStop).cut_nil
  | cons t pre =>
    by_cases hClose : t.kind = .punct .rbrace
    · refine (Cut.done [] pre).step fun r => ?_
      rw [reading_interfaceFields, atPunct_cons, decide_eq_true hClose, kind_of_eq r hClose]
      rfl
    · by_cases hEof : t.kind = .endOfInput
      · refine .refuse fun r => ?_
        rw [reading_interfaceFields, atPunct_cons, atKind_cons, decide_eq_false hClose,
          decide_eq_true hEof, kind_of_ne r hClose]
        rfl
      · have hMore : CutAt (stop :: rest) anyKind fieldsFrom (t :: pre) := by
          refine .bind ((completable_field hStop _).cut (t :: pre)) (fun f post _ hRead => ?_)
            (fun f => (completable_endOfField hStop f.name).bindFillable
              (fun _ => (fillable_interfaceFields hStop).map (f :: ·)) rfl) rfl
          refine .bind ((completable_endOfField hStop f.name).cut post) (fun _ post₁ hPost₁ _ => ?_)
            (fun _ => (fillable_interfaceFields hStop).map (f :: ·)) rfl
          have hShorter := Nat.lt_of_le_of_lt hPost₁.length_le (length_lt_of_cut hRead)
          exact (cut_interfaceFields hStop post₁).map (f :: ·)
        refine hMore.choose fun r => ?_
        rw [reading_interfaceFields, atPunct_cons, atKind_cons, decide_eq_false hClose,
          decide_eq_false hEof]
        rfl
termination_by pre.length
decreasing_by exact hShorter

theorem completable_baseInterface (hStop : Halts stop) :
    Completable (stop :: rest) (· ≠ .keyword .kwExtends) [] fun ts =>
      reading (baseInterface ts) := by
  have hNone : ∀ ts, atKeyword .kwExtends ts = false →
      reading (baseInterface ts) = .ok (none, ts) := by
    intro ts h
    rw [reading_baseInterface, h]
    rfl
  refine completable_optional (fun ts hts => hNone ts (decide_eq_false (of_decide_eq_true hts)))
    (hNone _ (decide_eq_false (hStop.kind_ne_keyword _))) fun t pre => ?_
  by_cases hKind : t.kind = .keyword .kwExtends
  · have hBase : Completable (stop :: rest) (· ≠ .keyword .kwExtends) [Word.someName] fun r =>
        kind .ident r >>= fun p => pure (some p.1.literal, p.2) :=
      ((completable_ident hStop).mono fun _ _ => rfl).map fun base => some base.literal
    refine (hBase.cut pre).step fun r => ?_
    rw [reading_baseInterface, atKeyword_cons, decide_eq_true hKind]
    rfl
  · exact (Cut.done none (t :: pre)).choose fun r => hNone (t :: r) (decide_eq_false hKind)

theorem completable_interfaceDecl (hStop : Halts stop) (isExported : Bool) :
    Completable (stop :: rest) anyKind
      [Word.interfaceWord, Word.someName, .punct .lbrace, .punct .rbrace] fun ts =>
      reading (interfaceDecl isExported ts) := by
  simp only [reading_interfaceDecl]
  refine .bind (completable_keyword hStop rfl) (fun t => ?_) rfl
  dsimp only
  refine .bind (completable_ident hStop) (fun name => ?_) rfl
  dsimp only
  refine .bind (completable_baseInterface hStop) (fun base => ?_) rfl
  dsimp only
  refine .bind (completable_punct hStop .lbrace) (fun _ => ?_) rfl
  have hFields : Completable (stop :: rest) anyKind [.punct .rbrace] fun ts =>
      reading (interfaceFields ts) :=
    ⟨fillable_interfaceFields hStop, cut_interfaceFields hStop⟩
  exact hFields.map fun fields => InterfaceDecl.mk name.literal isExported base fields t.pos

theorem fills_declared (hStop : Halts stop) (isExported isDefault : Bool) :
    Fills [Word.classWord, Word.someName, .punct .lbrace, .punct .rbrace] anyKind
      (declared isExported isDefault) := by
  intro ts tail hSpell hTail
  have hClass : Completable [stop] anyKind _ fun ts =>
      reading (classDecl isExported isDefault ts) :=
    completable_classDecl hStop isExported isDefault
  obtain ⟨c, hc⟩ := hClass.fill ts tail hSpell hTail
  cases hSpell with
  | @cons t _ ts _ ht _ =>
    have hKind : (current (t :: ts ++ tail)).kind = .keyword .kwClass := ht.1
    refine ⟨.cls c, ?_⟩
    rw [declared, hKind]
    exact congrArg (· >>= fun p => pure (Declaration.cls p.1, p.2)) hc

theorem completable_declared (hStop : Halts stop) (isExported isDefault : Bool) :
    Completable (stop :: rest) anyKind
      [Word.classWord, Word.someName, .punct .lbrace, .punct .rbrace]
      (declared isExported isDefault) := by
  have hRefused : ∀ t r, t.kind ≠ .keyword .kwClass → t.kind ≠ .keyword .kwInterface →
      declared isExported isDefault (t :: r) = .error t := by
    intro t r hClass hInterface
    unfold declared
    split
    · exact absurd ‹_› hClass
    · exact absurd ‹_› hInterface
    · rfl
  have hFill : Fillable (stop :: rest) anyKind
      [Word.classWord, Word.someName, .punct .lbrace, .punct .rbrace]
      (declared isExported isDefault) :=
    ⟨fills_declared hStop isExported isDefault, fun _ =>
      hRefused stop rest (hStop.kind_ne_keyword _) (hStop.kind_ne_keyword _)⟩
  refine ⟨hFill, fun pre => ?_⟩
  cases pre with
  | nil => exact hFill.cut_nil
  | cons t pre =>
    by_cases hClass : t.kind = .keyword .kwClass
    · refine (((completable_classDecl hStop isExported isDefault).map Declaration.cls).cut
        (t :: pre)).choose fun r => ?_
      have hKind : (current (t :: r)).kind = .keyword .kwClass := hClass
      rw [declared, hKind]
    · by_cases hInterface : t.kind = .keyword .kwInterface
      · have hRead : ∀ r, declared isExported isDefault (t :: r) =
            if isDefault then .error t
            else reading (interfaceDecl isExported (t :: r)) >>= fun p =>
              pure (Declaration.interface p.1, p.2) := by
          intro r
          have hKind : (current (t :: r)).kind = .keyword .kwInterface := hInterface
          rw [declared, hKind]
          rfl
        cases isDefault with
        | true => exact .refuse hRead
        | false =>
          exact (((completable_interfaceDecl hStop isExported).map Declaration.interface).cut
            (t :: pre)).choose hRead
      · exact .refuse fun r => hRefused t r hClass hInterface

theorem completable_declaration (hStop : Halts stop) :
    Completable (stop :: rest) anyKind
      [Word.classWord, Word.someName, .punct .lbrace, .punct .rbrace] fun ts =>
      reading (declaration ts) := by
  have hPlain : ∀ ts, atKeyword .kwExport ts = false →
      reading (declaration ts) = declared false false ts := by
    intro ts h
    rw [reading_declaration, exportedAs_eq, h]
    rfl
  have hFill : Fillable (stop :: rest) anyKind
      [Word.classWord, Word.someName, .punct .lbrace, .punct .rbrace] fun ts =>
      reading (declaration ts) := by
    refine fillable_reader hStop declaration_stays fun ts tail hSpell hTail => ?_
    obtain ⟨d, hd⟩ := fills_declared hStop false false ts tail hSpell hTail
    refine ⟨d, (hPlain _ ?_).trans hd⟩
    cases hSpell with
    | @cons t _ _ _ ht _ =>
      have hKind : t.kind = .keyword .kwClass := ht.1
      rw [List.cons_append, atKeyword_cons, hKind]
      rfl
  refine ⟨hFill, fun pre => ?_⟩
  cases pre with
  | nil => exact hFill.cut_nil
  | cons t pre =>
    by_cases hExport : t.kind = .keyword .kwExport
    · have hRest : Completable (stop :: rest) anyKind
          [Word.classWord, Word.someName, .punct .lbrace, .punct .rbrace] fun ts =>
          ((.ok (skipped (.keyword .kwDefault) ts) : Except Token (Bool × List Token)) >>= fun p =>
            declared true p.1 p.2) :=
        .bind (completable_skip hStop .kwDefault) (fun isDefault =>
          completable_declared hStop true isDefault) rfl
      refine (hRest.cut pre).step fun r => ?_
      rw [reading_declaration, exportedAs_eq, atKeyword_cons, decide_eq_true hExport]
      rfl
    · refine ((completable_declared hStop false false).cut (t :: pre)).choose fun r => ?_
      exact hPlain (t :: r) (decide_eq_false hExport)

/-- How the file `x`, which was cut off behind `pre`, compares to the files `y tail`. -/
inductive FileCut (pre last : List Token) (x : Except Token α) (y : List Token → Except Token α) :
    Prop
  | read {a : α} (hx : x = .ok a)
  | refused {t : Token} (ht : t ∈ pre) (hx : x = .error t) (hy : ∀ tail, y tail = .error t)
  | starved (ws : List Word) (hx : x = .error (current last))
      (hy : ∀ ts stop, Spell ts ws → stop.kind = .endOfInput → ∃ a, y (ts ++ [stop]) = .ok a)

section

variable {pre last : List Token} {F : TokenKind → Bool}

theorem FileCut.suffix {post : List Token} {x : Except Token α} {y : List Token → Except Token α}
    (h : FileCut post last x y) (hPost : post <:+ pre) : FileCut pre last x y := by
  cases h with
  | read hx => exact .read hx
  | refused ht hx hy => exact .refused (hPost.subset ht) hx hy
  | starved ws hx hy => exact .starved ws hx hy

theorem FileCut.map {x : Except Token α} {y : List Token → Except Token α}
    (h : FileCut pre last x y) (f : α → β) :
    FileCut pre last (x >>= fun a => pure (f a)) fun tail => y tail >>= fun a => pure (f a) := by
  cases h with
  | read hx => exact .read (congrArg (· >>= fun a => pure (f a)) hx)
  | refused ht hx hy =>
    exact .refused ht (congrArg (· >>= fun a => pure (f a)) hx) fun tail =>
      congrArg (· >>= fun a => pure (f a)) (hy tail)
  | starved ws hx hy =>
    refine .starved ws (congrArg (· >>= fun a => pure (f a)) hx) fun ts stop hSpell hStop => ?_
    obtain ⟨a, ha⟩ := hy ts stop hSpell hStop
    exact ⟨f a, congrArg (· >>= fun a => pure (f a)) ha⟩

/-- A file that begins with what a reader reads and may end behind it. -/
theorem Cut.file {x : Except Token (α × List Token)}
    {y : List Token → Except Token (α × List Token)} {f : α × List Token → Except Token β}
    (h : Cut pre last F x y) (hEnd : F .endOfInput = true)
    (hNext : ∀ a post, x = .ok (a, post ++ last) →
      FileCut post last (f (a, post ++ last)) fun tail => f (a, post ++ tail))
    (hDone : ∀ a stop, stop.kind = .endOfInput → ∃ b, f (a, [stop]) = .ok b) :
    FileCut pre last (x >>= f) fun tail => y tail >>= f := by
  have hMeets : ∀ stop : Token, stop.kind = .endOfInput → Meets F [stop] := by
    intro stop hStop
    show F stop.kind = true
    rw [hStop]
    exact hEnd
  cases h with
  | @read a post hPost hx hy =>
    rw [hx]
    show FileCut pre last (f (a, post ++ last)) fun tail => y tail >>= f
    cases hNext a post hx with
    | read hRead => exact .read hRead
    | @refused t ht hRead hAll =>
      refine .refused (hPost.subset ht) hRead fun tail => ?_
      rw [hy tail fun hNil => absurd ht (hNil ▸ List.not_mem_nil)]
      exact hAll tail
    | starved ws hRead hAll =>
      -- Where the reader came to the cut, the next token may not follow it, but the end may.
      cases post with
      | nil =>
        refine .starved [] hRead fun ts stop hSpell hStop => ?_
        cases hSpell
        rw [List.nil_append, hy [stop] fun _ => hMeets stop hStop]
        exact hDone a stop hStop
      | cons t post =>
        refine .starved ws hRead fun ts stop hSpell hStop => ?_
        rw [hy _ fun hNil => absurd hNil (List.cons_ne_nil t post)]
        exact hAll ts stop hSpell hStop
  | refused ht hx hy =>
    exact .refused ht (congrArg (· >>= f) hx) fun tail => congrArg (· >>= f) (hy tail)
  | @starved ws hx hy =>
    refine .starved ws (congrArg (· >>= f) hx) fun ts stop hSpell hStop => ?_
    obtain ⟨a, ha⟩ := hy ts [stop] hSpell (hMeets stop hStop)
    obtain ⟨b, hb⟩ := hDone a stop hStop
    exact ⟨b, (congrArg (· >>= f) ha).trans hb⟩

end

theorem declarations_of_end {stop : Token} (h : stop.kind = .endOfInput) (r : List Token) :
    located (declarations (stop :: r)) = .ok [] :=
  (located_declarations_cons stop r).trans (if_pos h)

theorem cut_declarations (hStop : Halts stop) (pre : List Token) :
    FileCut pre (stop :: rest) (located (declarations (pre ++ stop :: rest))) fun tail =>
      located (declarations (pre ++ tail)) := by
  cases pre with
  | nil =>
    by_cases hEof : stop.kind = .endOfInput
    · exact .read (declarations_of_end hEof rest)
    · refine .starved [] ?_ fun ts stop' hSpell hStop' => ?_
      · have hStrict : reading (declaration (stop :: rest)) = .error stop :=
          (completable_declaration hStop).strict (List.cons_ne_nil _ _)
        rw [List.nil_append, located_declarations_cons, if_neg hEof,
          if_neg (hStop.kind_ne_punct .semicolon), hStrict]
        rfl
      · cases hSpell
        exact ⟨[], declarations_of_end hStop' []⟩
  | cons t pre =>
    simp only [List.cons_append, located_declarations_cons]
    split
    · exact .read rfl
    · split
      · exact (cut_declarations hStop pre).suffix (List.suffix_cons t pre)
      · refine ((completable_declaration hStop).cut (t :: pre)).file rfl (fun d post hRead => ?_)
          fun d stop' hStop' => ⟨[d], ?_⟩
        · have hShorter : post.length < (t :: pre).length := length_lt_of_cut hRead
          exact (cut_declarations hStop post).map (d :: ·)
        · rw [declarations_of_end hStop']
          rfl
termination_by pre.length
decreasing_by
  · exact hShorter
  · exact length_lt_cons t pre

theorem cut_file (hStop : Halts stop) (pre : List Token) :
    FileCut pre (stop :: rest) (located (file (pre ++ stop :: rest))) fun tail =>
      located (file (pre ++ tail)) := by
  simp only [located_file]
  refine (cut_importDecls hStop pre).file rfl (fun imports post _ => ?_) fun imports stop' hStop' =>
    ⟨⟨imports, [], []⟩, ?_⟩
  · exact (cut_declarations hStop post).map _
  · rw [declarations_of_end hStop']
    rfl

end AnchorScript.Syntax.Parser
