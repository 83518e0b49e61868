import AnchorScript.Proofs.Syntax.FileCompletion
import AnchorScript.Proofs.Syntax.Precedence

/-!
# Reading on one line

The tokens that a reader has taken are read the same way on one line, whatever stands behind them,
if it cannot continue what was read. The line breaks that a file needs are those behind its imports,
properties, statements and fields, and a semicolon can stand for each of them.
-/

namespace AnchorScript

/-- The token on the line of the token before it. -/
def Token.joined (t : Token) : Token := { t with newlineBefore := false }

namespace Syntax.Parser

open Outcome

variable {α β : Type} {F G P Q : TokenKind → Bool}
  {read : List Token → Except Token (α × List Token)}
  {next : α × List Token → Except Token (β × List Token)}

def onLine (ts : List Token) : List Token := ts.map Token.joined

@[simp] theorem onLine_cons (t : Token) (ts : List Token) :
    onLine (t :: ts) = t.joined :: onLine ts := rfl

@[simp] theorem onLine_append (ts us : List Token) : onLine (ts ++ us) = onLine ts ++ onLine us :=
  List.map_append

/-- What leaves less than there was has taken the first token. -/
theorem exists_cons_of_length_lt {t : Token} {r used rest : List Token}
    (h : t :: r = used ++ rest) (hShorter : rest.length < (t :: r).length) :
    ∃ used', used = t :: used' := by
  cases used with
  | nil =>
    rw [h] at hShorter
    exact absurd hShorter (Nat.lt_irrefl _)
  | cons u used => exact ⟨used, by rw [(List.cons.inj h).1]⟩

/-- What the reader takes passes the test and is read the same way on one line, before anything that
may follow. -/
def Copies (follow pass : TokenKind → Bool) (read : List Token → Except Token (α × List Token)) :
    Prop :=
  ∀ ⦃ts a rest⦄, read ts = .ok (a, rest) → ∃ used, ts = used ++ rest ∧
    (∀ t ∈ used, pass t.kind = true) ∧
    ∀ tail, Meets follow tail → read (onLine used ++ tail) = .ok (a, tail)

namespace Copies

theorem mono (h : Copies F P read) (hFollow : ∀ k, G k = true → F k = true)
    (hPass : ∀ k, P k = true → Q k = true) : Copies G Q read := by
  intro ts a rest hRead
  obtain ⟨used, hUsed, hOnly, hLine⟩ := h hRead
  exact ⟨used, hUsed, fun t ht => hPass _ (hOnly t ht), fun tail hTail =>
    hLine tail (hFollow _ hTail)⟩

theorem bind (h : Copies F P read) (hNext : ∀ a, Copies G P fun r => next (a, r))
    (hLead : ∀ a ts b tail, Meets G tail → next (a, ts) = .ok (b, tail) → Meets F ts) :
    Copies G P fun ts => read ts >>= next := by
  intro ts b rest hRead
  obtain ⟨⟨a, r⟩, ha, hb⟩ := bind_eq_ok_iff.mp hRead
  obtain ⟨used, rfl, hOnly, hLine⟩ := h ha
  obtain ⟨used', rfl, hOnly', hLine'⟩ := hNext a hb
  refine ⟨used ++ used', (List.append_assoc ..).symm, List.forall_mem_append.mpr ⟨hOnly, hOnly'⟩,
    fun tail hTail => ?_⟩
  have hAfter := hLine' tail hTail
  dsimp only
  rw [onLine_append, List.append_assoc, hLine _ (hLead a _ b tail hTail hAfter)]
  exact hAfter

theorem map (h : Copies F P read) (f : α → β) :
    Copies F P fun ts => read ts >>= fun p => pure (f p.1, p.2) := by
  intro ts b rest hRead
  obtain ⟨⟨a, r⟩, ha, hb⟩ := bind_eq_ok_iff.mp hRead
  cases hb
  obtain ⟨used, hUsed, hOnly, hLine⟩ := h ha
  refine ⟨used, hUsed, hOnly, fun tail hTail => ?_⟩
  exact congrArg (· >>= fun p => pure (f p.1, p.2)) (hLine tail hTail)

/-- Readers look at the kind, the text and the place of a token they have taken. -/
theorem word_bind {accept : Token → Bool}
    {next : Token × List Token → Except Token (β × List Token)}
    (hAccept : ∀ t, accept t.joined = accept t) (hPass : ∀ t, accept t = true → P t.kind = true)
    (hNext : ∀ t, Copies F P fun r => next (t, r))
    (hSame : ∀ t r p, next (t, r) = .ok p → next (t.joined, r) = .ok p) :
    Copies F P fun ts => word accept ts >>= next := by
  intro ts b rest hRead
  obtain ⟨⟨t, r⟩, hWord, hb⟩ := bind_eq_ok_iff.mp hRead
  obtain ⟨rfl, ht⟩ := word_eq_ok_iff.mp hWord
  obtain ⟨used, rfl, hOnly, hLine⟩ := hNext t hb
  refine ⟨t :: used, rfl, List.forall_mem_cons.mpr ⟨hPass t ht, hOnly⟩, fun tail hTail => ?_⟩
  have hFirst : word accept (t.joined :: (onLine used ++ tail)) =
      .ok (t.joined, onLine used ++ tail) :=
    word_eq_ok_iff.mpr ⟨rfl, (hAccept t).trans ht⟩
  show word accept (t.joined :: (onLine used ++ tail)) >>= next = _
  rw [hFirst]
  exact hSame t _ _ (hLine tail hTail)

theorem kind_bind {k : TokenKind} {next : Token × List Token → Except Token (β × List Token)}
    (hPass : P k = true) (hNext : ∀ t, Copies F P fun r => next (t, r))
    (hSame : ∀ t r p, next (t, r) = .ok p → next (t.joined, r) = .ok p) :
    Copies F P fun ts => kind k ts >>= next :=
  word_bind (fun _ => rfl) (fun _ ht => of_decide_eq_true ht ▸ hPass) hNext hSame

theorem done (a : α) : Copies F P fun ts => pure (a, ts) := by
  intro ts b rest hRead
  cases hRead
  exact ⟨[], rfl, by simp, fun tail _ => rfl⟩

/-- What may stand behind one token, or may be missing together with it. -/
theorem optional {k : TokenKind} {a : α} (h : Copies F P read) (hEnd : k ≠ .endOfInput)
    (hPass : P k = true) (hFollow : F k = false) :
    Copies F P fun ts => if atKind k ts then read ts.tail else .ok (a, ts) := by
  intro ts b rest hRead
  dsimp only at hRead ⊢
  split at hRead
  · rename_i hAt
    cases ts with
    | nil => exact absurd (of_decide_eq_true hAt).symm hEnd
    | cons t r =>
      have hKind : t.kind = k := of_decide_eq_true hAt
      obtain ⟨used, rfl, hOnly, hLine⟩ := h hRead
      refine ⟨t :: used, rfl, List.forall_mem_cons.mpr ⟨hKind ▸ hPass, hOnly⟩, fun tail hTail => ?_⟩
      exact (if_pos hAt).trans (hLine tail hTail)
  · cases hRead
    refine ⟨[], rfl, by simp, fun tail hTail => if_neg ?_⟩
    intro hAt
    have hKind : (current tail).kind = k := of_decide_eq_true hAt
    rw [Meets, hKind, hFollow] at hTail
    cases hTail

/-- A token that must not follow. -/
theorem guard {p : Punct} (a : α) (hFollow : F (.punct p) = false) :
    Copies F P fun ts => if atPunct p ts then .error (current ts) else .ok (a, ts) := by
  intro ts b rest hRead
  dsimp only at hRead ⊢
  split at hRead
  · cases hRead
  · cases hRead
    refine ⟨[], rfl, by simp, fun tail hTail => if_neg ?_⟩
    show ¬ atPunct p tail = true
    rw [hTail.not_atPunct hFollow]
    exact Bool.false_ne_true

end Copies

theorem meets_of_kind {k : TokenKind} {g : Token × List Token → Except Token (β × List Token)}
    {ts : List Token} {p : β × List Token} (h : kind k ts >>= g = .ok p) (hF : F k = true) :
    Meets F ts := by
  obtain ⟨⟨t, r⟩, hWord, _⟩ := bind_eq_ok_iff.mp h
  obtain ⟨rfl, ht⟩ := word_eq_ok_iff.mp hWord
  show F t.kind = true
  rw [of_decide_eq_true ht]
  exact hF

end Syntax.Parser

namespace Syntax.Expr

open AnchorScript.Syntax.Parser

theorem Separated.onLine {closing : Punct} {parts : List (List Token)} {ts : List Token}
    (h : Separated closing parts ts) :
    Separated closing (parts.map Parser.onLine) (Parser.onLine ts) := by
  induction h with
  | nil hClose => exact .nil hClose
  | last hClose =>
    rw [onLine_append]
    exact .last hClose
  | cons hComma _ ih =>
    rw [onLine_append]
    exact .cons hComma ih

theorem Separated.forall_mem {closing : Punct} {parts : List (List Token)} {ts : List Token}
    {p : Token → Prop} (h : Separated closing parts ts) (hParts : ∀ part ∈ parts, ∀ t ∈ part, p t)
    (hSign : ∀ t, t.kind = .punct .comma ∨ t.kind = .punct closing → p t) : ∀ t ∈ ts, p t := by
  induction h with
  | nil hClose => exact List.forall_mem_singleton.mpr (hSign _ (.inr hClose))
  | last hClose =>
    exact List.forall_mem_append.mpr ⟨hParts _ (List.mem_singleton_self _),
      List.forall_mem_singleton.mpr (hSign _ (.inr hClose))⟩
  | cons hComma _ ih =>
    obtain ⟨hFirst, hOthers⟩ := List.forall_mem_cons.mp hParts
    exact List.forall_mem_append.mpr ⟨hFirst,
      List.forall_mem_cons.mpr ⟨hSign _ (.inl hComma), ih hOthers⟩⟩

/-- The parts of a list, each on one line. -/
def joinedParts (parts : List (Expr × List Token)) : List (Expr × List Token) :=
  parts.map fun e => (e.1, Parser.onLine e.2)

theorem map_fst_joinedParts (parts : List (Expr × List Token)) :
    (joinedParts parts).map Prod.fst = parts.map Prod.fst := by
  simp [joinedParts, Function.comp_def]

theorem map_snd_joinedParts (parts : List (Expr × List Token)) :
    (joinedParts parts).map Prod.snd = (parts.map Prod.snd).map Parser.onLine := by
  simp [joinedParts, Function.comp_def]

theorem forall_mem_joinedParts {parts : List (Expr × List Token)}
    (h : ∀ e ∈ parts, e.1.SpelledBy (Parser.onLine e.2)) :
    ∀ e ∈ joinedParts parts, e.1.SpelledBy e.2 :=
  List.forall_mem_map.mpr h

/-- Without its line breaks an expression is spelled the same way. -/
theorem SpelledBy.onLine {e : Expr} {ts : List Token} (h : e.SpelledBy ts) :
    e.SpelledBy (Parser.onLine ts) := by
  induction h with
  | @name t hKind => exact @SpelledBy.name t.joined hKind
  | @number t hKind => exact @SpelledBy.number t.joined hKind
  | @string t value hKind hValue => exact @SpelledBy.string t.joined value hKind hValue
  | @bool t value hKind => exact @SpelledBy.bool t.joined value hKind
  | @array t elems ts hKind _ hList ih =>
    rw [← map_fst_joinedParts]
    refine @SpelledBy.array t.joined _ _ hKind (forall_mem_joinedParts ih) ?_
    rw [map_snd_joinedParts]
    exact hList.onLine
  | @construct t name opening args ts hKind hName hOpening _ hList ih =>
    rw [← map_fst_joinedParts]
    refine @SpelledBy.construct t.joined name.joined opening.joined _ _ hKind hName hOpening
      (forall_mem_joinedParts ih) ?_
    rw [map_snd_joinedParts]
    exact hList.onLine
  | @paren t close inner ts hKind _ hClose ih =>
    rw [onLine_cons, onLine_append]
    exact @SpelledBy.paren t.joined close.joined _ _ hKind ih hClose
  | @unary t op operand ts hOp _ ih => exact @SpelledBy.unary t.joined _ _ _ hOp ih
  | @binary t op left right ls rs hOp _ _ ihLeft ihRight =>
    rw [onLine_append]
    exact @SpelledBy.binary t.joined _ _ _ _ _ hOp ihLeft ihRight
  | @assign t target value ls rs hOp _ _ ihTarget ihValue =>
    rw [onLine_append]
    exact @SpelledBy.assign t.joined _ _ _ _ hOp ihTarget ihValue
  | @call t callee args cs ts _ hKind hLine _ hList ihCallee ih =>
    rw [onLine_append, ← map_fst_joinedParts]
    refine @SpelledBy.call t.joined _ _ _ _ ihCallee hKind rfl (forall_mem_joinedParts ih) ?_
    rw [map_snd_joinedParts]
    exact hList.onLine
  | @member dot name object os _ hDot hName ih =>
    rw [onLine_append]
    exact @SpelledBy.member dot.joined name.joined _ _ ih hDot hName
  | @index t close object position os ts _ hKind hLine _ hClose ihObject ihPosition =>
    rw [onLine_append, onLine_cons, onLine_append]
    exact @SpelledBy.index t.joined close.joined _ _ _ _ ihObject hKind rfl ihPosition hClose

/-- A semicolon is part of no expression. -/
theorem SpelledBy.kind_ne_semicolon {e : Expr} {ts : List Token} (h : e.SpelledBy ts) :
    ∀ t ∈ ts, t.kind ≠ .punct .semicolon := by
  have hParts : ∀ {closing : Punct} {parts : List (Expr × List Token)} {ts : List Token},
      Separated closing (parts.map Prod.snd) ts → closing ≠ .semicolon →
      (∀ e ∈ parts, ∀ t ∈ e.2, t.kind ≠ .punct .semicolon) →
      ∀ t ∈ ts, t.kind ≠ .punct .semicolon := by
    intro closing parts ts hList hClosing hEach
    refine hList.forall_mem (List.forall_mem_map.mpr hEach) fun t ht => ?_
    rcases ht with ht | ht <;> rw [ht] <;> simp [hClosing]
  have hSign : ∀ {i : Infix} {t : Token}, Infix.ofKind? t.kind = some i →
      t.kind ≠ .punct .semicolon := by
    intro i t hOp hKind
    rw [hKind] at hOp
    cases hOp
  induction h with
  | name hKind | number hKind | string hKind _ => simp [hKind]
  | @bool t value hKind => cases value <;> simp [hKind]
  | array hKind _ hList ih => simpa [hKind] using hParts hList (by decide) ih
  | construct hKind hName hOpening _ hList ih =>
    simpa [hKind, hName, hOpening] using hParts hList (by decide) ih
  | paren hKind _ hClose ih => simpa [hKind, hClose, or_imp, forall_and] using ih
  | @unary t _ _ _ hOp _ ih =>
    refine List.forall_mem_cons.mpr ⟨fun hKind => ?_, ih⟩
    rw [hKind] at hOp
    cases hOp
  | binary hOp _ _ ihLeft ihRight =>
    exact List.forall_mem_append.mpr ⟨ihLeft, List.forall_mem_cons.mpr ⟨hSign hOp, ihRight⟩⟩
  | assign hOp _ _ ihTarget ihValue =>
    exact List.forall_mem_append.mpr ⟨ihTarget, List.forall_mem_cons.mpr ⟨hSign hOp, ihValue⟩⟩
  | call _ hKind _ _ hList ihCallee ih =>
    refine List.forall_mem_append.mpr ⟨ihCallee, List.forall_mem_cons.mpr ⟨?_, ?_⟩⟩
    · simp [hKind]
    · exact hParts hList (by decide) ih
  | member _ hDot hName ih =>
    refine List.forall_mem_append.mpr ⟨ih, ?_⟩
    simp only [List.forall_mem_cons]
    refine ⟨by simp [hDot], fun hKind => ?_, by simp⟩
    rw [Token.isName, hKind] at hName
    cases hName
  | index _ hKind _ _ hClose ihObject ihPosition =>
    refine List.forall_mem_append.mpr ⟨ihObject, ?_⟩
    simpa [hKind, hClose, or_imp, forall_and] using ihPosition

end Syntax.Expr

namespace Syntax.Parser

open Outcome

variable {α β : Type} {F G P Q : TokenKind → Bool}

theorem reading_eq_ok_iff {n : Nat} {x : Reader α n} {a : α} {rest : List Token} :
    reading x = .ok (a, rest) ↔ Yields x a rest := by
  cases x with
  | error e => exact ⟨nofun, nofun⟩
  | ok p =>
    constructor
    · intro h
      cases h
      exact ⟨p.bound, rfl⟩
    · rintro ⟨_, hSame⟩
      cases hSame
      rfl

def notSemicolon (k : TokenKind) : Bool := k ≠ .punct .semicolon

theorem ends_of_quiet {ts : List Token} (h : Meets quiet ts) : Ends ts := by
  rintro t r rfl
  have hQuiet : quiet t.kind = true := h
  simp only [quiet, Bool.and_eq_true, decide_eq_true_eq, Option.isNone_iff_eq_none] at hQuiet
  obtain ⟨⟨⟨hDot, hParen⟩, hBracket⟩, hInfix⟩ := hQuiet
  exact ⟨by simp [startsPostfix, hDot, hParen, hBracket], hInfix⟩

theorem copies_expression : Copies quiet notSemicolon fun ts => reading (expression ts) := by
  intro ts e rest hRead
  obtain ⟨used, hUsed, hSpelled, hStratified, _⟩ :=
    (expression_yields_iff ts e rest).mp (reading_eq_ok_iff.mp hRead)
  refine ⟨used, hUsed, fun t ht => decide_eq_true (hSpelled.kind_ne_semicolon t ht),
    fun tail hTail => reading_eq_ok_iff.mpr ?_⟩
  exact (expression_yields_iff ..).mpr
    ⟨onLine used, rfl, hSpelled.onLine, hStratified, ends_of_quiet hTail⟩

/-- The kinds that a name with its type is written with, and more. -/
def inField (k : TokenKind) : Bool :=
  k ≠ .punct .semicolon && k ≠ .punct .comma && k ≠ .punct .lbrace && k ≠ .endOfInput

theorem copies_typeArg (name : Text) :
    Copies anyKind inField fun ts => reading (typeArg name ts) := by
  simp only [reading_typeArg]
  refine .word_bind (fun _ => rfl) (fun t ht => ?_) (fun arg => ?_) ?_
  · simp only [isTypeArg, Bool.or_eq_true, decide_eq_true_eq] at ht
    rcases ht with hKind | hKind <;> rw [hKind] <;> rfl
  · dsimp only
    refine .kind_bind rfl (fun _ => ?_) fun _ _ _ h => h
    exact .done (some arg.literal)
  · exact fun _ _ _ h => h

theorem copies_typeRef : Copies typeEnd inField fun ts => reading (typeRef ts) := by
  simp only [reading_typeRef]
  refine .kind_bind rfl (fun name => ?_) fun _ _ _ h => h
  dsimp only
  have hArg : Copies typeEnd inField ( typeArg? name.literal) :=
    .optional ((copies_typeArg name.literal).mono (fun _ _ => rfl) fun _ h => h) nofun rfl rfl
  refine .bind hArg (fun arg => ?_) fun arg ts b tail hTail hRead => ?_
  · dsimp only
    exact .guard _ rfl
  · dsimp only at hRead
    split at hRead
    · cases hRead
    · cases hRead
      exact hTail

/-- A token that may not stand before another one is refused with it. -/
theorem guarded_kind {p : Punct} {k : TokenKind} {ts : List Token}
    {g : Token × List Token → Except Token (β × List Token)} (hk : k ≠ .punct p) :
    (if atPunct p ts then .error (current ts) else kind k ts >>= g) = kind k ts >>= g := by
  cases hAt : atPunct p ts with
  | false => rfl
  | true =>
    obtain ⟨t, r, rfl, hKind⟩ := exists_cons_of_atPunct hAt
    rw [if_pos rfl, kind_of_ne r (by rw [hKind]; exact hk.symm)]
    rfl

theorem copies_field (what : Text) : Copies typeEnd inField fun ts => reading (field what ts) := by
  simp only [reading_field]
  refine .kind_bind rfl (fun name => ?_) fun _ _ _ h => h
  have hSame : ∀ r, (if atPunct .question r then .error (current r)
      else kind (.punct .colon) r >>= fun p => reading (typeRef p.2) >>= fun q =>
        pure (FieldDecl.mk name.literal q.1 name.pos, q.2)) =
      (kind (.punct .colon) r >>= fun p => reading (typeRef p.2) >>= fun q =>
        pure (FieldDecl.mk name.literal q.1 name.pos, q.2)) :=
    fun r => guarded_kind (by decide)
  have hRest : Copies typeEnd inField fun r =>
      kind (.punct .colon) r >>= fun p => reading (typeRef p.2) >>= fun q =>
        pure (FieldDecl.mk name.literal q.1 name.pos, q.2) :=
    .kind_bind rfl (fun _ => copies_typeRef.map fun type => FieldDecl.mk name.literal type name.pos)
      fun _ _ _ h => h
  exact (funext hSame).symm ▸ hRest

theorem copies_typeAnnotation :
    Copies typeEnd inField fun ts => reading ( typeAnnotation ts) := by
  simp only [ reading_typeAnnotation]
  exact .optional (copies_typeRef.map some) nofun rfl rfl

section

variable {closing : Punct} {message : Text} {item : (ts : List Token) → Reader α ts.length}
  {f : α → β}

theorem listRest_eq_ok_iff (hClosing : closing ≠ .comma) {a : α} {as : List α}
    {ts rest : List Token} :
    listRest closing message item a ts = .ok (as, rest) ↔ ∃ c r, ts = c :: r ∧
      (c.kind = .punct .comma ∧
          (∃ as', reading (listUntil closing message item r) = .ok (as', rest) ∧ as = a :: as') ∨
        c.kind = .punct closing ∧ r = rest ∧ as = [a]) := by
  constructor
  · intro h
    unfold listRest at h
    split at h
    · obtain ⟨c, r, rfl, hComma⟩ := exists_cons_of_atPunct ‹_›
      obtain ⟨⟨as', r'⟩, hRest, hSame⟩ := bind_eq_ok_iff.mp h
      cases hSame
      exact ⟨c, r, rfl, .inl ⟨hComma, as', hRest, rfl⟩⟩
    · obtain ⟨⟨c, r⟩, hClose, hSame⟩ := bind_eq_ok_iff.mp h
      cases hSame
      obtain ⟨rfl, hc⟩ := word_eq_ok_iff.mp hClose
      exact ⟨c, rest, rfl, .inr ⟨of_decide_eq_true hc, rfl, rfl⟩⟩
  · rintro ⟨c, r, rfl, ⟨hComma, as', hRest, rfl⟩ | ⟨hClose, rfl, rfl⟩⟩
    · rw [listRest, atPunct_cons, decide_eq_true hComma]
      exact congrArg (· >>= fun p => pure (a :: p.1, p.2)) hRest
    · have hComma : c.kind ≠ .punct .comma := by simpa [hClose] using hClosing
      rw [listRest, atPunct_cons, decide_eq_false hComma, kind_of_eq r hClose]
      rfl

theorem exists_listUntil_eq {t : Token} {r tail : List Token} {b : β}
    (hKind : t.kind ≠ .punct closing)
    (hItem : reading (item (t :: r)) >>= (fun p => pure (f p.1, p.2)) = .ok (b, tail)) :
    ∃ a, f a = b ∧ reading (listUntil closing message item (t :: r)) =
      listRest closing message item a tail := by
  obtain ⟨⟨a, r'⟩, hRead, hSame⟩ := bind_eq_ok_iff.mp hItem
  obtain ⟨hf, rfl⟩ := Prod.mk.inj (Except.ok.inj hSame)
  refine ⟨a, hf, (reading_listUntil_of_ne hKind r).trans ?_⟩
  exact congrArg (· >>= fun p => listRest closing message item p.1 p.2) hRead

theorem exists_of_listUntil
    (hItem : Copies F P fun ts => reading (item ts) >>= fun p => pure (f p.1, p.2))
    (hFollow : F (.punct .comma) = true ∧ F (.punct closing) = true)
    (hPass : P (.punct .comma) = true ∧ P (.punct closing) = true) (hClosing : closing ≠ .comma)
    (ts : List Token) {as : List α} {rest : List Token}
    (h : reading (listUntil closing message item ts) = .ok (as, rest)) :
    ∃ used, ts = used ++ rest ∧ (∀ t ∈ used, P t.kind = true) ∧ ∀ tail, ∃ as',
      reading (listUntil closing message item (onLine used ++ tail)) = .ok (as', tail) ∧
        as'.map f = as.map f := by
  match ts with
  | [] => exact absurd (length_lt_of_reading h) (Nat.not_lt_zero _)
  | t :: r =>
    by_cases hKind : t.kind = .punct closing
    · rw [reading_listUntil_of_eq hKind] at h
      cases h
      exact ⟨[t], rfl, List.forall_mem_singleton.mpr (hKind ▸ hPass.2), fun tail =>
        ⟨[], reading_listUntil_of_eq (t := t.joined) hKind tail, rfl⟩⟩
    · rw [reading_listUntil_of_ne hKind] at h
      obtain ⟨⟨a, r₁⟩, hFirst, hMore⟩ := bind_eq_ok_iff.mp h
      have hShorter := length_lt_of_reading hFirst
      obtain ⟨used, hUsed, hOnly, hLine⟩ :=
        hItem (congrArg (· >>= fun p => pure (f p.1, p.2)) hFirst)
      obtain ⟨used, rfl⟩ := exists_cons_of_length_lt hUsed hShorter
      obtain ⟨c, r₂, rfl, hEnd⟩ := (listRest_eq_ok_iff hClosing).mp hMore
      rcases hEnd with ⟨hComma, as₂, hRest, rfl⟩ | ⟨hClose, rfl, rfl⟩
      · obtain ⟨used₂, rfl, hOnly₂, hLine₂⟩ :=
          exists_of_listUntil hItem hFollow hPass hClosing r₂ hRest
        have hBehind : ∀ u ∈ c :: used₂, P u.kind = true :=
          List.forall_mem_cons.mpr ⟨hComma ▸ hPass.1, hOnly₂⟩
        refine ⟨t :: used ++ c :: used₂, by simpa using hUsed,
          List.forall_mem_append.mpr ⟨hOnly, hBehind⟩, fun tail => ?_⟩
        have hFits : F c.kind = true := hComma ▸ hFollow.1
        obtain ⟨as', hAs', hMap⟩ := hLine₂ tail
        obtain ⟨a', ha', hList⟩ := exists_listUntil_eq (t := t.joined) hKind
          (hLine (c.joined :: (onLine used₂ ++ tail)) hFits)
        refine ⟨a' :: as', ?_, by simp [ha', hMap]⟩
        rw [onLine_append, List.append_assoc]
        exact hList.trans ((listRest_eq_ok_iff hClosing).mpr
          ⟨c.joined, _, rfl, .inl ⟨hComma, as', hAs', rfl⟩⟩)
      · have hBehind : ∀ u ∈ [c], P u.kind = true :=
          List.forall_mem_singleton.mpr (hClose ▸ hPass.2)
        refine ⟨t :: used ++ [c], by simpa using hUsed,
          List.forall_mem_append.mpr ⟨hOnly, hBehind⟩, fun tail => ?_⟩
        have hFits : F c.kind = true := hClose ▸ hFollow.2
        obtain ⟨a', ha', hList⟩ := exists_listUntil_eq (t := t.joined) hKind
          (hLine (c.joined :: tail) hFits)
        refine ⟨[a'], ?_, by simp [ha']⟩
        rw [onLine_append, List.append_assoc]
        exact hList.trans ((listRest_eq_ok_iff hClosing).mpr
          ⟨c.joined, tail, rfl, .inr ⟨hClose, rfl, rfl⟩⟩)
termination_by ts.length
decreasing_by
  have := congrArg List.length hUsed
  simp only [List.length_append, List.length_cons] at this ⊢
  omega

theorem copies_listUntil
    (hItem : Copies F P fun ts => reading (item ts) >>= fun p => pure (f p.1, p.2))
    (hFollow : F (.punct .comma) = true ∧ F (.punct closing) = true)
    (hPass : P (.punct .comma) = true ∧ P (.punct closing) = true) (hClosing : closing ≠ .comma) :
    Copies G P fun ts =>
      reading (listUntil closing message item ts) >>= fun p => pure (p.1.map f, p.2) := by
  intro ts bs rest hRead
  obtain ⟨⟨as, r⟩, hList, hSame⟩ := bind_eq_ok_iff.mp hRead
  cases hSame
  obtain ⟨used, hUsed, hOnly, hLine⟩ :=
    exists_of_listUntil hItem hFollow hPass hClosing ts hList
  refine ⟨used, hUsed, hOnly, fun tail _ => ?_⟩
  obtain ⟨as', hAs', hMap⟩ := hLine tail
  rw [← hMap]
  exact congrArg (· >>= fun p => pure (p.1.map f, p.2)) hAs'

end

/-- The kinds that stand before the opening brace of a body. -/
def inHead (k : TokenKind) : Bool := k ≠ .punct .lbrace && k ≠ .endOfInput

theorem inHead_of_inField (k : TokenKind) (h : inField k = true) : inHead k = true := by
  simp only [inField, inHead, Bool.and_eq_true] at h ⊢
  exact ⟨h.1.2, h.2⟩

theorem notSemicolon_of_inField (k : TokenKind) (h : inField k = true) : notSemicolon k = true := by
  simp only [inField, Bool.and_eq_true] at h
  exact h.1.1.1

theorem copies_params (message : Text) :
    Copies G inHead fun ts => reading (listUntil .rparen message (field "parameter") ts) := by
  have hList : Copies G inHead fun ts =>
      reading (listUntil .rparen message (field "parameter") ts) >>= fun p =>
        pure (p.1.map id, p.2) :=
    copies_listUntil (((copies_field _).mono (fun _ h => h) inHead_of_inField).map id) ⟨rfl, rfl⟩
      ⟨rfl, rfl⟩ (by decide)
  simpa only [List.map_id, Prod.eta, bind_pure] using hList

theorem copies_importedNames : Copies F notSemicolon fun ts => reading (importedNames ts) := by
  intro ts names rest hRead
  cases ts with
  | nil => cases hRead
  | cons t r =>
    dsimp only at hRead ⊢
    rw [reading_importedNames_cons] at hRead
    split at hRead
    · rename_i hKind
      have hIdent : Copies anyKind notSemicolon fun ts =>
          reading (takeIdent "expected imported name" ts) >>= fun p => pure (p.1.literal, p.2) := by
        simp only [takeIdent, reading_take]
        exact .kind_bind rfl (fun name => .done name.literal) fun _ _ _ h => h
      obtain ⟨used, rfl, hOnly, hLine⟩ :=
        copies_listUntil (G := F) hIdent ⟨rfl, rfl⟩ ⟨rfl, rfl⟩ (by decide) hRead
      refine ⟨t :: used, rfl, List.forall_mem_cons.mpr ⟨?_, hOnly⟩, fun tail hTail => ?_⟩
      · rw [hKind]
        rfl
      · rw [onLine_cons, List.cons_append, reading_importedNames_cons,
          show t.joined.kind = .punct .lbrace from hKind]
        exact hLine tail hTail
    · rename_i hKind
      cases hRead
      refine ⟨[t], rfl, List.forall_mem_singleton.mpr ?_, fun tail _ => ?_⟩
      · rw [hKind]
        rfl
      · rw [onLine_cons, List.cons_append, reading_importedNames_cons,
          show t.joined.kind = .ident from hKind]
        rfl
    · cases hRead

theorem copies_modulePath : Copies F notSemicolon modulePath := by
  refine .kind_bind rfl (fun t => ?_) fun t r p hRead => ?_
  · dsimp only
    cases StringLiteral.value? t.literal with
    | none => exact fun _ _ _ hRead => nomatch hRead
    | some module => exact .done module
  · dsimp only at hRead ⊢
    rw [show t.joined.literal = t.literal from rfl]
    cases hValue : StringLiteral.value? t.literal with
    | none =>
      rw [hValue] at hRead
      cases hRead
    | some module => rwa [hValue] at hRead

end Syntax.Parser

end AnchorScript
