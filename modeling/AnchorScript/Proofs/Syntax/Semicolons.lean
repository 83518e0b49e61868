import AnchorScript.Proofs.Syntax.Items
import AnchorScript.Proofs.Syntax.PlacedReading

/-!
# Semicolons instead of line breaks

The tokens of a file are given a semicolon behind every import, property, statement and field that
has none. Written on one line, they are read as the same file up to positions: no line break of a
source says more than a semicolon does.
-/

namespace AnchorScript.Syntax

open AnchorScript.Syntax.Parser

inductive Body where
  | cls
  | method
  | interface

/-- Where a token stands: between declarations, before the opening brace of a body, or in a body. -/
inductive Region where
  | file
  | head (b : Body)
  | body (b : Body)

def restOf {α : Type} : Except Token (α × List Token) → Option (List Token)
  | .ok p => some p.2
  | .error _ => none

namespace Region

/-- The tokens behind the import, property, statement or field that begins here, if one does. -/
def itemRest? : Region → List Token → Option (List Token)
  | .file, ts => restOf (reading (importDecl ts))
  | .head _, _ => none
  | .body .cls, ts => restOf (propertyFrom ts)
  | .body .method, ts => restOf (statementFrom ts)
  | .body .interface, ts => restOf (fieldFrom ts)

/-- The kinds of token that end an item: a field may end in a comma, too. -/
def ends : Region → TokenKind → Bool
  | .body .interface => isFieldEnd
  | _ => isSemicolon

/-- Where the next token stands, behind a token of this kind that is part of no item. -/
def next : Region → TokenKind → Region
  | .file, .keyword .kwClass => .head .cls
  | .file, .keyword .kwInterface => .head .interface
  | .head b, .punct .lbrace => .body b
  | .body .cls, .punct .rbrace => .file
  | .body .cls, .punct .semicolon => .body .cls
  -- What begins no property in the body of a class begins a method.
  | .body .cls, _ => .head .method
  | .body .method, .punct .rbrace => .body .cls
  | .body .interface, .punct .rbrace => .file
  | region, _ => region

end Region

/-- What was taken of the tokens where `rest` is left. -/
def between (ts rest : List Token) : List Token := ts.take (ts.length - rest.length)

def semicolon : Token := ⟨.punct .semicolon, Punct.semicolon.text, .start, .start, false⟩

/-- The item with a semicolon behind it, unless a token ends it already. -/
def closed (ends : TokenKind → Bool) (item : List Token) : List Token :=
  if item.getLast?.any (ends ·.kind) then item else item ++ [semicolon]

theorem restOf_eq_some_iff {α : Type} {x : Except Token (α × List Token)} {rest : List Token} :
    restOf x = some rest ↔ ∃ a, x = .ok (a, rest) := by
  cases x with
  | error e => exact ⟨nofun, nofun⟩
  | ok p =>
    obtain ⟨a, r⟩ := p
    simp [restOf]

theorem Region.length_lt_of_itemRest? {region : Region} {ts rest : List Token}
    (h : region.itemRest? ts = some rest) : rest.length < ts.length := by
  match region with
  | .file =>
    obtain ⟨_, hRead⟩ := restOf_eq_some_iff.mp h
    exact length_lt_of_reading hRead
  | .head _ => cases h
  | .body .cls =>
    obtain ⟨_, hRead⟩ := restOf_eq_some_iff.mp h
    exact length_lt_of_reading (propertyFrom_eq_ok_iff.mp hRead)
  | .body .method =>
    obtain ⟨_, hRead⟩ := restOf_eq_some_iff.mp h
    cases ts with
    | nil => cases hRead
    | cons t r => exact length_lt_of_reading hRead
  | .body .interface =>
    obtain ⟨_, hRead⟩ := restOf_eq_some_iff.mp h
    obtain ⟨⟨f, r⟩, hField, hEnd⟩ := Outcome.bind_eq_ok_iff.mp hRead
    obtain ⟨⟨_, r'⟩, hTaken, hSame⟩ := Outcome.bind_eq_ok_iff.mp hEnd
    cases hSame
    have hFirst := length_lt_of_reading hField
    have hSecond := length_lt_of_reading hTaken
    omega

/-- The tokens up to the end of the input, with a semicolon behind every import, property, statement
and field that has none. -/
def withSemicolons (region : Region) (ts : List Token) : List Token :=
  match ts with
  | [] => []
  | t :: r =>
    if t.kind = .endOfInput then []
    else
      match _h : region.itemRest? (t :: r) with
      | some rest => closed region.ends (between (t :: r) rest) ++ withSemicolons region rest
      | none => t :: withSemicolons (region.next t.kind) r
termination_by ts.length
decreasing_by
  · exact Region.length_lt_of_itemRest? _h
  · exact length_lt_cons t r

/-- The tokens with their semicolons, on one line. -/
def lineOf (region : Region) (ts : List Token) : List Token := onLine (withSemicolons region ts)

section

variable {region : Region} {t : Token} {r : List Token}

theorem lineOf_nil : lineOf region [] = [] := by
  rw [lineOf, withSemicolons]
  rfl

theorem lineOf_of_end (h : t.kind = .endOfInput) : lineOf region (t :: r) = [] := by
  rw [lineOf, withSemicolons, if_pos h]
  rfl

theorem lineOf_copied (hEnd : t.kind ≠ .endOfInput) (hItem : region.itemRest? (t :: r) = none) :
    lineOf region (t :: r) = t.joined :: lineOf (region.next t.kind) r := by
  rw [lineOf, withSemicolons, if_neg hEnd]
  split
  · rename_i hSome
    rw [hItem] at hSome
    cases hSome
  · rfl

theorem lineOf_item {rest : List Token} (hEnd : t.kind ≠ .endOfInput)
    (hItem : region.itemRest? (t :: r) = some rest) :
    lineOf region (t :: r) =
      onLine (closed region.ends (between (t :: r) rest)) ++ lineOf region rest := by
  rw [lineOf, withSemicolons, if_neg hEnd]
  split
  · rename_i hSome
    cases hItem.symm.trans hSome
    exact onLine_append ..
  · rename_i hNone
    cases hItem.symm.trans hNone

end

theorem between_append (used rest : List Token) : between (used ++ rest) rest = used := by
  rw [between, List.length_append, Nat.add_sub_cancel]
  exact List.take_left' rfl

theorem closed_of_end {ends : TokenKind → Bool} {core : List Token} {t : Token}
    (h : ends t.kind = true) : closed ends (core ++ [t]) = core ++ [t] := by
  simp [closed, h]

theorem closed_of_forall {ends : TokenKind → Bool} {core : List Token}
    (h : ∀ t ∈ core, ends t.kind = false) : closed ends core = core ++ [semicolon] := by
  rw [closed, if_neg]
  cases hLast : core.getLast? with
  | none => simp
  | some t => simp [h t (List.mem_of_getLast? hLast)]

/-- An item is the same on one line with a token behind it that ends it. -/
theorem read_closed {α : Type} {ends : TokenKind → Bool}
    {read : List Token → Except Token (α × List Token)} (h : Parser.Closes ends read)
    (hSemicolon : ends (.punct .semicolon) = true) {ts rest : List Token} {a : α}
    (hRead : read ts = .ok (a, rest)) (tail : List Token) :
    read (onLine (closed ends (between ts rest)) ++ tail) = .ok (a, tail) := by
  obtain ⟨core, ender, rfl, hCore, hEnder, hLine⟩ := h hRead
  rw [between_append]
  rcases hEnder with rfl | ⟨t, rfl, ht⟩
  · rw [List.append_nil, closed_of_forall hCore, onLine_append, List.append_assoc]
    exact hLine semicolon.joined tail hSemicolon
  · rw [closed_of_end ht, onLine_append, List.append_assoc]
    exact hLine t.joined tail ht

theorem exists_closed_eq_cons (ends : TokenKind → Bool) {t : Token} {r rest : List Token}
    (h : rest.length < (t :: r).length) :
    ∃ more, closed ends (between (t :: r) rest) = t :: more := by
  have hTaken : between (t :: r) rest = t :: r.take (r.length - rest.length) := by
    rw [between, List.length_cons, Nat.succ_sub (Nat.le_of_lt_succ h), List.take_succ_cons]
  rw [hTaken, closed]
  split
  · exact ⟨_, rfl⟩
  · exact ⟨_, rfl⟩

/-- What begins with the first token begins its line, and leaves the line of what it has left. -/
def BeginsLine {α : Type} (region : Region) (read : List Token → Except Token (α × List Token)) :
    Prop :=
  ∀ ⦃t r a rest⦄, t.kind ≠ .endOfInput → read (t :: r) = .ok (a, rest) →
    rest.length < (t :: r).length ∧ ∃ more, lineOf region (t :: r) = t.joined :: more ∧
      ∀ tail, read (t.joined :: (more ++ tail)) = .ok (a, lineOf region rest ++ tail)

theorem beginsLine_of_closes {α : Type} (region : Region)
    {read : List Token → Except Token (α × List Token)} (hCloses : Parser.Closes region.ends read)
    (hRegion : ∀ ts, region.itemRest? ts = restOf (read ts)) : BeginsLine region read := by
  intro t r a rest hEnd hRead
  have hItem : region.itemRest? (t :: r) = some rest :=
    (hRegion _).trans (restOf_eq_some_iff.mpr ⟨a, hRead⟩)
  have hSemicolon : region.ends (.punct .semicolon) = true := by
    unfold Region.ends
    split <;> rfl
  have hShorter := Region.length_lt_of_itemRest? hItem
  obtain ⟨more, hMore⟩ := exists_closed_eq_cons region.ends hShorter
  have hLine := lineOf_item hEnd hItem
  have hClosed := read_closed hCloses hSemicolon hRead
  rw [hMore] at hLine hClosed
  refine ⟨hShorter, onLine more ++ lineOf region rest, hLine, fun tail => ?_⟩
  rw [List.append_assoc]
  exact hClosed (lineOf region rest ++ tail)

theorem itemRest?_eq_none {α : Type} {region : Region} {ts : List Token} {t : Token}
    {read : List Token → Except Token (α × List Token)}
    (hRegion : region.itemRest? ts = restOf (read ts)) (hRead : read ts = .error t) :
    region.itemRest? ts = none := by
  rw [hRegion, hRead]
  rfl

theorem statementFrom_of_punct {t : Token} {p : Punct} (r : List Token) (hKind : t.kind = .punct p)
    (hp : p = .rbrace ∨ p = .semicolon) : statementFrom (t :: r) = .error t := by
  have hExpr : reading (expression (t :: r)) = .error t := by
    have hPrimary : reading (primary t r) = .error t := by
      rw [reading_primary, hKind]
      rcases hp with rfl | rfl <;> rfl
    have hOperand : reading (operand (t :: r)) = .error t := by
      rw [reading_operand_cons, hKind]
      rcases hp with rfl | rfl <;> exact congrArg (· >>= _) hPrimary
    exact (reading_exprAt anyLevel (t :: r)).trans (congrArg (· >>= _) hOperand)
  rw [statementFrom, reading_statement, hKind]
  exact congrArg (· >>= _) hExpr

/-- The reader of a body takes one item after another, up to the closing brace. -/
structure Loops {α : Type} (skips : TokenKind → Bool)
    (item : List Token → Except Token (α × List Token))
    (loop : List Token → Except Token (List α × List Token)) : Prop where
  nil : loop [] = .error noToken
  cons (t : Token) (r : List Token) : loop (t :: r) =
    if t.kind = .punct .rbrace then .ok ([], r)
    else if t.kind = .endOfInput then .error t
    else if skips t.kind then loop r
    else (do
      let (a, r) ← item (t :: r)
      let (as, r) ← loop r
      return (a :: as, r))

theorem Loops.line {α : Type} {region : Region} {skips : TokenKind → Bool}
    {item : List Token → Except Token (α × List Token)}
    {loop : List Token → Except Token (List α × List Token)} (hLoop : Loops skips item loop)
    (hItem : BeginsLine region item)
    (hNone : ∀ {t : Token} (r : List Token), t.kind = .punct .rbrace ∨ skips t.kind = true →
      region.itemRest? (t :: r) = none)
    (hNext : ∀ {k : TokenKind}, skips k = true → region.next k = region)
    (ts : List Token) {as : List α} {rest : List Token} (h : loop ts = .ok (as, rest))
    (tail : List Token) :
    loop (lineOf region ts ++ tail) =
      .ok (as, lineOf (region.next (.punct .rbrace)) rest ++ tail) := by
  -- The induction follows the loop. A closing brace leaves the region, a skipped token stays in it,
  -- and an item leaves the line of the tokens that the loop goes on with.
  match ts with
  | [] =>
    rw [hLoop.nil] at h
    cases h
  | t :: r =>
    rw [hLoop.cons] at h
    split at h
    · rename_i hKind
      have hCopied := hNone r (.inl hKind)
      cases h
      rw [lineOf_copied (by simp [hKind]) hCopied, hKind, List.cons_append, hLoop.cons]
      exact if_pos hKind
    · rename_i hBrace
      split at h
      · cases h
      · rename_i hEnd
        split at h
        · rename_i hSkip
          rw [lineOf_copied hEnd (hNone r (.inr hSkip)), hNext hSkip, List.cons_append, hLoop.cons]
          refine (if_neg hBrace).trans ((if_neg hEnd).trans ((if_pos hSkip).trans ?_))
          exact hLoop.line hItem hNone hNext r h tail
        · rename_i hSkip
          obtain ⟨⟨a, r₁⟩, hFirst, hMore⟩ := Outcome.bind_eq_ok_iff.mp h
          obtain ⟨⟨as', r₂⟩, hRest, hSame⟩ := Outcome.bind_eq_ok_iff.mp hMore
          cases hSame
          obtain ⟨hShorter, more, hLine, hRead⟩ := hItem hEnd hFirst
          rw [hLine, List.cons_append, hLoop.cons]
          refine (if_neg hBrace).trans ((if_neg hEnd).trans ((if_neg hSkip).trans ?_))
          refine (congrArg (· >>= _) (hRead tail)).trans ?_
          exact congrArg (· >>= fun p => pure (a :: p.1, p.2))
            (hLoop.line hItem hNone hNext r₁ hRest tail)
termination_by ts.length
decreasing_by
  · exact hShorter
  · exact length_lt_cons t r

theorem loops_statements (what : Text) :
    Loops isSemicolon statementFrom fun ts => reading (statements what ts) where
  nil := reading_statements_nil what
  cons t r := by
    rw [reading_statements_cons]
    simp only [isSemicolon, decide_eq_true_eq]
    rfl

theorem statements_line {what : Text} {ts : List Token} {ss : List Statement} {rest : List Token}
    (h : reading (statements what ts) = .ok (ss, rest)) (tail : List Token) :
    reading (statements what (lineOf (.body .method) ts ++ tail)) =
      .ok (ss, lineOf (.body .cls) rest ++ tail) := by
  refine (loops_statements what).line (beginsLine_of_closes (.body .method) closes_statementFrom
    fun _ => rfl) (fun r hKind => ?_) (fun hSkip => ?_) ts h tail
  · rcases hKind with hKind | hKind
    · exact itemRest?_eq_none rfl (statementFrom_of_punct r hKind (.inl rfl))
    · exact itemRest?_eq_none rfl (statementFrom_of_punct r (of_decide_eq_true hKind) (.inr rfl))
  · rw [of_decide_eq_true hSkip]
    rfl

theorem lineOf_head {b : Body} {used : List Token} (rest : List Token)
    (h : ∀ t ∈ used, inHead t.kind = true) :
    lineOf (.head b) (used ++ rest) = onLine used ++ lineOf (.head b) rest := by
  induction used with
  | nil => rfl
  | cons t used ih =>
    obtain ⟨ht, hUsed⟩ := List.forall_mem_cons.mp h
    simp only [inHead, Bool.and_eq_true, decide_eq_true_eq] at ht
    have hNext : Region.next (.head b) t.kind = .head b := by
      unfold Region.next
      split
      all_goals first | rfl | simp_all
    rw [List.cons_append, lineOf_copied ht.2 rfl, hNext, ih hUsed]
    rfl

theorem lineOf_open {b : Body} {t : Token} (r : List Token) (hKind : t.kind = .punct .lbrace) :
    lineOf (.head b) (t :: r) = t.joined :: lineOf (.body b) r := by
  rw [lineOf_copied (by simp [hKind]) rfl, hKind]
  rfl

theorem opened_line {α β γ : Type} {b : Body} {outer : Region}
    {head : List Token → Except Token (α × List Token)}
    {body : List Token → Except Token (β × List Token)} {build : α → β → γ}
    (hHead : Copies (· = .punct .lbrace) inHead head)
    (hBody : ∀ {ts bs rest}, body ts = .ok (bs, rest) → ∀ tail,
      body (lineOf (.body b) ts ++ tail) = .ok (bs, lineOf outer rest ++ tail))
    {ts rest : List Token} {c : γ} (h : opened head body build ts = .ok (c, rest))
    (tail : List Token) :
    opened head body build (lineOf (.head b) ts ++ tail) = .ok (c, lineOf outer rest ++ tail) := by
  obtain ⟨⟨a, r⟩, hFirst, hMore⟩ := Outcome.bind_eq_ok_iff.mp h
  obtain ⟨⟨t, r'⟩, hOpen, hMore⟩ := Outcome.bind_eq_ok_iff.mp hMore
  obtain ⟨⟨bs, r''⟩, hRead, hSame⟩ := Outcome.bind_eq_ok_iff.mp hMore
  cases hSame
  obtain ⟨rfl, ht⟩ := word_eq_ok_iff.mp hOpen
  have hKind : t.kind = .punct .lbrace := of_decide_eq_true ht
  obtain ⟨used, rfl, hOnly, hLine⟩ := hHead hFirst
  rw [lineOf_head _ hOnly, lineOf_open r' hKind, List.append_assoc, List.cons_append, opened,
    hLine (t.joined :: _) ht]
  show (kind (.punct .lbrace) (t.joined :: _) >>= fun p => body p.2 >>= fun q =>
    pure (build a q.1, q.2)) = _
  rw [kind_of_eq (t := t.joined) _ hKind]
  exact congrArg (· >>= fun q => pure (build a q.1, q.2)) (hBody hRead tail)

theorem method_line {name : Token} {ts : List Token} {m : MethodDecl} {rest : List Token}
    (h : reading (method name ts) = .ok (m, rest)) (tail : List Token) :
    reading (method name (lineOf (.head .method) ts ++ tail)) =
      .ok (m, lineOf (.body .cls) rest ++ tail) := by
  rw [reading_method_eq] at h ⊢
  exact opened_line copies_signature statements_line h tail

/-- The words before the name of a method. -/
def MethodWords (words : List Token) : Prop :=
  words = [] ∨ ∃ w, words = [w] ∧ w.kind = .keyword .kwPublic

theorem memberBody_eq_ok_method_iff {isStatic : Bool} {name : Token} {ts : List Token}
    {m : MethodDecl} {rest : List Token} :
    memberBody isStatic name ts = .ok (.method m, rest) ↔
      isStatic = false ∧ reading (method name ts) = .ok (m, rest) := by
  unfold memberBody
  constructor
  · intro h
    split at h
    · obtain ⟨_, _, hMore⟩ := Outcome.bind_eq_ok_iff.mp h
      obtain ⟨_, _, hMore⟩ := Outcome.bind_eq_ok_iff.mp hMore
      obtain ⟨_, _, hSame⟩ := Outcome.bind_eq_ok_iff.mp hMore
      cases hSame
    · split at h
      · split at h
        · cases h
        · rename_i hStatic
          obtain ⟨_, hMethod, hSame⟩ := Outcome.bind_eq_ok_iff.mp h
          cases hSame
          exact ⟨Bool.eq_false_iff.mpr hStatic, hMethod⟩
      · cases h
  · rintro ⟨rfl, hMethod⟩
    have hParen : Meets (· = .punct .lparen) ts := by
      rw [reading_method] at hMethod
      exact meets_of_kind hMethod rfl
    have hAt : atPunct .lparen ts = true := hParen
    rw [hParen.not_atPunct rfl, hAt, if_neg Bool.false_ne_true, if_pos rfl,
      if_neg Bool.false_ne_true]
    exact congrArg (· >>= fun p => pure (Member.method p.1, p.2)) hMethod

theorem exists_cons_of_atKeyword {k : Keyword} {ts : List Token} (h : atKeyword k ts = true) :
    ∃ t r, ts = t :: r ∧ t.kind = .keyword k := by
  cases ts with
  | nil => cases h
  | cons t r => exact ⟨t, r, rfl, of_decide_eq_true h⟩

theorem member_eq_ok_method_iff {ts : List Token} {m : MethodDecl} {rest : List Token} :
    reading (member ts) = .ok (.method m, rest) ↔
      ∃ words name r, ts = words ++ name :: r ∧ MethodWords words ∧ name.kind = .ident ∧
        reading (method name r) = .ok (m, rest) := by
  rw [reading_member]
  dsimp only
  constructor
  · intro h
    obtain ⟨⟨name, r⟩, hName, hBody⟩ := Outcome.bind_eq_ok_iff.mp h
    obtain ⟨hStatic, hMethod⟩ := memberBody_eq_ok_method_iff.mp hBody
    obtain ⟨hTokens, hKind⟩ := word_eq_ok_iff.mp hName
    have hSecond : (skipped (.keyword .kwPublic) ts).2 = name :: r := by
      cases hAt : atKeyword .kwStatic (skipped (.keyword .kwPublic) ts).2 with
      | true =>
        obtain ⟨w, r', hCons, hw⟩ := exists_cons_of_atKeyword hAt
        rw [hCons, skipped_of_at r' hw] at hStatic
        cases hStatic
      | false => rwa [skipped_of_not_at hAt] at hTokens
    cases hAt : atKeyword .kwPublic ts with
    | true =>
      obtain ⟨w, r', rfl, hw⟩ := exists_cons_of_atKeyword hAt
      rw [skipped_of_at r' hw] at hSecond
      exact ⟨[w], name, r, congrArg (w :: ·) hSecond, .inr ⟨w, rfl, hw⟩, of_decide_eq_true hKind,
        hMethod⟩
    | false =>
      rw [skipped_of_not_at hAt] at hSecond
      exact ⟨[], name, r, hSecond, .inl rfl, of_decide_eq_true hKind, hMethod⟩
  · rintro ⟨words, name, r, rfl, hWords, hKind, hMethod⟩
    have hNamed : ∀ k, skipped (.keyword k) (name :: r) = (false, name :: r) := fun k =>
      skipped_of_not_at (decide_eq_false (by simp [current, hKind]))
    have hBody : memberBody false name r = .ok (.method m, rest) :=
      memberBody_eq_ok_method_iff.mpr ⟨rfl, hMethod⟩
    have hPublic : (skipped (.keyword .kwPublic) (words ++ name :: r)).2 = name :: r := by
      rcases hWords with rfl | ⟨w, rfl, hw⟩
      · exact congrArg Prod.snd (hNamed _)
      · exact congrArg Prod.snd (skipped_of_at (name :: r) hw)
    rw [hPublic, hNamed, kind_of_eq r hKind]
    exact hBody

theorem method_joined (name : Token) (ts : List Token) :
    reading (method name.joined ts) = reading (method name ts) := by
  rw [reading_method, reading_method]
  rfl

theorem beginsLine_method {t : Token} {r : List Token} {m : MethodDecl} {rest : List Token}
    (h : reading (member (t :: r)) = .ok (.method m, rest)) :
    ∃ more, lineOf (.body .cls) (t :: r) = t.joined :: more ∧ ∀ tail,
      reading (member (t.joined :: (more ++ tail))) =
        .ok (.method m, lineOf (.body .cls) rest ++ tail) := by
  have hItem : Region.itemRest? (.body .cls) (t :: r) = none := by
    show restOf (propertyFrom (t :: r)) = none
    rw [propertyFrom, h]
    rfl
  obtain ⟨words, name, r₁, hTokens, hWords, hKind, hMethod⟩ := member_eq_ok_method_iff.mp h
  have hLine := method_line hMethod
  rcases hWords with rfl | ⟨w, rfl, hw⟩
  · obtain ⟨rfl, rfl⟩ := List.cons.inj hTokens
    have hNext : Region.next (.body .cls) t.kind = .head .method := by
      rw [hKind]
      rfl
    refine ⟨_, lineOf_copied (by simp [hKind]) hItem, fun tail => ?_⟩
    refine member_eq_ok_method_iff.mpr ⟨[], t.joined, _, rfl, .inl rfl, hKind, ?_⟩
    rw [hNext, method_joined]
    exact hLine tail
  · obtain ⟨rfl, rfl⟩ := List.cons.inj hTokens
    have hNext : Region.next (.body .cls) t.kind = .head .method := by
      rw [hw]
      rfl
    have hName : lineOf (.head .method) ([name] ++ r₁) =
        onLine [name] ++ lineOf (.head .method) r₁ :=
      lineOf_head r₁ (by simp [hKind, inHead])
    refine ⟨_, lineOf_copied (by simp [hw]) hItem, fun tail => ?_⟩
    refine member_eq_ok_method_iff.mpr ⟨[t.joined], name.joined, lineOf (.head .method) r₁ ++ tail,
      ?_, .inr ⟨t.joined, rfl, hw⟩, hKind, ?_⟩
    · rw [hNext]
      exact congrArg (fun line => t.joined :: (line ++ tail)) hName
    · rw [method_joined]
      exact hLine tail

theorem member_of_punct {t : Token} {p : Punct} (r : List Token) (hKind : t.kind = .punct p) :
    reading (member (t :: r)) = .error t := by
  have hStay : ∀ k, skipped (.keyword k) (t :: r) = (false, t :: r) := fun k =>
    skipped_of_not_at (decide_eq_false (by simp [current, hKind]))
  rw [reading_member, hStay]
  dsimp only
  rw [hStay, kind_of_ne r (by simp [hKind])]
  rfl

theorem beginsLine_member : BeginsLine (.body .cls) fun ts => reading (member ts) := by
  intro t r m rest hEnd hRead
  refine ⟨length_lt_of_reading hRead, ?_⟩
  cases m with
  | method m => exact beginsLine_method hRead
  | property p =>
    obtain ⟨_, more, hLine, hRest⟩ := beginsLine_of_closes (.body .cls) closes_propertyFrom
      (fun _ => rfl) hEnd (propertyFrom_eq_ok_iff.mpr hRead)
    exact ⟨more, hLine, fun tail => propertyFrom_eq_ok_iff.mp (hRest tail)⟩

theorem loops_members :
    Loops isSemicolon (fun ts => reading (member ts)) fun ts => reading (members ts) where
  nil := reading_members_nil
  cons t r := by
    rw [reading_members_cons]
    simp only [isSemicolon, decide_eq_true_eq]

theorem members_line {ts : List Token} {ms : List Member} {rest : List Token}
    (h : reading (members ts) = .ok (ms, rest)) (tail : List Token) :
    reading (members (lineOf (.body .cls) ts ++ tail)) = .ok (ms, lineOf .file rest ++ tail) := by
  have hPunct : ∀ {t : Token} {p : Punct} (r : List Token), t.kind = .punct p →
      Region.itemRest? (.body .cls) (t :: r) = none := by
    intro t p r hKind
    refine itemRest?_eq_none (t := t) rfl ?_
    rw [propertyFrom, member_of_punct r hKind]
    rfl
  refine loops_members.line beginsLine_member (fun r hKind => ?_) (fun hSkip => ?_) ts h tail
  · rcases hKind with hKind | hKind
    · exact hPunct r hKind
    · exact hPunct r (of_decide_eq_true hKind)
  · rw [of_decide_eq_true hSkip]
    rfl

theorem loops_interfaceFields :
    Loops (fun _ => false) fieldFrom fun ts => reading (interfaceFields ts) where
  nil := by
    rw [reading_interfaceFields]
    rfl
  cons t r := by
    rw [reading_interfaceFields, fieldFrom]
    by_cases hBrace : t.kind = .punct .rbrace
    · have hAt : atPunct .rbrace (t :: r) = true := decide_eq_true hBrace
      rw [hAt, kind_of_eq r hBrace, if_pos hBrace]
      rfl
    · have hAt : atPunct .rbrace (t :: r) = false := decide_eq_false hBrace
      rw [hAt, kind_of_ne r hBrace, if_neg hBrace]
      simp only [bind_assoc, pure_bind]
      by_cases hEnd : t.kind = .endOfInput
      · rw [if_pos hEnd]
        exact if_pos (decide_eq_true hEnd)
      · rw [if_neg hEnd]
        exact if_neg (by simpa [atKind, current] using hEnd)

theorem interfaceFields_line {ts : List Token} {fs : List FieldDecl} {rest : List Token}
    (h : reading (interfaceFields ts) = .ok (fs, rest)) (tail : List Token) :
    reading (interfaceFields (lineOf (.body .interface) ts ++ tail)) =
      .ok (fs, lineOf .file rest ++ tail) := by
  refine loops_interfaceFields.line (beginsLine_of_closes (.body .interface) closes_fieldFrom
    fun _ => rfl) (fun {t} r hKind => ?_) nofun ts h tail
  have hBrace : t.kind = .punct .rbrace := hKind.resolve_right Bool.false_ne_true
  refine itemRest?_eq_none (t := t) rfl ?_
  rw [fieldFrom, reading_field, kind_of_ne r (by simp [hBrace])]
  rfl

/-- The kinds that are copied between declarations. -/
def opensDeclaration (k : TokenKind) : Bool := k ≠ .keyword .kwImport && k ≠ .endOfInput

theorem lineOf_file {t : Token} (r : List Token) (h : opensDeclaration t.kind = true) :
    lineOf .file (t :: r) = t.joined :: lineOf (Region.next .file t.kind) r := by
  simp only [opensDeclaration, Bool.and_eq_true, decide_eq_true_eq] at h
  have hRead : reading (importDecl (t :: r)) = .error t := by
    rw [reading_importDecl, kind_of_ne r h.1]
    rfl
  exact lineOf_copied h.2 (congrArg restOf hRead)

theorem exists_cons_of_opens {ts : List Token} (h : Meets opensDeclaration ts) :
    ∃ t r, ts = t :: r := by
  cases ts with
  | nil => cases h
  | cons t r => exact ⟨t, r, rfl⟩

theorem classDecl_line {isExported isDefault : Bool} {t : Token} {r : List Token} {c : ClassDecl}
    {rest : List Token} (hKind : t.kind = .keyword .kwClass)
    (h : reading (classDecl isExported isDefault (t :: r)) = .ok (c, rest)) (tail : List Token) :
    reading (classDecl isExported isDefault (t.joined :: (lineOf (.head .cls) r ++ tail))) =
      .ok (c, lineOf .file rest ++ tail) := by
  rw [reading_classDecl_cons _ _ _ hKind] at h
  rw [reading_classDecl_cons (t := t.joined) _ _ _ hKind]
  exact opened_line copies_className members_line h tail

theorem interfaceDecl_line {isExported : Bool} {t : Token} {r : List Token} {i : InterfaceDecl}
    {rest : List Token} (hKind : t.kind = .keyword .kwInterface)
    (h : reading (interfaceDecl isExported (t :: r)) = .ok (i, rest)) (tail : List Token) :
    reading (interfaceDecl isExported (t.joined :: (lineOf (.head .interface) r ++ tail))) =
      .ok (i, lineOf .file rest ++ tail) := by
  rw [reading_interfaceDecl_cons _ _ hKind] at h
  rw [reading_interfaceDecl_cons (t := t.joined) _ _ hKind]
  exact opened_line copies_interfaceName interfaceFields_line h tail

theorem declared_class {isExported isDefault : Bool} {t : Token} (r : List Token)
    (h : t.kind = .keyword .kwClass) :
    declared isExported isDefault (t :: r) =
      reading (classDecl isExported isDefault (t :: r)) >>= fun p => pure (.cls p.1, p.2) := by
  rw [declared, show (current (t :: r)).kind = _ from h]

theorem declared_interface {isExported isDefault : Bool} {t : Token} (r : List Token)
    (h : t.kind = .keyword .kwInterface) :
    declared isExported isDefault (t :: r) =
      if isDefault then .error t
      else reading (interfaceDecl isExported (t :: r)) >>= fun p => pure (.interface p.1, p.2) := by
  rw [declared, show (current (t :: r)).kind = _ from h]
  rfl

theorem declared_line {isExported isDefault : Bool} {ts : List Token} {d : Declaration}
    {rest : List Token} (h : declared isExported isDefault ts = .ok (d, rest)) :
    Meets opensDeclaration ts ∧ ∀ tail,
      declared isExported isDefault (lineOf .file ts ++ tail) =
        .ok (d, lineOf .file rest ++ tail) := by
  have hOpens : Meets opensDeclaration ts := by
    unfold declared at h
    unfold Meets
    split at h
    · rename_i hKind
      rw [hKind]
      rfl
    · rename_i hKind
      rw [hKind]
      rfl
    · cases h
  refine ⟨hOpens, fun tail => ?_⟩
  obtain ⟨t, r, rfl⟩ := exists_cons_of_opens hOpens
  have hLine := lineOf_file (t := t) r hOpens
  unfold declared at h
  split at h
  · rename_i hKind
    have hKind : t.kind = .keyword .kwClass := hKind
    obtain ⟨⟨c, r'⟩, hRead, hSame⟩ := Outcome.bind_eq_ok_iff.mp h
    cases hSame
    rw [hLine, hKind, List.cons_append, declared_class (t := t.joined) _ hKind]
    exact congrArg (· >>= fun p => pure (Declaration.cls p.1, p.2))
      (classDecl_line hKind hRead tail)
  · rename_i hKind
    have hKind : t.kind = .keyword .kwInterface := hKind
    split at h
    · cases h
    · rename_i hDefault
      obtain ⟨⟨i, r'⟩, hRead, hSame⟩ := Outcome.bind_eq_ok_iff.mp h
      cases hSame
      rw [hLine, hKind, List.cons_append, declared_interface (t := t.joined) _ hKind,
        if_neg hDefault]
      exact congrArg (· >>= fun p => pure (Declaration.interface p.1, p.2))
        (interfaceDecl_line hKind hRead tail)
  · cases h

theorem skipped_line {k : Keyword} {ts : List Token} (hOpens : opensDeclaration (.keyword k) = true)
    (hNext : Region.next .file (.keyword k) = .file)
    (h : Meets opensDeclaration (skipped (.keyword k) ts).2) :
    Meets opensDeclaration ts ∧ ∀ tail, skipped (.keyword k) (lineOf .file ts ++ tail) =
      ((skipped (.keyword k) ts).1, lineOf .file (skipped (.keyword k) ts).2 ++ tail) := by
  cases hAt : atKeyword k ts with
  | true =>
    obtain ⟨t, r, rfl, hKind⟩ := exists_cons_of_atKeyword hAt
    have hHere : opensDeclaration t.kind = true := by rwa [hKind]
    refine ⟨hHere, fun tail => ?_⟩
    rw [lineOf_file r hHere, hKind, hNext, skipped_of_at r hKind, List.cons_append]
    exact skipped_of_at (t := t.joined) _ hKind
  | false =>
    rw [skipped_of_not_at hAt] at h ⊢
    obtain ⟨t, r, rfl⟩ := exists_cons_of_opens h
    refine ⟨h, fun tail => ?_⟩
    rw [lineOf_file (t := t) r h]
    exact skipped_of_not_at hAt

theorem exportedAs_eq_skipped (ts : List Token) :
    exportedAs ts =
      let (isExported, r) := skipped (.keyword .kwExport) ts
      if isExported then
        ((true, (skipped (.keyword .kwDefault) r).1), (skipped (.keyword .kwDefault) r).2)
      else ((false, false), r) := by
  rw [exportedAs_eq]
  cases hAt : atKeyword .kwExport ts with
  | true =>
    obtain ⟨t, r, rfl, hKind⟩ := exists_cons_of_atKeyword hAt
    rw [skipped_of_at r hKind]
    rfl
  | false =>
    rw [skipped_of_not_at hAt]
    rfl

theorem exportedAs_line {ts : List Token} (h : Meets opensDeclaration (exportedAs ts).2) :
    Meets opensDeclaration ts ∧ ∀ tail, exportedAs (lineOf .file ts ++ tail) =
      ((exportedAs ts).1, lineOf .file (exportedAs ts).2 ++ tail) := by
  have hWord := @skipped_line .kwExport ts rfl rfl
  rw [exportedAs_eq_skipped] at h ⊢
  dsimp only at h ⊢
  cases hFound : (skipped (.keyword .kwExport) ts).1 with
  | true =>
    rw [hFound] at h hWord
    obtain ⟨hRest, hDefault⟩ := skipped_line rfl rfl h
    obtain ⟨hHere, hExport⟩ := hWord hRest
    refine ⟨hHere, fun tail => ?_⟩
    rw [exportedAs_eq_skipped, hExport tail]
    dsimp only
    rw [if_pos rfl, if_pos rfl, hDefault tail]
  | false =>
    rw [hFound] at h hWord
    obtain ⟨hHere, hExport⟩ := hWord h
    refine ⟨hHere, fun tail => ?_⟩
    rw [exportedAs_eq_skipped, hExport tail]
    rfl

theorem beginsLine_declaration : BeginsLine .file fun ts => reading (declaration ts) := by
  intro t r d rest _ hRead
  have hShorter := length_lt_of_reading hRead
  dsimp only at hRead ⊢
  rw [reading_declaration] at hRead
  obtain ⟨hRest, hDeclared⟩ := declared_line hRead
  obtain ⟨hHere, hWords⟩ := exportedAs_line hRest
  have hLine := lineOf_file (t := t) r hHere
  refine ⟨hShorter, _, hLine, fun tail => ?_⟩
  rw [← List.cons_append, ← hLine, reading_declaration, hWords tail]
  exact hDeclared tail

theorem declarations_line (ts : List Token) {ds : List Declaration}
    (h : located (declarations ts) = .ok ds) {stop : Token} (hStop : stop.kind = .endOfInput) :
    located (declarations (lineOf .file ts ++ [stop])) = .ok ds := by
  have hNil : located (declarations [stop]) = .ok [] := by
    rw [located_declarations_cons, if_pos hStop]
  match ts with
  | [] =>
    rw [located_declarations_nil] at h
    cases h
    rw [lineOf_nil]
    exact hNil
  | t :: r =>
    rw [located_declarations_cons] at h
    split at h
    · rename_i hEnd
      cases h
      rw [lineOf_of_end hEnd]
      exact hNil
    · rename_i hEnd
      split at h
      · rename_i hKind
        have hHere : opensDeclaration t.kind = true := by rw [hKind]; rfl
        rw [lineOf_file r hHere, hKind, List.cons_append, located_declarations_cons]
        refine (if_neg hEnd).trans ((if_pos hKind).trans ?_)
        exact declarations_line r h hStop
      · rename_i hSemicolon
        obtain ⟨⟨d, r'⟩, hFirst, hMore⟩ := Outcome.bind_eq_ok_iff.mp h
        obtain ⟨ds', hRest, hSame⟩ := Outcome.bind_eq_ok_iff.mp hMore
        cases hSame
        obtain ⟨hShorter, more, hLine, hRead⟩ := beginsLine_declaration hEnd hFirst
        rw [hLine, List.cons_append, located_declarations_cons]
        refine (if_neg hEnd).trans ((if_neg hSemicolon).trans ?_)
        refine (congrArg (· >>= _) (hRead [stop])).trans ?_
        exact congrArg (· >>= fun ds => pure (d :: ds)) (declarations_line r' hRest hStop)
termination_by ts.length
decreasing_by
  · exact hShorter
  · exact length_lt_cons t r

theorem beginsLine_importDecl : BeginsLine .file fun ts => reading (importDecl ts) :=
  beginsLine_of_closes .file closes_importDecl fun _ => rfl

theorem importDecls_line (ts : List Token) {ds : List ImportDecl} {rest : List Token}
    (h : reading (importDecls ts) = .ok (ds, rest)) {stop : Token}
    (hStop : stop.kind = .endOfInput) :
    reading (importDecls (lineOf .file ts ++ [stop])) = .ok (ds, lineOf .file rest ++ [stop]) := by
  rw [reading_importDecls] at h
  split at h
  · rename_i hAt
    obtain ⟨t, r, rfl, hKind⟩ := exists_cons_of_atKeyword hAt
    obtain ⟨⟨d, r'⟩, hFirst, hMore⟩ := Outcome.bind_eq_ok_iff.mp h
    obtain ⟨⟨ds', r''⟩, hRest, hSame⟩ := Outcome.bind_eq_ok_iff.mp hMore
    cases hSame
    obtain ⟨hShorter, more, hLine, hRead⟩ := beginsLine_importDecl (by simp [hKind]) hFirst
    rw [hLine, List.cons_append, reading_importDecls]
    refine (if_pos hAt).trans ((congrArg (· >>= _) (hRead [stop])).trans ?_)
    exact congrArg (· >>= fun p => pure (d :: p.1, p.2)) (importDecls_line r' hRest hStop)
  · rename_i hAt
    cases h
    have hEnd : atKeyword .kwImport [stop] = false := decide_eq_false (by simp [current, hStop])
    have hHere : atKeyword .kwImport (lineOf .file ts ++ [stop]) = false := by
      cases ts with
      | nil => rwa [lineOf_nil]
      | cons t r =>
        by_cases hKind : t.kind = .endOfInput
        · rwa [lineOf_of_end hKind]
        · have hImport : t.kind ≠ .keyword .kwImport := fun h => hAt (decide_eq_true h)
          rw [lineOf_file r (by simp [opensDeclaration, hKind, hImport])]
          exact decide_eq_false hImport
    rw [reading_importDecls, hHere]
    rfl
termination_by ts.length

theorem file_line {ts : List Token} {f : File} (h : located (file ts) = .ok f) {stop : Token}
    (hStop : stop.kind = .endOfInput) : located (file (lineOf .file ts ++ [stop])) = .ok f := by
  rw [located_file] at h ⊢
  obtain ⟨⟨imports, r⟩, hImports, hMore⟩ := Outcome.bind_eq_ok_iff.mp h
  obtain ⟨ds, hDeclarations, hSame⟩ := Outcome.bind_eq_ok_iff.mp hMore
  cases hSame
  rw [importDecls_line ts hImports hStop]
  exact congrArg (· >>= fun ds => pure (File.mk imports (ds.filterMap Declaration.class?)
    (ds.filterMap Declaration.interface?))) (declarations_line r hDeclarations hStop)

end AnchorScript.Syntax
