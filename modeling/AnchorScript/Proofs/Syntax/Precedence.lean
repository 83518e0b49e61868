import AnchorScript.Proofs.Syntax.Grammar
import AnchorScript.Proofs.Token.Words

/-!
# The expressions that are read

The reader of expressions accepts exactly the spellings of stratified trees: it takes the tokens of
the tree it returns and no other, and from any spelling, with nothing behind it that continues an
expression, it gets the tree back. It makes no tree that needs brackets it does not have: the left
operand of an operator binds at least as tightly as the operator, the right operand tighter, and a
prefix operator stands before another one or an expression without operators outside brackets.
Names and numbers are words.
-/

namespace AnchorScript.Syntax

open Outcome

namespace Parser

/-- No operator or postfix at the front continues an expression. -/
def Ends (ts : List Token) : Prop :=
  ∀ t r, ts = t :: r → startsPostfix t = false ∧ Infix.ofKind? t.kind = none

theorem ends_iff {ts : List Token} : Ends ts ↔ NoPostfix ts ∧ LooserNext anyLevel ts := by
  constructor
  · intro h
    refine ⟨fun t r hts => (h t r hts).1, fun t r i hts hInfix => ?_⟩
    rw [(h t r hts).2] at hInfix
    cases hInfix
  · rintro ⟨hPostfix, hLooser⟩ t r hts
    refine ⟨hPostfix t r hts, Option.eq_none_iff_forall_ne_some.mpr fun i hInfix => ?_⟩
    have hLoose : i.level < 1 := hLooser t r i hts hInfix
    have hTwo := i.two_le_level
    omega

theorem ends_cons {t : Token} {r : List Token} {p : Punct} (hKind : t.kind = .punct p)
    (hPunct : p = .comma ∨ p = .rparen ∨ p = .rbracket) : Ends (t :: r) := by
  rintro _ _ hSame
  cases hSame
  rcases hPunct with rfl | rfl | rfl <;> simp [startsPostfix, hKind, Infix.ofKind?]

theorem startsPostfix_eq_false {t : Token} {i : Infix} (h : Infix.ofKind? t.kind = some i) :
    startsPostfix t = false := by
  simp only [startsPostfix, Bool.or_eq_false_iff, Bool.and_eq_false_iff, decide_eq_false_iff_not]
  refine ⟨?_, .inl ⟨?_, ?_⟩⟩
  all_goals
    intro hKind
    rw [hKind] at h
    cases h

/-- The reader of expressions refuses a closing bracket. -/
theorem atPunct_eq_false_of_yields {closing : Punct}
    (hClosing : closing = .rparen ∨ closing = .rbracket) {min : Nat} {ts : List Token} {e : Expr}
    {rest : List Token} (h : Yields (exprAt min ts) e rest) : atPunct closing ts = false := by
  rw [Bool.eq_false_iff]
  intro hAt
  obtain ⟨t, r, rfl, hKind⟩ := exists_cons_of_atPunct hAt
  obtain ⟨left, r', hLeft, _⟩ := exprAt_yields_iff.mp h
  rcases operand_cons_yields_iff.mp hLeft with ⟨op, _, hOp, _⟩ | ⟨_, first, r₁, hFirst, _⟩
  · rw [hKind] at hOp
    rcases hClosing with rfl | rfl <;> cases hOp
  · cases primary_of_yields hFirst <;> rcases hClosing with rfl | rfl <;> simp_all

theorem postfixes_of_noPostfix {e : Expr} {rest : List Token} (h : NoPostfix rest) :
    Yields (postfixes e rest) e rest := by
  cases rest with
  | nil => exact postfixes_nil_yields_iff.mpr ⟨rfl, rfl⟩
  | cons t r => exact postfixes_cons_yields_iff.mpr (.inr ⟨h t r rfl, rfl, rfl⟩)

theorem climb_of_looserNext {min : Nat} {e : Expr} {rest : List Token} (h : LooserNext min rest) :
    Yields (climb min e rest) e rest := by
  cases rest with
  | nil => exact climb_nil_yields_iff.mpr ⟨rfl, rfl⟩
  | cons t r => exact climb_cons_yields_iff.mpr (.inr ⟨fun i hi => h t r i rfl hi, rfl, rfl⟩)

/-- The tokens read back as the expression wherever an expression of its level may stand. The reader
may go on behind it: with a postfix, or with operators that do not bind tighter. -/
structure ReadBack (e : Expr) (ts : List Token) : Prop where
  simple : e.level = 9 → ∀ {rest e' rest'}, Yields (postfixes e rest) e' rest' →
    Yields (operand (ts ++ rest)) e' rest'
  operand : 8 ≤ e.level → ∀ {rest}, NoPostfix rest → Yields (operand (ts ++ rest)) e rest
  expr : ∀ {min rest e' rest'}, min ≤ e.level → LooserNext e.followLevel rest → NoPostfix rest →
    Yields (climb min e rest) e' rest' → Yields (exprAt min (ts ++ rest)) e' rest'

namespace ReadBack

theorem of_operand {e : Expr} {ts : List Token} (hLevel : e.level = 8)
    (hOperand : ∀ {rest}, NoPostfix rest → Yields (Parser.operand (ts ++ rest)) e rest) :
    ReadBack e ts where
  simple := by
    intro hNine
    omega
  operand _ := hOperand
  expr _ _ hPostfix hClimb := exprAt_yields_iff.mpr ⟨e, _, hOperand hPostfix, hClimb⟩

theorem of_simple {e : Expr} {ts : List Token}
    (hSimple : ∀ {rest e' rest'}, Yields (postfixes e rest) e' rest' →
      Yields (Parser.operand (ts ++ rest)) e' rest') : ReadBack e ts where
  simple _ _ _ _ := hSimple
  operand _ _ hPostfix := hSimple (postfixes_of_noPostfix hPostfix)
  expr _ _ hPostfix hClimb :=
    exprAt_yields_iff.mpr ⟨e, _, hSimple (postfixes_of_noPostfix hPostfix), hClimb⟩

theorem of_primary {e : Expr} {t : Token} {ts : List Token} (hOp : unaryOp? t.kind = none)
    (h : ∀ rest, Primary t (ts ++ rest) e rest) : ReadBack e (t :: ts) :=
  of_simple fun {rest _ _} hRest =>
    operand_cons_yields_iff.mpr (.inr ⟨hOp, e, rest, yields_of_primary (h rest), hRest⟩)

theorem of_extended {e next : Expr} {os ts : List Token} (h : ReadBack e os) (hLevel : e.level = 9)
    (hNext : ∀ rest, Postfix e (ts ++ rest) next rest) : ReadBack next (os ++ ts) := by
  refine of_simple fun {rest e' rest'} hRest => ?_
  rw [List.append_assoc]
  refine h.simple hLevel ?_
  have hPostfix := hNext rest
  cases hTokens : ts ++ rest with
  | nil =>
    rw [hTokens] at hPostfix
    cases hPostfix
  | cons t r =>
    rw [hTokens] at hPostfix
    exact postfixes_cons_yields_iff.mpr (.inl ⟨next, rest, hPostfix, hRest⟩)

/-- With nothing behind it that continues an expression, the tree is read as it stands. -/
theorem whole {e : Expr} {ts rest : List Token} (h : ReadBack e ts) (hEnds : Ends rest) :
    Yields (exprAt anyLevel (ts ++ rest)) e rest := by
  obtain ⟨hPostfix, hLooser⟩ := ends_iff.mp hEnds
  have hLevel : anyLevel ≤ e.level := Nat.le_of_succ_le e.two_le_level
  have hNext := hLooser.mono (Nat.le_trans hLevel e.level_le_followLevel)
  exact h.expr hLevel hNext hPostfix (climb_of_looserNext hLooser)

theorem of_joined {i : Infix} {left right : Expr} {t : Token} {ls rs : List Token}
    (hOp : Infix.ofKind? t.kind = some i) (hLeft : ReadBack left ls) (hRight : ReadBack right rs)
    (hLeftLevel : i.leftLevel ≤ left.level) (hRightLevel : i.rightLevel ≤ right.level) :
    ReadBack (i.apply left right) (ls ++ t :: rs) where
  simple := by
    rw [i.level_apply]
    have hSeven := i.level_le
    omega
  operand := by
    rw [i.level_apply]
    have hSeven := i.level_le
    omega
  expr {min rest e' rest'} hMin hLooser hPostfix hClimb := by
    rw [i.level_apply] at hMin
    rw [i.followLevel_apply] at hLooser
    have hRead : Yields (exprAt i.rightLevel (rs ++ rest)) right rest :=
      hRight.expr hRightLevel
        (hLooser.mono (Nat.le_trans hRightLevel right.level_le_followLevel)) hPostfix
        (climb_of_looserNext hLooser)
    have hNext : LooserNext left.followLevel (t :: rs ++ rest) := by
      rintro _ _ i' hSame hOp'
      cases hSame
      rw [hOp] at hOp'
      cases hOp'
      exact i.lt_followLevel_iff.mpr hLeftLevel
    have hNoPostfix : NoPostfix (t :: rs ++ rest) := by
      rintro _ _ hSame
      cases hSame
      exact startsPostfix_eq_false hOp
    rw [List.append_assoc]
    refine hLeft.expr (Nat.le_trans (Nat.le_trans hMin i.level_le_leftLevel) hLeftLevel) hNext
      hNoPostfix ?_
    exact climb_cons_yields_iff.mpr (.inl ⟨i, right, rest, hOp, hMin, hRead, hClimb⟩)

end ReadBack

theorem exprsUntil_of_separated {closing : Punct} {what : Text}
    (hClosing : closing = .rparen ∨ closing = .rbracket) {parts : List (Expr × List Token)}
    {ts : List Token} (hList : Expr.Separated closing (parts.map Prod.snd) ts)
    (hParts : ∀ e ∈ parts, ReadBack e.1 e.2) (rest : List Token) :
    Yields (exprsUntil closing what (ts ++ rest)) (parts.map Prod.fst) rest := by
  induction parts generalizing ts with
  | nil =>
    cases hList with
    | nil hClose => exact yields_of_listRead (.nil rfl hClose)
  | cons e parts ih =>
    obtain ⟨hFirst, hOthers⟩ := List.forall_mem_cons.mp hParts
    generalize hTokens : (e :: parts).map Prod.snd = texts at hList
    cases hList with
    | nil => cases hTokens
    | @last _ close hClose =>
      obtain rfl : parts = [] := by simpa using (List.cons.inj hTokens).2
      obtain rfl : e.2 = _ := (List.cons.inj hTokens).1
      have hEnds : Ends (close :: rest) := ends_cons hClose (.inr hClosing)
      have hRead := hFirst.whole hEnds
      rw [List.append_assoc]
      refine yields_of_listRead (.last (atPunct_eq_false_of_yields hClosing hRead) hRead ?_ hClose)
      rw [hClose]
      rcases hClosing with rfl | rfl <;> decide
    | @cons _ comma _ ts hComma hRest =>
      obtain ⟨rfl, rfl⟩ := List.cons.inj hTokens
      have hRead := hFirst.whole (ends_cons (r := ts ++ rest) hComma (.inl rfl))
      rw [List.append_assoc]
      exact yields_of_listRead (.cons (atPunct_eq_false_of_yields hClosing hRead) hRead hComma
        (ih hRest hOthers))

theorem readBack_of_spelledBy {e : Expr} {ts : List Token} (h : e.SpelledBy ts)
    (hStratified : e.Stratified) : ReadBack e ts := by
  induction h with
  | name hKind => exact .of_primary (by rw [hKind]; rfl) fun _ => .name hKind
  | number hKind => exact .of_primary (by rw [hKind]; rfl) fun _ => .number hKind
  | string hKind hValue => exact .of_primary (by rw [hKind]; rfl) fun _ => .string hKind hValue
  | @bool t value hKind =>
    exact .of_primary (by rw [hKind]; rfl) fun _ => .bool hKind
  | array hKind _ hList ih =>
    cases hStratified with
    | array hElems =>
      refine .of_primary (by rw [hKind]; rfl) fun rest => .array hKind ?_
      refine exprsUntil_of_separated (.inr rfl) hList (fun e he => ih e he ?_) rest
      exact hElems e.1 (List.mem_map_of_mem he)
  | construct hKind hName hOpening _ hList ih =>
    cases hStratified with
    | construct hArgs =>
      refine .of_primary (by rw [hKind]; rfl) fun rest =>
        .construct hKind rfl hName hOpening ?_
      refine exprsUntil_of_separated (.inl rfl) hList (fun e he => ih e he ?_) rest
      exact hArgs e.1 (List.mem_map_of_mem he)
  | paren hKind _ hClose ih =>
    cases hStratified with
    | paren hInner =>
      refine .of_primary (by rw [hKind]; rfl) fun rest => .paren hKind ?_ hClose
      rw [List.append_assoc]
      exact (ih hInner).whole (ends_cons hClose (.inr (.inl rfl)))
  | unary hOp _ ih =>
    cases hStratified with
    | unary hOperand hLevel =>
      refine .of_operand rfl fun hPostfix => ?_
      have hRead := (ih hOperand).operand hLevel hPostfix
      exact operand_cons_yields_iff.mpr (.inl ⟨_, _, hOp, hRead, rfl⟩)
  | binary hOp _ _ ihLeft ihRight =>
    cases hStratified with
    | binary hLeft hRight hLeftLevel hRightLevel =>
      exact .of_joined hOp (ihLeft hLeft) (ihRight hRight) hLeftLevel hRightLevel
  | assign hOp _ _ ihTarget ihValue =>
    cases hStratified with
    | assign hTarget hValue hLevel =>
      exact .of_joined hOp (ihTarget hTarget) (ihValue hValue) hLevel (Expr.two_le_level _)
  | call _ hKind hLine _ hList ihCallee ih =>
    cases hStratified with
    | call hCallee hLevel hArgs =>
      refine (ihCallee hCallee).of_extended hLevel fun rest => .call hKind hLine ?_
      refine exprsUntil_of_separated (.inl rfl) hList (fun e he => ih e he ?_) rest
      exact hArgs e.1 (List.mem_map_of_mem he)
  | member _ hDot hName ih =>
    cases hStratified with
    | member hObject hLevel => exact (ih hObject).of_extended hLevel fun _ => .member hDot hName
  | index _ hKind hLine _ hClose ihObject ihPosition =>
    cases hStratified with
    | index hObject hLevel hPosition =>
      refine (ihObject hObject).of_extended hLevel fun rest => .index hKind hLine ?_ hClose
      change Yields (exprAt anyLevel (_ ++ [_] ++ rest)) _ _
      rw [List.append_assoc]
      exact (ihPosition hPosition).whole (ends_cons hClose (.inr (.inr rfl)))

/-- Reading an expression succeeds exactly on the spelling of a stratified tree with something
behind it that continues no expression, and gives that tree and what stands behind it. -/
theorem expression_yields_iff (ts : List Token) (e : Expr) (rest : List Token) :
    Yields (expression ts) e rest ↔
      ∃ used, ts = used ++ rest ∧ e.SpelledBy used ∧ e.Stratified ∧ Ends rest := by
  constructor
  · intro h
    obtain ⟨used, hUsed, hSpelled, hStratified, _, hLooser, hPostfix⟩ :=
      exprAt_spelled (by decide) h
    exact ⟨used, hUsed, hSpelled, hStratified, ends_iff.mpr ⟨hPostfix, hLooser⟩⟩
  · rintro ⟨used, rfl, hSpelled, hStratified, hEnds⟩
    exact (readBack_of_spelledBy hSpelled hStratified).whole hEnds

end Parser

namespace Expr

inductive WellFormed : Expr → Prop
  | name {pos : SourcePos} {id : Text} (hName : IsName id) : WellFormed (.name pos id)
  | number {pos : SourcePos} {lit : Text} (hNumber : BeginsWord Text.isDigit lit) :
      WellFormed (.number pos lit)
  | string {pos : SourcePos} {value : Text} : WellFormed (.string pos value)
  | bool {pos : SourcePos} {value : Bool} : WellFormed (.bool pos value)
  | array {pos : SourcePos} {elems : List Expr} (hElems : ∀ e ∈ elems, WellFormed e) :
      WellFormed (.array pos elems)
  | construct {pos : SourcePos} {className : Text} {args : List Expr}
      (hArgs : ∀ e ∈ args, WellFormed e) : WellFormed (.construct pos className args)
  | paren {pos : SourcePos} {inner : Expr} (hInner : WellFormed inner) :
      WellFormed (.paren pos inner)
  | unary {pos : SourcePos} {op : UnaryOp} {operand : Expr} (hOperand : WellFormed operand)
      (hLevel : 8 ≤ operand.level) : WellFormed (.unary pos op operand)
  | binary {op : BinaryOp} {left right : Expr} (hLeft : WellFormed left)
      (hRight : WellFormed right) (hLeftLevel : Parser.Infix.opLevel op ≤ left.level)
      (hRightLevel : Parser.Infix.opLevel op < right.level) : WellFormed (.binary op left right)
  | assign {target value : Expr} (hTarget : WellFormed target) (hValue : WellFormed value) :
      WellFormed (.assign target value)
  | call {callee : Expr} {args : List Expr} (hCallee : WellFormed callee)
      (hArgs : ∀ e ∈ args, WellFormed e) : WellFormed (.call callee args)
  | member {object : Expr} {pos : SourcePos} {field : Text} (hObject : WellFormed object)
      (hName : IsName field) : WellFormed (.member object pos field)
  | index {object position : Expr} (hObject : WellFormed object)
      (hPosition : WellFormed position) : WellFormed (.index object position)

theorem Separated.subset {closing : Punct} {parts : List (List Token)} {ts : List Token}
    (h : Separated closing parts ts) : ∀ part ∈ parts, part ⊆ ts := by
  induction h with
  | nil => simp
  | last => simp
  | cons _ _ ih =>
    rintro other hOther t ht
    rcases List.mem_cons.mp hOther with rfl | hOther
    · exact List.mem_append_left _ ht
    · exact List.mem_append_right _ (List.mem_cons_of_mem _ (ih other hOther ht))

/-- The words of a well-formed expression come from its tokens. -/
theorem SpelledBy.wellFormed {e : Expr} {ts : List Token} (h : e.SpelledBy ts)
    (hStratified : e.Stratified) (hts : AllLexed ts) : e.WellFormed := by
  induction h with
  | @name t hKind =>
    exact .name ((hts t List.mem_cons_self).isName (by rw [Token.isName, hKind]))
  | @number t hKind =>
    have hSpelled := hts t List.mem_cons_self
    rw [Token.Spelled, hKind] at hSpelled
    exact .number hSpelled
  | string => exact .string
  | bool => exact .bool
  | array _ _ hList ih =>
    cases hStratified with
    | array hElems =>
      refine .array (List.forall_mem_map.mpr fun e he => ih e he ?_ fun t ht => hts t ?_)
      · exact hElems e.1 (List.mem_map_of_mem he)
      · have hPart := hList.subset e.2 (List.mem_map_of_mem he) ht
        simp [hPart]
  | construct _ _ _ _ hList ih =>
    cases hStratified with
    | construct hArgs =>
      refine .construct (List.forall_mem_map.mpr fun e he => ih e he ?_ fun t ht => hts t ?_)
      · exact hArgs e.1 (List.mem_map_of_mem he)
      · have hPart := hList.subset e.2 (List.mem_map_of_mem he) ht
        simp [hPart]
  | paren _ _ _ ih =>
    cases hStratified with
    | paren hInner => exact .paren (ih hInner fun t ht => hts t (by simp [ht]))
  | unary _ _ ih =>
    cases hStratified with
    | unary hOperand hLevel =>
      exact .unary (ih hOperand fun t ht => hts t (by simp [ht])) hLevel
  | binary _ _ _ ihLeft ihRight =>
    cases hStratified with
    | binary hLeft hRight hLeftLevel hRightLevel =>
      have hLeftWell := ihLeft hLeft fun t ht => hts t (by simp [ht])
      have hRightWell := ihRight hRight fun t ht => hts t (by simp [ht])
      exact .binary hLeftWell hRightWell hLeftLevel hRightLevel
  | assign _ _ _ ihTarget ihValue =>
    cases hStratified with
    | assign hTarget hValue =>
      have hTargetWell := ihTarget hTarget fun t ht => hts t (by simp [ht])
      have hValueWell := ihValue hValue fun t ht => hts t (by simp [ht])
      exact .assign hTargetWell hValueWell
  | call _ _ _ _ hList ihCallee ih =>
    cases hStratified with
    | call hCallee _ hArgs =>
      have hCalleeWell := ihCallee hCallee fun t ht => hts t (by simp [ht])
      refine .call hCalleeWell
        (List.forall_mem_map.mpr fun e he => ih e he ?_ fun t ht => hts t ?_)
      · exact hArgs e.1 (List.mem_map_of_mem he)
      · have hPart := hList.subset e.2 (List.mem_map_of_mem he) ht
        simp [hPart]
  | @member _ name _ _ _ _ hName ih =>
    cases hStratified with
    | member hObject =>
      have hObjectWell := ih hObject fun t ht => hts t (by simp [ht])
      exact .member hObjectWell ((hts name (by simp)).isName hName)
  | index _ _ _ _ _ ihObject ihPosition =>
    cases hStratified with
    | index hObject _ hPosition =>
      have hObjectWell := ihObject hObject fun t ht => hts t (by simp [ht])
      have hPositionWell := ihPosition hPosition fun t ht => hts t (by simp [ht])
      exact .index hObjectWell hPositionWell

end Expr

namespace Parser

theorem takeIf_ok {accept : Token → Bool} {message : Text} {ts : List Token}
    {p : Parsed Token ts.length} (h : takeIf accept message ts = .ok p) :
    p.value ∈ ts ∧ accept p.value = true ∧ p.rest <:+ ts := by
  cases ts with
  | nil => cases h
  | cons t r =>
    simp only [takeIf] at h
    split at h
    · rename_i hAccept
      cases h
      exact ⟨List.mem_cons_self, hAccept, List.suffix_cons t r⟩
    · cases h

theorem take_suffix {k : TokenKind} {message : Text} {ts : List Token} {p : Parsed Token ts.length}
    (h : take k message ts = .ok p) : p.rest <:+ ts :=
  (takeIf_ok h).2.2

theorem skip?_suffix (k : TokenKind) (ts : List Token) : (skip? k ts).rest <:+ ts := by
  unfold skip?
  split
  · exact List.tail_suffix ts
  · exact List.suffix_rfl

theorem exprAt_ok {min : Nat} {ts : List Token} (hts : AllLexed ts) (hMin : min ≤ 8)
    {p : Parsed Expr ts.length} (h : exprAt min ts = .ok p) :
    p.value.WellFormed ∧ min ≤ p.value.level ∧ LooserNext min p.rest ∧ p.rest <:+ ts := by
  obtain ⟨used, hUsed, hSpelled, hStratified, hLevel, hLooser, _⟩ :=
    exprAt_spelled hMin (yields_of_ok h)
  have hTokens : AllLexed used := fun t ht => hts t (hUsed ▸ List.mem_append_left p.rest ht)
  exact ⟨hSpelled.wellFormed hStratified hTokens, hLevel, hLooser, used, hUsed.symm⟩

end Parser

end AnchorScript.Syntax
