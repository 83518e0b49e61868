import AnchorScript.Proofs.Syntax.Readers

/-!
# The grammar of expressions

`SpelledBy` says which tokens an expression is written with, and `Stratified` that it needs no
brackets but its own: each operand binds as tightly as its operator asks. What the reader returns is
spelled by the tokens it has taken and is stratified, and the reader stops only where nothing
continues the expression.
-/

namespace AnchorScript.Syntax

open Outcome

namespace Expr

/-- How tightly an expression binds: the level of its outermost operator, or above all of them. -/
def level : Expr → Nat
  | .assign .. => 2
  | .binary op _ _ => Parser.Infix.opLevel op
  | .unary .. => 8
  | _ => 9

/-- Parts with commas between them, through the closing bracket. A comma may follow the last. -/
inductive Separated (closing : Punct) : List (List Token) → List Token → Prop
  | nil {close : Token} (hClose : close.kind = .punct closing) : Separated closing [] [close]
  | last {part : List Token} {close : Token} (hClose : close.kind = .punct closing) :
      Separated closing [part] (part ++ [close])
  | cons {part : List Token} {comma : Token} {parts : List (List Token)} {ts : List Token}
      (hComma : comma.kind = .punct .comma) (hRest : Separated closing parts ts) :
      Separated closing (part :: parts) (part ++ comma :: ts)

/-- The expression with its tokens in order. A bracket that continues an expression stands on the
line of what it continues. -/
inductive SpelledBy : Expr → List Token → Prop
  | name {t : Token} (hKind : t.kind = .ident) : SpelledBy (.name t.pos t.literal) [t]
  | number {t : Token} (hKind : t.kind = .number) : SpelledBy (.number t.pos t.literal) [t]
  | string {t : Token} {value : Text} (hKind : t.kind = .string)
      (hValue : StringLiteral.value? t.literal = some value) : SpelledBy (.string t.pos value) [t]
  | bool {t : Token} {value : Bool}
      (hKind : t.kind = .keyword (if value then .kwTrue else .kwFalse)) :
      SpelledBy (.bool t.pos value) [t]
  | array {t : Token} {elems : List (Expr × List Token)} {ts : List Token}
      (hKind : t.kind = .punct .lbracket) (hElems : ∀ e ∈ elems, SpelledBy e.1 e.2)
      (hList : Separated .rbracket (elems.map Prod.snd) ts) :
      SpelledBy (.array t.pos (elems.map Prod.fst)) (t :: ts)
  | construct {t name opening : Token} {args : List (Expr × List Token)} {ts : List Token}
      (hKind : t.kind = .keyword .kwNew) (hName : name.kind = .ident)
      (hOpening : opening.kind = .punct .lparen) (hArgs : ∀ e ∈ args, SpelledBy e.1 e.2)
      (hList : Separated .rparen (args.map Prod.snd) ts) :
      SpelledBy (.construct t.pos name.literal (args.map Prod.fst)) (t :: name :: opening :: ts)
  | paren {t close : Token} {inner : Expr} {ts : List Token} (hKind : t.kind = .punct .lparen)
      (hInner : SpelledBy inner ts) (hClose : close.kind = .punct .rparen) :
      SpelledBy (.paren t.pos inner) (t :: (ts ++ [close]))
  | unary {t : Token} {op : UnaryOp} {operand : Expr} {ts : List Token}
      (hOp : Parser.unaryOp? t.kind = some op) (hOperand : SpelledBy operand ts) :
      SpelledBy (.unary t.pos op operand) (t :: ts)
  | binary {t : Token} {op : BinaryOp} {left right : Expr} {ls rs : List Token}
      (hOp : Parser.Infix.ofKind? t.kind = some (.op op)) (hLeft : SpelledBy left ls)
      (hRight : SpelledBy right rs) : SpelledBy (.binary op left right) (ls ++ t :: rs)
  | assign {t : Token} {target value : Expr} {ls rs : List Token}
      (hOp : Parser.Infix.ofKind? t.kind = some .assign) (hTarget : SpelledBy target ls)
      (hValue : SpelledBy value rs) : SpelledBy (.assign target value) (ls ++ t :: rs)
  | call {t : Token} {callee : Expr} {args : List (Expr × List Token)} {cs ts : List Token}
      (hCallee : SpelledBy callee cs) (hKind : t.kind = .punct .lparen)
      (hLine : t.newlineBefore = false) (hArgs : ∀ e ∈ args, SpelledBy e.1 e.2)
      (hList : Separated .rparen (args.map Prod.snd) ts) :
      SpelledBy (.call callee (args.map Prod.fst)) (cs ++ t :: ts)
  | member {dot name : Token} {object : Expr} {os : List Token} (hObject : SpelledBy object os)
      (hDot : dot.kind = .punct .dot) (hName : name.isName = true) :
      SpelledBy (.member object name.pos name.literal) (os ++ [dot, name])
  | index {t close : Token} {object position : Expr} {os ts : List Token}
      (hObject : SpelledBy object os) (hKind : t.kind = .punct .lbracket)
      (hLine : t.newlineBefore = false) (hPosition : SpelledBy position ts)
      (hClose : close.kind = .punct .rbracket) :
      SpelledBy (.index object position) (os ++ t :: (ts ++ [close]))

/-- The left operand of an operator binds as tightly as the operator or tighter and the right one
tighter; assignments group to the right. A prefix operator stands before another one or before what
has no operator outside brackets, and only the latter is called, indexed or has members. -/
inductive Stratified : Expr → Prop
  | name {pos : SourcePos} {id : Text} : Stratified (.name pos id)
  | number {pos : SourcePos} {lit : Text} : Stratified (.number pos lit)
  | string {pos : SourcePos} {value : Text} : Stratified (.string pos value)
  | bool {pos : SourcePos} {value : Bool} : Stratified (.bool pos value)
  | array {pos : SourcePos} {elems : List Expr} (hElems : ∀ e ∈ elems, Stratified e) :
      Stratified (.array pos elems)
  | construct {pos : SourcePos} {className : Text} {args : List Expr}
      (hArgs : ∀ e ∈ args, Stratified e) : Stratified (.construct pos className args)
  | paren {pos : SourcePos} {inner : Expr} (hInner : Stratified inner) :
      Stratified (.paren pos inner)
  | unary {pos : SourcePos} {op : UnaryOp} {operand : Expr} (hOperand : Stratified operand)
      (hLevel : 8 ≤ operand.level) : Stratified (.unary pos op operand)
  | binary {op : BinaryOp} {left right : Expr} (hLeft : Stratified left)
      (hRight : Stratified right) (hLeftLevel : Parser.Infix.opLevel op ≤ left.level)
      (hRightLevel : Parser.Infix.opLevel op < right.level) : Stratified (.binary op left right)
  | assign {target value : Expr} (hTarget : Stratified target) (hValue : Stratified value)
      (hLevel : 2 < target.level) : Stratified (.assign target value)
  | call {callee : Expr} {args : List Expr} (hCallee : Stratified callee)
      (hLevel : callee.level = 9) (hArgs : ∀ e ∈ args, Stratified e) :
      Stratified (.call callee args)
  | member {object : Expr} {pos : SourcePos} {field : Text} (hObject : Stratified object)
      (hLevel : object.level = 9) : Stratified (.member object pos field)
  | index {object position : Expr} (hObject : Stratified object) (hLevel : object.level = 9)
      (hPosition : Stratified position) : Stratified (.index object position)

end Expr

namespace Parser

/-- What follows continues no expression by a postfix. -/
def NoPostfix (ts : List Token) : Prop := ∀ t r, ts = t :: r → startsPostfix t = false

/-- The operator that follows, if one does, is looser than `level`. -/
def LooserNext (level : Nat) (ts : List Token) : Prop :=
  ∀ t r i, ts = t :: r → Infix.ofKind? t.kind = some i → i.level < level

theorem LooserNext.mono {k l : Nat} {ts : List Token} (h : LooserNext k ts) (hkl : k ≤ l) :
    LooserNext l ts :=
  fun t r i hts hi => Nat.lt_of_lt_of_le (h t r i hts hi) hkl

namespace Infix

/-- The loosest operator that the left operand may hold outside brackets. -/
def leftLevel : Infix → Nat
  | assign => 3
  | op o => opLevel o

theorem level_le (i : Infix) : i.level ≤ 7 := by
  cases i with
  | assign => decide
  | op o => cases o <;> decide

theorem two_le_level (i : Infix) : 2 ≤ i.level := by
  cases i with
  | assign => decide
  | op o => cases o <;> decide

theorem rightLevel_le (i : Infix) : i.rightLevel ≤ i.level + 1 := by
  cases i with
  | assign => decide
  | op o => exact Nat.le_refl _

end Infix

end Parser

namespace Expr

/-- An operator looser than this may follow the expression without becoming part of its last
operand. -/
def followLevel (e : Expr) : Nat := if e.level = 2 then 2 else e.level + 1

theorem two_le_level (e : Expr) : 2 ≤ e.level := by
  cases e with
  | binary op => exact Parser.Infix.two_le_level (.op op)
  | _ => simp [level]

theorem level_le_followLevel (e : Expr) : e.level ≤ e.followLevel := by
  unfold followLevel
  split <;> omega

end Expr

namespace Parser.Infix

variable (i : Infix) {left right : Expr}

@[simp] theorem level_apply : (i.apply left right).level = i.level := by
  cases i <;> rfl

theorem followLevel_apply : (i.apply left right).followLevel = i.rightLevel := by
  cases i with
  | assign => rfl
  | op o => cases o <;> rfl

theorem apply_stratified (hLeft : left.Stratified) (hRight : right.Stratified)
    (hLeftLevel : i.leftLevel ≤ left.level) (hRightLevel : i.rightLevel ≤ right.level) :
    (i.apply left right).Stratified := by
  cases i with
  | assign => exact .assign hLeft hRight hLeftLevel
  | op o => exact .binary hLeft hRight hLeftLevel hRightLevel

theorem apply_spelledBy {t : Token} {ls rs : List Token} (hOp : ofKind? t.kind = some i)
    (hLeft : left.SpelledBy ls) (hRight : right.SpelledBy rs) :
    (i.apply left right).SpelledBy (ls ++ t :: rs) := by
  cases i with
  | assign => exact .assign hOp hLeft hRight
  | op o => exact .binary hOp hLeft hRight

theorem level_le_leftLevel : i.level ≤ i.leftLevel := by
  cases i with
  | assign => decide
  | op o => exact Nat.le_refl _

theorem lt_followLevel_iff : i.level < left.followLevel ↔ i.leftLevel ≤ left.level := by
  have hTwo := left.two_le_level
  have hLevel := i.two_le_level
  cases i with
  | assign =>
    change 2 < left.followLevel ↔ 3 ≤ left.level
    unfold Expr.followLevel
    split <;> omega
  | op o =>
    change opLevel o < left.followLevel ↔ opLevel o ≤ left.level
    have hThree : 3 ≤ opLevel o := by cases o <;> decide
    unfold Expr.followLevel
    split <;> omega

end Parser.Infix

namespace Parser

mutual

/-- What is read at a level is spelled by the tokens that were taken, is stratified, binds at the
level or tighter, and is continued by nothing that follows. -/
theorem exprAt_spelled {min : Nat} {ts : List Token} {e : Expr} {rest : List Token}
    (hMin : min ≤ 8) (h : Yields (exprAt min ts) e rest) :
    ∃ used, ts = used ++ rest ∧ e.SpelledBy used ∧ e.Stratified ∧ min ≤ e.level ∧
      LooserNext min rest ∧ NoPostfix rest := by
  obtain ⟨left, r, hLeft, hClimb⟩ := exprAt_yields_iff.mp h
  have hShorter := hLeft.length_lt
  obtain ⟨used, hUsed, hSpelled, hStratified, hLevel, hPostfix⟩ := operand_spelled hLeft
  have hNext : LooserNext left.followLevel r := by
    intro t r' i _ _
    have hSeven := i.level_le
    rw [Expr.followLevel, if_neg (by omega)]
    omega
  obtain ⟨used', rfl, hRest⟩ :=
    climb_spelled hMin hSpelled hStratified (Nat.le_trans hMin hLevel) hNext hPostfix hClimb
  exact ⟨used ++ used', by rw [hUsed, List.append_assoc], hRest⟩
termination_by 8 * ts.length + 6
decreasing_by all_goals omega

theorem climb_spelled {min : Nat} {left : Expr} {before ts : List Token} {e : Expr}
    {rest : List Token} (hMin : min ≤ 8) (hSpelled : left.SpelledBy before)
    (hLeft : left.Stratified) (hLevel : min ≤ left.level)
    (hNext : LooserNext left.followLevel ts) (hPostfix : NoPostfix ts)
    (h : Yields (climb min left ts) e rest) :
    ∃ used, ts = used ++ rest ∧ e.SpelledBy (before ++ used) ∧ e.Stratified ∧ min ≤ e.level ∧
      LooserNext min rest ∧ NoPostfix rest := by
  match ts, hNext, hPostfix, h with
  | [], _, hPostfix, h =>
    obtain ⟨rfl, rfl⟩ := climb_nil_yields_iff.mp h
    refine ⟨[], rfl, ?_, hLeft, hLevel, (fun t r i hNil => by cases hNil), hPostfix⟩
    rw [List.append_nil]
    exact hSpelled
  | t :: r, hNext, hPostfix, h =>
    rcases climb_cons_yields_iff.mp h with
      ⟨i, right, r₁, hInfix, hTight, hRight, hClimb⟩ | ⟨hLoose, rfl, rfl⟩
    · have hShorter := hRight.length_lt
      have hRightMin : i.rightLevel ≤ 8 := by
        have hSeven := i.level_le
        have hStep := i.rightLevel_le
        omega
      obtain ⟨rs, rfl, hRightSpelled, hRightStratified, hRightLevel, hLooser, hPostfix'⟩ :=
        exprAt_spelled hRightMin hRight
      have hLeftLevel := i.lt_followLevel_iff.mp (hNext t _ i rfl hInfix)
      have hJoined := i.apply_stratified hLeft hRightStratified hLeftLevel hRightLevel
      have hFollows : LooserNext (i.apply left right).followLevel r₁ := by
        rw [i.followLevel_apply]
        exact hLooser
      have hJoinedLevel : min ≤ (i.apply left right).level := by
        rw [i.level_apply]
        exact hTight
      obtain ⟨used, rfl, hSpelled', hRest⟩ := climb_spelled hMin
        (i.apply_spelledBy hInfix hSpelled hRightSpelled) hJoined hJoinedLevel hFollows hPostfix'
        hClimb
      refine ⟨t :: (rs ++ used), by simp, ?_, hRest⟩
      simpa using hSpelled'
    · refine ⟨[], rfl, ?_, hLeft, hLevel, ?_, hPostfix⟩
      · rw [List.append_nil]
        exact hSpelled
      · rintro t' r' i hSame hSome
        cases hSame
        exact hLoose i hSome
termination_by 8 * ts.length
decreasing_by all_goals simp only [List.length_cons]; omega

theorem operand_spelled {ts : List Token} {e : Expr} {rest : List Token}
    (h : Yields (operand ts) e rest) :
    ∃ used, ts = used ++ rest ∧ e.SpelledBy used ∧ e.Stratified ∧ 8 ≤ e.level ∧
      NoPostfix rest := by
  match ts, h with
  | [], h => exact absurd h not_operand_nil_yields
  | t :: r, h =>
    rcases operand_cons_yields_iff.mp h with
      ⟨op, inner, hOp, hInner, rfl⟩ | ⟨_, first, r₁, hFirst, hRest⟩
    · obtain ⟨used, rfl, hSpelled, hStratified, hLevel, hPostfix⟩ := operand_spelled hInner
      exact ⟨t :: used, rfl, .unary hOp hSpelled, .unary hStratified hLevel, Nat.le_refl 8,
        hPostfix⟩
    · have hShorter := hFirst.length_lt
      obtain ⟨used, hUsed, hSpelled, hStratified, hLevel⟩ := primary_spelled hFirst
      obtain ⟨used', rfl, hSpelled', hStratified', hLevel', hPostfix⟩ :=
        postfixes_spelled hSpelled hStratified hLevel hRest
      exact ⟨t :: (used ++ used'), by simp [hUsed], hSpelled', hStratified', by omega, hPostfix⟩
termination_by 8 * ts.length + 5
decreasing_by all_goals simp only [List.length_cons]; omega

theorem primary_spelled {t : Token} {r : List Token} {e : Expr} {rest : List Token}
    (h : Yields (primary t r) e rest) :
    ∃ used, r = used ++ rest ∧ e.SpelledBy (t :: used) ∧ e.Stratified ∧ e.level = 9 := by
  cases primary_of_yields h with
  | name hKind => exact ⟨[], rfl, .name hKind, .name, rfl⟩
  | number hKind => exact ⟨[], rfl, .number hKind, .number, rfl⟩
  | string hKind hValue => exact ⟨[], rfl, .string hKind hValue, .string, rfl⟩
  | bool hKind => exact ⟨[], rfl, .bool hKind, .bool, rfl⟩
  | array hKind hElems =>
    obtain ⟨parts, used, rfl, rfl, hParts, hStratified, hList⟩ := exprsUntil_spelled hElems
    exact ⟨used, rfl, .array hKind hParts hList, .array hStratified, rfl⟩
  | @construct name opening _ _ _ hKind hTokens hName hOpening hArgs =>
    have hShorter := congrArg List.length hTokens
    obtain ⟨parts, used, rfl, rfl, hParts, hStratified, hList⟩ := exprsUntil_spelled hArgs
    exact ⟨name :: opening :: used, hTokens, .construct hKind hName hOpening hParts hList,
      .construct hStratified, rfl⟩
  | @paren inner close _ hKind hInner hClose =>
    obtain ⟨used, rfl, hSpelled, hStratified, _⟩ := exprAt_spelled (by decide) hInner
    exact ⟨used ++ [close], by simp, .paren hKind hSpelled hClose, .paren hStratified, rfl⟩
termination_by 8 * r.length + 8
decreasing_by all_goals simp only [List.length_cons] at *; omega

theorem postfixes_spelled {left : Expr} {before ts : List Token} {e : Expr} {rest : List Token}
    (hSpelled : left.SpelledBy before) (hLeft : left.Stratified) (hLevel : left.level = 9)
    (h : Yields (postfixes left ts) e rest) :
    ∃ used, ts = used ++ rest ∧ e.SpelledBy (before ++ used) ∧ e.Stratified ∧ e.level = 9 ∧
      NoPostfix rest := by
  match ts, h with
  | [], h =>
    obtain ⟨rfl, rfl⟩ := postfixes_nil_yields_iff.mp h
    refine ⟨[], rfl, ?_, hLeft, hLevel, fun t r hNil => by cases hNil⟩
    rw [List.append_nil]
    exact hSpelled
  | t :: r, h =>
    rcases postfixes_cons_yields_iff.mp h with ⟨next, r₁, hNext, hRest⟩ | ⟨hNone, rfl, rfl⟩
    · have hShorter := hNext.length_lt
      cases hNext with
      | @member _ name _ hDot hName =>
        obtain ⟨used, hUsed, hSpelled', hRest⟩ :=
          postfixes_spelled (.member hSpelled hDot hName) (.member hLeft hLevel) rfl hRest
        refine ⟨t :: name :: used, by rw [hUsed]; rfl, ?_, hRest⟩
        simpa using hSpelled'
      | call hKind hLine hArgs =>
        have hShorter := hArgs.length_lt
        obtain ⟨parts, used, hUsed, rfl, hParts, hStratified, hList⟩ := exprsUntil_spelled hArgs
        obtain ⟨used', rfl, hSpelled', hRest⟩ := postfixes_spelled
          (.call hSpelled hKind hLine hParts hList) (.call hLeft hLevel hStratified) rfl hRest
        refine ⟨t :: (used ++ used'), by simp [hUsed], ?_, hRest⟩
        simpa using hSpelled'
      | @index _ close _ _ _ hKind hLine hPosition hClose =>
        have hShorter := hPosition.length_lt
        obtain ⟨used, hUsed, hInner, hStratified, _⟩ := exprAt_spelled (by decide) hPosition
        obtain ⟨used', rfl, hSpelled', hRest⟩ := postfixes_spelled
          (.index hSpelled hKind hLine hInner hClose) (.index hLeft hLevel hStratified) rfl hRest
        refine ⟨t :: (used ++ close :: used'), by simp [hUsed], ?_, hRest⟩
        simpa using hSpelled'
    · refine ⟨[], rfl, ?_, hLeft, hLevel, ?_⟩
      · rw [List.append_nil]
        exact hSpelled
      · rintro t' r' hSame
        cases hSame
        exact hNone
termination_by 8 * ts.length
decreasing_by all_goals simp only [List.length_cons] at *; omega

theorem exprsUntil_spelled {closing : Punct} {what : Text} {ts : List Token} {es : List Expr}
    {rest : List Token} (h : Yields (exprsUntil closing what ts) es rest) :
    ∃ (parts : List (Expr × List Token)) (used : List Token), ts = used ++ rest ∧
      es = parts.map Prod.fst ∧ (∀ e ∈ parts, e.1.SpelledBy e.2) ∧
      (∀ e ∈ parts.map Prod.fst, e.Stratified) ∧
      Expr.Separated closing (parts.map Prod.snd) used := by
  cases listRead_of_yields h with
  | @nil close _ hTokens hClose =>
    exact ⟨[], [close], hTokens, rfl, by simp, by simp, .nil hClose⟩
  | @last e close _ _ hExpr _ hClose =>
    obtain ⟨used, rfl, hSpelled, hStratified, _⟩ := exprAt_spelled (by decide) hExpr
    exact ⟨[(e, used)], used ++ [close], by simp, rfl, List.forall_mem_singleton.mpr hSpelled,
      List.forall_mem_singleton.mpr hStratified, .last hClose⟩
  | @cons e comma r _ es' _ hExpr hComma hRest =>
    have hShorter := hExpr.length_lt
    obtain ⟨used, rfl, hSpelled, hStratified, _⟩ := exprAt_spelled (by decide) hExpr
    obtain ⟨parts, used', rfl, rfl, hParts, hPartsStratified, hList⟩ := exprsUntil_spelled hRest
    exact ⟨(e, used) :: parts, used ++ comma :: used', by simp, rfl,
      List.forall_mem_cons.mpr ⟨hSpelled, hParts⟩,
      List.forall_mem_cons.mpr ⟨hStratified, hPartsStratified⟩, .cons hComma hList⟩
termination_by 8 * ts.length + 7
decreasing_by all_goals simp only [List.length_cons] at *; omega

end

end Parser

end AnchorScript.Syntax
