import AnchorScript.Proofs.Resolution.ConstantFolding

/-!
# Constants compute as they are folded

Constants are folded without bounds, and the program they become part of computes them in an integer
type, where every intermediate result has to be in range. The check of an integer expression makes
the two agree, but for two gaps. A remainder of the least number by minus one passes the check and
has no result. And a variable counts as the number it is remembered with, while the program computes
what it is bound to, in the type of its use.
-/

namespace AnchorScript

open Outcome

namespace IntType

def inRange? (t : IntType) (n : Int) : Option Int := if t.fits n then some n else none

theorem inRange?_eq_some_iff {t : IntType} {m n : Int} :
    t.inRange? m = some n ↔ t.fits n = true ∧ m = n := by
  rw [inRange?]
  split
  · rename_i hFits
    constructor
    · rintro ⟨⟩
      exact ⟨hFits, rfl⟩
    · rintro ⟨_, rfl⟩
      rfl
  · rename_i hFits
    constructor
    · intro h
      cases h
    · rintro ⟨h, rfl⟩
      exact absurd h hFits

/-- The quotient of the least number by minus one is one more than the greatest. -/
theorem not_fits_tdiv_least {t : IntType} (h : t.fits (-1) = true) :
    t.fits (t.least.tdiv (-1)) = false := by
  have hOpposite : t.least.tdiv (-1) = -t.least := by
    rw [Int.tdiv_neg, Int.tdiv_one]
  rw [hOpposite]
  cases hSigned : t.signed with
  | false => simp [fits, least, hSigned] at h
  | true => simp [fits, least, limit, hSigned]

end IntType

/-- The result of an operation in the type. Dividing the least number by minus one overflows, and so
does the remainder. -/
def ArithOp.checked (t : IntType) : ArithOp → Int → Int → Option Int
  | add, l, r => t.inRange? (l + r)
  | sub, l, r => t.inRange? (l - r)
  | mul, l, r => t.inRange? (l * r)
  | div, l, r => if r = 0 ∨ l = t.least ∧ r = -1 then none else t.inRange? (l.tdiv r)
  | rem, l, r => if r = 0 ∨ l = t.least ∧ r = -1 then none else t.inRange? (l.tmod r)

theorem ArithOp.fold_of_checked {op : ArithOp} {t : IntType} {l r n : Int}
    (h : op.checked t l r = some n) : op.fold l r = some n := by
  cases op with
  | div | rem =>
    simp only [checked, Option.ite_none_left_eq_some, not_or, IntType.inRange?_eq_some_iff] at h
    obtain ⟨⟨hNonzero, _⟩, _, rfl⟩ := h
    rw [fold, if_neg hNonzero]
  | _ =>
    obtain ⟨_, rfl⟩ := IntType.inRange?_eq_some_iff.mp h
    rfl

theorem ArithOp.checked_of_fold {op : ArithOp} {t : IntType} {l r n : Int}
    (h : op.fold l r = some n) (hLeft : t.fits l = true) (hRight : t.fits r = true)
    (hFits : t.fits n = true) (hRem : ¬(op = .rem ∧ l = t.least ∧ r = -1)) :
    op.checked t l r = some n := by
  cases op with
  | div =>
    simp only [fold, Option.ite_none_left_eq_some, Option.some.injEq] at h
    obtain ⟨hNonzero, rfl⟩ := h
    have hLeast : ¬(l = t.least ∧ r = -1) := by
      rintro ⟨rfl, rfl⟩
      rw [IntType.not_fits_tdiv_least hRight] at hFits
      cases hFits
    rw [checked, if_neg (not_or.mpr ⟨hNonzero, hLeast⟩)]
    exact IntType.inRange?_eq_some_iff.mpr ⟨hFits, rfl⟩
  | rem =>
    simp only [fold, Option.ite_none_left_eq_some, Option.some.injEq] at h
    obtain ⟨hNonzero, rfl⟩ := h
    have hLeast : ¬(l = t.least ∧ r = -1) := fun hBoth => hRem ⟨rfl, hBoth⟩
    rw [checked, if_neg (not_or.mpr ⟨hNonzero, hLeast⟩)]
    exact IntType.inRange?_eq_some_iff.mpr ⟨hFits, rfl⟩
  | _ =>
    cases h
    exact IntType.inRange?_eq_some_iff.mpr ⟨hFits, rfl⟩

namespace Value

/-- The value and the values it is computed from. -/
def parts : Value → List Value
  | .binary pos op l r => .binary pos op l r :: (l.parts ++ r.parts)
  | .neg pos v => .neg pos v :: v.parts
  | .paren pos v => .paren pos v :: v.parts
  | v => [v]

theorem mem_parts_self (v : Value) : v ∈ v.parts := by
  cases v <;> exact List.mem_cons_self

/-- The literal that a value is, in brackets or not. -/
def literal? : Value → Option Nat
  | .int _ lit => IntLiteral.value? lit
  | .paren _ v => v.literal?
  | _ => none

/-- The value of a constant expression computed in the type, where the variables have these values:
every literal and every result is in range, and nothing unsigned is negated. A literal behind a
minus is read with it, so that the least number can be written. -/
def computed? (t : IntType) (vars : List (Text × Option Int)) : Value → Option Int
  | .int _ lit => (IntLiteral.value? lit).bind fun n => t.inRange? n
  | .var _ name _ => (vars.lookup name).join
  | .paren _ v => v.computed? t vars
  | .neg _ v =>
    if t.signed then
      match v.literal? with
      | some n => t.inRange? (-n)
      | none => (v.computed? t vars).bind fun n => t.inRange? (-n)
    else none
  | .binary _ op l r =>
    match l.computed? t vars, r.computed? t vars with
    | some x, some y => op.checked t x y
    | _, _ => none
  | _ => none

end Value

/-- The variables with what they are bound to, each computed in the type. Those with a declared type
are no constants. -/
def Statement.computedVars (t : IntType) (vars : List (Text × Option Int)) :
    Statement → List (Text × Option Int)
  | .bind _ l => (l.name, if l.declared.isNone then l.value.computed? t vars else none) :: vars
  | _ => vars

def computedVars (t : IntType) (body : List Statement) : List (Text × Option Int) :=
  body.foldl (fun vars s => s.computedVars t vars) []

/-- Each variable that the value reads is bound to what computes in the type. -/
def Value.InitialisersCompute (t : IntType) (before : List Statement) (v : Value) : Prop :=
  ∀ earlier pos l later, before = earlier ++ .bind pos l :: later →
    (∃ pos' asBytes, .var pos' l.name asBytes ∈ v.parts) →
      ∃ n, l.value.computed? t (computedVars t earlier) = some n

namespace Scope

/-- The remainder of the least number of the type by minus one. -/
def isRemOfLeast (sc : Scope) (t : IntType) : Value → Bool
  | .binary _ .rem l r => sc.constValue l = some t.least && sc.constValue r = some (-1)
  | _ => false

variable {sc : Scope} {env : Surroundings} {about : Text} {t : IntType} {v : Value}
  {vars : List (Text × Option Int)} {before : List Statement}

theorem computed?_binary_eq_some_iff {pos : SourcePos} {op : ArithOp} {l r : Value} {n : Int} :
    (Value.binary pos op l r).computed? t vars = some n ↔
      ∃ x y, l.computed? t vars = some x ∧ r.computed? t vars = some y ∧
        op.checked t x y = some n := by
  rw [Value.computed?]
  cases l.computed? t vars <;> cases r.computed? t vars <;> simp

theorem isRemOfLeast_binary_iff {pos : SourcePos} {op : ArithOp} {l r : Value} {x y : Int}
    (hLeft : sc.constValue l = some x) (hRight : sc.constValue r = some y) :
    sc.isRemOfLeast t (.binary pos op l r) = true ↔ op = .rem ∧ x = t.least ∧ y = -1 := by
  cases op <;> simp [isRemOfLeast, hLeft, hRight]

theorem constantInt_of_literal? {n : Nat} (h : v.literal? = some n) : ConstantInt before v n := by
  induction v with
  | int pos lit => exact .int h
  | paren pos v ih => exact .paren (ih h)
  | _ => cases h

theorem constantInt_append {n : Int} (h : ConstantInt before v n) (s : Statement) :
    ConstantInt (before ++ [s]) v n := by
  induction h with
  | int h => exact .int h
  | paren _ ih => exact .paren ih
  | neg _ ih => exact .neg ih
  | binary _ _ hFold ihLeft ihRight => exact .binary ihLeft ihRight hFold
  | var hDeclared h =>
    rw [List.append_assoc]
    exact .var hDeclared h

/-- What is computed in the type can be seen in the source. -/
theorem constantInt_of_computed? {n : Int} (h : v.computed? t vars = some n)
    (hVars : ∀ name n, (vars.lookup name).join = some n →
      ∀ pos asBytes, ConstantInt before (.var pos name asBytes) n) : ConstantInt before v n := by
  induction v generalizing n with
  | int pos lit =>
    obtain ⟨m, hm, hRange⟩ := Option.bind_eq_some_iff.mp h
    obtain ⟨_, rfl⟩ := IntType.inRange?_eq_some_iff.mp hRange
    exact .int hm
  | var pos name asBytes => exact hVars name n h pos asBytes
  | paren pos v ih => exact .paren (ih h)
  | neg pos v ih =>
    rw [Value.computed?, Option.ite_none_right_eq_some] at h
    obtain ⟨_, h⟩ := h
    split at h
    · rename_i m hLiteral
      obtain ⟨_, rfl⟩ := IntType.inRange?_eq_some_iff.mp h
      exact .neg (constantInt_of_literal? hLiteral)
    · obtain ⟨m, hm, hRange⟩ := Option.bind_eq_some_iff.mp h
      obtain ⟨_, rfl⟩ := IntType.inRange?_eq_some_iff.mp hRange
      exact .neg (ih hm)
  | binary pos op l r ihLeft ihRight =>
    obtain ⟨x, y, hx, hy, hChecked⟩ := computed?_binary_eq_some_iff.mp h
    exact .binary (ihLeft hx) (ihRight hy) (ArithOp.fold_of_checked hChecked)
  | _ => cases h

theorem constantInt_of_lookup {name : Text} {n : Int}
    (h : ((computedVars t before).lookup name).join = some n) (pos : SourcePos) (asBytes : Bool) :
    ConstantInt before (.var pos name asBytes) n := by
  induction before using List.reverseRecOn generalizing name n pos asBytes with
  | nil => cases h
  | append_singleton before s ih =>
    rw [computedVars, List.foldl_append] at h
    change ((s.computedVars t (computedVars t before)).lookup name).join = some n at h
    cases s with
    | bind pos' l =>
      rw [Statement.computedVars, List.lookup_cons] at h
      split at h
      · rename_i hSame
        obtain rfl := beq_iff_eq.mp hSame
        rw [Option.join_some, Option.ite_none_right_eq_some] at h
        obtain ⟨hDeclared, hValue⟩ := h
        exact .var (Option.isNone_iff_eq_none.mp hDeclared)
          (constantInt_of_computed? hValue fun _ _ hVar => ih hVar)
      · exact constantInt_append (ih h pos asBytes) _
    | _ => exact constantInt_append (ih h pos asBytes) _

/-- What a computation in the type gives is what the folding gives. -/
theorem constValue_of_computed? {n : Int}
    (hRun : Run env 0 (.initial env.instruction) before sc)
    (hNodup : (sc.locals.map Prod.fst).Nodup)
    (h : v.computed? t (computedVars t before) = some n) : sc.constValue v = some n :=
  ((constantInt_of_computed? h fun _ _ hVar => constantInt_of_lookup hVar).constValue_and_typeOf
    hRun hNodup).1

/-- With a value all its parts are checked. -/
theorem checkIntExpr_of_mem_parts {w : Value} (h : sc.checkIntExpr env t about v = .ok ())
    (hw : w ∈ v.parts) : sc.checkIntExpr env t about w = .ok () := by
  induction v with
  | binary pos op l r ihLeft ihRight =>
    rcases List.mem_cons.mp hw with rfl | hw
    · exact h
    simp only [checkIntExpr, bind_eq_ok_iff] at h
    obtain ⟨_, hLeft, _, hRight, _⟩ := h
    rcases List.mem_append.mp hw with hw | hw
    · exact ihLeft hLeft hw
    · exact ihRight hRight hw
  | neg pos v ih =>
    rcases List.mem_cons.mp hw with rfl | hw
    · exact h
    simp only [checkIntExpr, allowed_or_eq_ok_iff, bind_eq_ok_iff] at h
    obtain ⟨_, _, hOperand, _⟩ := h
    exact ih hOperand hw
  | paren pos v ih =>
    rcases List.mem_cons.mp hw with rfl | hw
    · exact h
    · exact ih h hw
  | _ =>
    rw [List.mem_singleton.mp hw]
    exact h

theorem fits_of_checkRange {n : Int} (h : sc.checkRange env t about v = .ok ())
    (hValue : sc.constValue v = some n) : t.fits n = true := by
  rw [checkRange, hValue] at h
  exact (allowed_or_eq_ok_iff.mp h).1

theorem fits_of_checkIntExpr {n : Int} (h : sc.checkIntExpr env t about v = .ok ())
    (hValue : sc.constValue v = some n) : t.fits n = true := by
  induction v with
  | paren pos v ih => exact ih h hValue
  | neg pos v =>
    simp only [checkIntExpr, allowed_or_eq_ok_iff, bind_eq_ok_iff] at h
    obtain ⟨_, _, _, hRange⟩ := h
    exact fits_of_checkRange hRange hValue
  | binary pos op l r =>
    simp only [checkIntExpr, bind_eq_ok_iff, refused_or_eq_ok_iff] at h
    obtain ⟨_, _, _, _, _, hRange⟩ := h
    exact fits_of_checkRange hRange hValue
  | _ => exact fits_of_checkRange h hValue

/-- The value takes no remainder of the least number by minus one. -/
def TakesNoRemOfLeast (sc : Scope) (t : IntType) (v : Value) : Prop :=
  ∀ u ∈ v.parts, sc.isRemOfLeast t u = false

/-- Every variable that the value reads has a value. -/
def ReadsComputed (vars : List (Text × Option Int)) (v : Value) : Prop :=
  ∀ pos name asBytes, .var pos name asBytes ∈ v.parts → ∃ n, (vars.lookup name).join = some n

theorem takesNoRemOfLeast_binary_iff {pos : SourcePos} {op : ArithOp} {l r : Value} {x y : Int}
    (hLeft : sc.constValue l = some x) (hRight : sc.constValue r = some y) :
    sc.TakesNoRemOfLeast t (.binary pos op l r) ↔
      ¬(op = .rem ∧ x = t.least ∧ y = -1) ∧ sc.TakesNoRemOfLeast t l ∧
        sc.TakesNoRemOfLeast t r := by
  simp only [TakesNoRemOfLeast, Value.parts, List.forall_mem_cons, List.forall_mem_append]
  rw [← Bool.not_eq_true, isRemOfLeast_binary_iff hLeft hRight]

theorem readsComputed_binary_iff {pos : SourcePos} {op : ArithOp} {l r : Value} :
    ReadsComputed vars (.binary pos op l r) ↔ ReadsComputed vars l ∧ ReadsComputed vars r := by
  simp only [ReadsComputed, Value.parts, List.mem_cons, List.mem_append, reduceCtorEq, false_or,
    or_imp, forall_and]

theorem computed?_of_literal? {n : Nat} (h : v.literal? = some n) (hFits : t.fits n = true) :
    v.computed? t vars = some (n : Int) := by
  induction v with
  | int pos lit =>
    change IntLiteral.value? lit = some n at h
    rw [Value.computed?, h]
    exact IntType.inRange?_eq_some_iff.mpr ⟨hFits, rfl⟩
  | paren pos v ih => exact ih h
  | _ => cases h

theorem constValue_of_literal? {n : Nat} (h : v.literal? = some n) :
    sc.constValue v = some (n : Int) := by
  induction v with
  | int pos lit => exact congrArg (Option.map _) h
  | paren pos v ih => exact ih h
  | _ => cases h

/-- A checked constant computes to what it folds to, unless it holds a remainder without a result
or reads a variable without a value. -/
theorem computed?_eq_some_iff {n : Int} (h : sc.checkIntExpr env t about v = .ok ())
    (hValue : sc.constValue v = some n)
    (hAgrees : ∀ v n, v.computed? t vars = some n → sc.constValue v = some n) :
    v.computed? t vars = some n ↔ sc.TakesNoRemOfLeast t v ∧ ReadsComputed vars v := by
  have hSame : ∀ {w m k}, sc.constValue w = some m → w.computed? t vars = some k → k = m :=
    fun hFold hk => Option.some.inj ((hAgrees _ _ hk).symm.trans hFold)
  induction v generalizing n with
  | int pos lit =>
    have hFits := fits_of_checkIntExpr h hValue
    obtain ⟨m, hm, rfl⟩ := Option.map_eq_some_iff.mp hValue
    refine iff_of_true (computed?_of_literal? hm hFits) ⟨?_, ?_⟩
    · exact List.forall_mem_singleton.mpr rfl
    · exact fun _ _ _ hVar => nomatch List.mem_singleton.mp hVar
  | var pos name asBytes =>
    have hTakes : sc.TakesNoRemOfLeast t (.var pos name asBytes) :=
      List.forall_mem_singleton.mpr rfl
    constructor
    · intro hComputed
      refine ⟨hTakes, fun _ _ _ hVar => ?_⟩
      cases List.mem_singleton.mp hVar
      exact ⟨n, hComputed⟩
    · rintro ⟨_, hReads⟩
      obtain ⟨m, hm⟩ := hReads pos name asBytes List.mem_cons_self
      exact hSame hValue hm ▸ hm
  | paren pos v ih =>
    have hInner : _ ↔ _ := ih h hValue
    have hReads : ReadsComputed vars (.paren pos v) ↔ ReadsComputed vars v := by
      simp only [ReadsComputed, Value.parts, List.mem_cons, reduceCtorEq, false_or]
    rw [Value.computed?, hInner, hReads, TakesNoRemOfLeast, TakesNoRemOfLeast, Value.parts,
      List.forall_mem_cons]
    exact and_congr_left fun _ => ⟨fun hParts => ⟨rfl, hParts⟩, fun hParts => hParts.2⟩
  | neg pos v ih =>
    have hFits := fits_of_checkIntExpr h hValue
    obtain ⟨m, hm, rfl⟩ := Option.map_eq_some_iff.mp hValue
    simp only [checkIntExpr, allowed_or_eq_ok_iff, bind_eq_ok_iff] at h
    obtain ⟨hSigned, _, hOperand, _⟩ := h
    have hInner : _ ↔ _ := ih hOperand hm
    have hReads : ReadsComputed vars (.neg pos v) ↔ ReadsComputed vars v := by
      simp only [ReadsComputed, Value.parts, List.mem_cons, reduceCtorEq, false_or]
    have hTakes : sc.TakesNoRemOfLeast t (.neg pos v) ↔ sc.TakesNoRemOfLeast t v := by
      rw [TakesNoRemOfLeast, Value.parts, List.forall_mem_cons]
      exact and_iff_right rfl
    rw [hReads, hTakes, ← hInner, Value.computed?, if_pos hSigned]
    have hResult : t.inRange? (-m) = some (-m) := IntType.inRange?_eq_some_iff.mpr ⟨hFits, rfl⟩
    split
    · rename_i k hLiteral
      obtain rfl := Option.some.inj ((constValue_of_literal? hLiteral).symm.trans hm)
      exact iff_of_true hResult (computed?_of_literal? hLiteral (fits_of_checkIntExpr hOperand hm))
    · constructor
      · intro hNeg
        obtain ⟨k, hk, _⟩ := Option.bind_eq_some_iff.mp hNeg
        exact hSame hm hk ▸ hk
      · intro hComputed
        rw [hComputed]
        exact hResult
  | binary pos op l r ihLeft ihRight =>
    have hFits := fits_of_checkIntExpr h hValue
    obtain ⟨x, y, hx, hy, hFold⟩ := constValue_binary_eq_some_iff.mp hValue
    simp only [checkIntExpr, bind_eq_ok_iff] at h
    obtain ⟨_, hLeft, _, hRight, _⟩ := h
    have hLeftFits := fits_of_checkIntExpr hLeft hx
    have hRightFits := fits_of_checkIntExpr hRight hy
    have hOperands : _ ↔ _ := and_congr (ihLeft hLeft hx) (ihRight hRight hy)
    rw [takesNoRemOfLeast_binary_iff hx hy, readsComputed_binary_iff, and_assoc, and_and_and_comm,
      ← hOperands, computed?_binary_eq_some_iff]
    constructor
    · rintro ⟨x', y', hx', hy', hChecked⟩
      obtain rfl := hSame hx hx'
      obtain rfl := hSame hy hy'
      refine ⟨?_, hx', hy'⟩
      rintro ⟨rfl, rfl, rfl⟩
      simp [ArithOp.checked] at hChecked
    · rintro ⟨hRem, hx', hy'⟩
      exact ⟨x, y, hx', hy', ArithOp.checked_of_fold hFold hLeftFits hRightFits hFits hRem⟩
  | _ => cases hValue

theorem checkIntExpr_of_checkInt {type : ValueType} (h : sc.checkInt env type about v = .ok ())
    (hInt : type.int? = some t) : sc.checkIntExpr env t about v = .ok () := by
  obtain ⟨hKind, hTyped⟩ := ValueType.int?_eq_some_iff.mp hInt
  simpa only [checkInt, hKind, hTyped, ↓reduceIte] using h

end Scope

/-- A value that a statement uses at an integer type is checked against it. -/
theorem Resolution.checkIntExpr_of_intUse? {p : Program} {r : ResolvedInstruction}
    (hi : r.source.DistinctParams) (hTypable : p.Typable r.source)
    (h : resolveInstruction p r.source = .ok r) {s : Statement} {before after : List Statement}
    (hBody : r.source.body = before ++ s :: after) {sc : Scope}
    (hBefore : (Scope.initial r.source).resolveBody ⟨p, r.source⟩ 0 before = .ok sc) {v : Value}
    {t : IntType} (hUse : r.intUse? p s = some (v, t)) :
    ∃ about, sc.checkIntExpr ⟨p, r.source⟩ t about v = .ok () := by
  have hNodup := nodup_locals hTypable h
  obtain ⟨_, last, hLast, hFinish⟩ := resolveInstruction_eq_ok_iff.mp h
  have hLocals : last.locals = r.locals := congrArg ResolvedInstruction.locals hFinish
  rw [hBody] at hLast
  obtain ⟨mid, next, hMid, hNext, hAfter⟩ := Scope.resolveBody_append_cons_eq_ok hLast
  obtain rfl : mid = sc := Except.ok.inj (hMid.symm.trans hBefore)
  have hRoles := (Scope.run_of_resolveBody hMid).hasRolesOf (.initial hi)
  have hKept := (Scope.run_of_resolveBody hAfter).locals_suffix
  rw [hLocals] at hKept
  cases Scope.step_of_resolveStatement hNext with
  | derive => cases hUse
  | close => cases hUse
  | @assign pos a target source hTarget _ _ hInt =>
    rw [ResolvedInstruction.intUse?, Scope.stateField_ok hRoles hTarget] at hUse
    obtain ⟨u, hu, ⟨⟩⟩ := Option.map_eq_some_iff.mp hUse
    exact ⟨_, Scope.checkIntExpr_of_checkInt hInt hu⟩
  | call _ _ hAmount =>
    cases hUse
    simp only [Scope.checkAmount, bind_eq_ok_iff, refused_or_eq_ok_iff] at hAmount
    obtain ⟨_, _, _, _, hInt⟩ := hAmount
    exact ⟨_, Scope.checkIntExpr_of_checkInt hInt (by decide)⟩
  | @bind pos l found type constants _ _ hInt =>
    rw [ResolvedInstruction.intUse?,
      lookup_of_suffix hNodup hKept List.lookup_cons_self] at hUse
    obtain ⟨u, hu, ⟨⟩⟩ := Option.map_eq_some_iff.mp hUse
    exact ⟨_, Scope.checkIntExpr_of_checkInt hInt hu⟩

theorem map_fst_computedVars (t : IntType) (before : List Statement) :
    (computedVars t before).map Prod.fst =
      ((before.filterMap Statement.declaration?).map Prod.fst).reverse := by
  induction before using List.reverseRecOn with
  | nil => rfl
  | append_singleton before s ih =>
    rw [computedVars, List.foldl_append, ← computedVars, List.filterMap_append, List.map_append,
      List.reverse_append, ← ih]
    cases s <;> rfl

theorem computedVars_suffix (t : IntType) (vars : List (Text × Option Int)) (later : List Statement) :
    vars <:+ later.foldl (fun vars s => s.computedVars t vars) vars := by
  induction later generalizing vars with
  | nil => exact List.suffix_rfl
  | cons s later ih =>
    refine List.IsSuffix.trans ?_ (ih _)
    cases s with
    | bind => exact List.suffix_cons _ _
    | _ => exact List.suffix_rfl

namespace Scope

variable {env : Surroundings} {before : List Statement} {sc : Scope} {t : IntType}

theorem constValue_of_mem_parts {v w : Value} {n : Int} (h : sc.constValue v = some n)
    (hw : w ∈ v.parts) : ∃ m, sc.constValue w = some m := by
  induction v generalizing n with
  | paren pos v ih =>
    rcases List.mem_cons.mp hw with rfl | hw
    · exact ⟨n, h⟩
    · exact ih h hw
  | neg pos v ih =>
    rcases List.mem_cons.mp hw with rfl | hw
    · exact ⟨n, h⟩
    obtain ⟨m, hm, _⟩ := Option.map_eq_some_iff.mp h
    exact ih hm hw
  | binary pos op l r ihLeft ihRight =>
    rcases List.mem_cons.mp hw with rfl | hw
    · exact ⟨n, h⟩
    obtain ⟨x, y, hx, hy, _⟩ := constValue_binary_eq_some_iff.mp h
    rcases List.mem_append.mp hw with hw | hw
    · exact ihLeft hx hw
    · exact ihRight hy hw
  | _ => exact ⟨n, List.mem_singleton.mp hw ▸ h⟩

theorem lookup_computedVars (hRun : Run env 0 (.initial env.instruction) before sc)
    (hNodup : (sc.locals.map Prod.fst).Nodup) {earlier later : List Statement} {pos : SourcePos}
    {l : LocalBinding} (hBefore : before = earlier ++ .bind pos l :: later) :
    (computedVars t before).lookup l.name =
      some (if l.declared.isNone then l.value.computed? t (computedVars t earlier) else none) := by
  have hNames : ((computedVars t before).map Prod.fst).Nodup := by
    rw [map_fst_computedVars]
    have hLocals := hRun.locals_names
    exact (List.append_nil _ ▸ hLocals) ▸ hNodup
  have hSuffix := computedVars_suffix t ((Statement.bind pos l).computedVars t (computedVars t earlier))
    later
  rw [hBefore, computedVars, List.foldl_append, List.foldl_cons] at hNames ⊢
  exact lookup_of_suffix hNames hSuffix List.lookup_cons_self

/-- Where the names of variables differ, those that a constant reads have values exactly if what
they are bound to computes. -/
theorem readsComputed_iff {w : Value} {n : Int}
    (hRun : Run env 0 (.initial env.instruction) before sc)
    (hNodup : (sc.locals.map Prod.fst).Nodup)
    (hDeclared : ∀ pos l, .bind pos l ∈ before → ∀ u, l.declared = some (.value u) → u ≠ .intLiteral)
    (hConst : sc.constValue w = some n) :
    ReadsComputed (computedVars t before) w ↔ w.InitialisersCompute t before := by
  constructor
  · rintro hReads earlier pos l later hBefore ⟨pos', asBytes, hVar⟩
    obtain ⟨m, hm⟩ := hReads pos' l.name asBytes hVar
    rw [lookup_computedVars hRun hNodup hBefore, Option.join_some,
      Option.ite_none_right_eq_some] at hm
    exact ⟨m, hm.2⟩
  · intro hInitialisers pos name asBytes hVar
    obtain ⟨k, hk⟩ := constValue_of_mem_parts hConst hVar
    obtain ⟨earlier, pos', l, later, hBefore, rfl, hNone⟩ :=
      hRun.exists_bind_of_constant? hDeclared hk
    obtain ⟨m, hm⟩ := hInitialisers earlier pos' l later hBefore ⟨pos, asBytes, hVar⟩
    refine ⟨m, ?_⟩
    rw [lookup_computedVars hRun hNodup hBefore, Option.join_some, hNone]
    exact hm

end Scope

/-- In an accepted body, a constant part of a value that is used at an integer type computes in that
type to the number it folds to, exactly if it takes no remainder of the least number by minus one
and all that the variables it reads are bound to computes in the type. -/
theorem constant_parts_compute_iff {o : CompileOptions} {name src : Text} {rp : ResolvedProgram}
    (h : resolveSource o name src = .ok rp) {r : ResolvedInstruction} (hr : r ∈ rp.instructions)
    {s : Statement} {before after : List Statement} (hBody : r.source.body = before ++ s :: after)
    {sc : Scope}
    (hBefore : (Scope.initial r.source).resolveBody ⟨rp.source, r.source⟩ 0 before = .ok sc)
    {v : Value} {t : IntType} (hUse : r.intUse? rp.source s = some (v, t)) {w : Value}
    (hw : w ∈ v.parts) {n : Int} (hConst : sc.constValue w = some n) :
    w.computed? t (computedVars t before) = some n ↔
      sc.TakesNoRemOfLeast t w ∧ w.InitialisersCompute t before := by
  obtain ⟨hParams, hResolved⟩ := resolveSource_of_mem h hr
  obtain ⟨p, hExtracted, hp⟩ := bind_eq_ok_iff.mp h
  obtain ⟨rfl, _⟩ := Program.resolve_eq_ok_iff.mp hp
  have hTypable := (extractProgram_typable hExtracted).2 _ (Program.resolved_of_mem hp hr).1
  obtain ⟨about, hChecked⟩ :=
    Resolution.checkIntExpr_of_intUse? hParams hTypable hResolved hBody hBefore hUse
  have hRun := Scope.run_of_resolveBody hBefore
  have hNodup := hRun.nodup_locals hBody hTypable.apart
  have hDeclared : ∀ pos l, .bind pos l ∈ before → ∀ u, l.declared = some (.value u) →
      u ≠ .intLiteral := fun pos l hl =>
    hTypable.declared pos l (hBody ▸ List.mem_append_left _ hl)
  rw [← Scope.readsComputed_iff hRun hNodup hDeclared hConst]
  exact Scope.computed?_eq_some_iff (Scope.checkIntExpr_of_mem_parts hChecked hw) hConst
    fun _ _ => Scope.constValue_of_computed? hRun hNodup

/-- A program with both gaps. The first instruction computes the least `i8` from a variable and
stores its remainder by minus one, and the second stores a variable that is bound to a difference of
numbers which are no `i8`. -/
def remainderSource : Text := Text.join "\n" [
  "export default class P \x7b",
  "static PROGRAM_ID = new Pubkey('11111111111111111111111111111111')",
  "f(s: S) \x7b const x = 8; s.a = (-x - 120) % -1 \x7d",
  "g(s: S) \x7b const x = 300 - 200; s.a = x \x7d \x7d",
  "interface S extends Account \x7b a: i8 \x7d"]

/-- In a body of two statements, the second uses a value like this at an integer type. -/
def ResolvedInstruction.usesSecond (r : ResolvedInstruction) (p : Program)
    (f : Scope → List (Text × Option Int) → Value → IntType → Bool) : Bool :=
  match r.source.body with
  | [b, s] =>
    ((Scope.initial r.source).resolveBody ⟨p, r.source⟩ 0 [b]).toOption.any fun sc =>
      (r.intUse? p s).any fun q => f sc (computedVars q.2 [b]) q.1 q.2
  | _ => false

theorem exists_use_of_usesSecond {r : ResolvedInstruction} {p : Program}
    {f : Scope → List (Text × Option Int) → Value → IntType → Bool}
    (h : r.usesSecond p f = true) : ∃ b s sc v t, r.source.body = [b, s] ∧
      (Scope.initial r.source).resolveBody ⟨p, r.source⟩ 0 [b] = .ok sc ∧
      r.intUse? p s = some (v, t) ∧ f sc (computedVars t [b]) v t = true := by
  unfold ResolvedInstruction.usesSecond at h
  split at h
  · rename_i b s hBody
    obtain ⟨sc, hBefore, h⟩ := exists_ok_of_any _ h
    obtain ⟨⟨v, t⟩, hUse, h⟩ := (Option.any_eq_true _ _).mp h
    exact ⟨b, s, sc, v, t, hBody, hBefore, hUse, h⟩
  · cases h

theorem remainderSource_computes_in_part : ∃ rp, resolveSource {} "p.ts" remainderSource = .ok rp ∧
    (∃ r ∈ rp.instructions, ∃ b s sc v w t, r.source.body = [b, s] ∧
      (Scope.initial r.source).resolveBody ⟨rp.source, r.source⟩ 0 [b] = .ok sc ∧
      r.intUse? rp.source s = some (v, t) ∧ w ∈ v.parts ∧
      w.computed? t (computedVars t [b]) = some (-128) ∧ w.InitialisersCompute t [b] ∧
      sc.constValue v = some 0 ∧ v.computed? t (computedVars t [b]) ≠ some 0) ∧
    ∃ r ∈ rp.instructions, ∃ b s sc v t, r.source.body = [b, s] ∧
      (Scope.initial r.source).resolveBody ⟨rp.source, r.source⟩ 0 [b] = .ok sc ∧
      r.intUse? rp.source s = some (v, t) ∧ sc.constValue v = some 100 ∧
      sc.TakesNoRemOfLeast t v ∧ ¬v.InitialisersCompute t [b] := by
  obtain ⟨rp, hrp, hChecked⟩ := exists_ok_of_any
    (x := resolveSource {} "p.ts" remainderSource)
    (fun rp =>
      (rp.instructions.any (·.usesSecond rp.source fun sc vars v t =>
        v.parts.any (fun w => sc.constValue w == some (-128) && w.computed? t vars == some (-128)) &&
          sc.constValue v == some 0 && v.computed? t vars != some 0)) &&
      rp.instructions.any (·.usesSecond rp.source fun sc vars v t => sc.constValue v == some 100 &&
        v.parts.all (fun u => !sc.isRemOfLeast t u) && v.computed? t vars != some 100)) (by
      simp (disch := rfl) only [remainderSource, Text.ofString_literal]
      decide +kernel)
  obtain ⟨hRemainder, hLocal⟩ := Bool.and_eq_true_iff.mp hChecked
  refine ⟨rp, hrp, ?_, ?_⟩
  · obtain ⟨r, hr, hChecked⟩ := List.any_eq_true.mp hRemainder
    obtain ⟨b, s, sc, v, t, hBody, hBefore, hUse, hChecked⟩ := exists_use_of_usesSecond hChecked
    simp only [Bool.and_eq_true, beq_iff_eq, List.any_eq_true, bne_iff_ne] at hChecked
    obtain ⟨⟨⟨w, hw, hFold, hComputed⟩, hZero⟩, hNone⟩ := hChecked
    have hParts := (constant_parts_compute_iff hrp hr hBody hBefore hUse hw hFold).mp hComputed
    exact ⟨r, hr, b, s, sc, v, w, t, hBody, hBefore, hUse, hw, hComputed, hParts.2, hZero, hNone⟩
  · obtain ⟨r, hr, hChecked⟩ := List.any_eq_true.mp hLocal
    obtain ⟨b, s, sc, v, t, hBody, hBefore, hUse, hChecked⟩ := exists_use_of_usesSecond hChecked
    simp only [Bool.and_eq_true, beq_iff_eq, List.all_eq_true, Bool.not_eq_true',
      bne_iff_ne] at hChecked
    obtain ⟨⟨hFold, hTakes⟩, hNone⟩ := hChecked
    refine ⟨r, hr, b, s, sc, v, t, hBody, hBefore, hUse, hFold, hTakes, fun hInitialisers => ?_⟩
    exact hNone ((constant_parts_compute_iff hrp hr hBody hBefore hUse v.mem_parts_self hFold).mpr
      ⟨hTakes, hInitialisers⟩)

end AnchorScript
