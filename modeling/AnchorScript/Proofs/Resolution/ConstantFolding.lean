import AnchorScript.Proofs.Resolution.Typing

/-!
# Numbers that can be seen in the source

A number that is computed from literals, and from variables that are bound to such numbers without a
declared type, is what the folding of constants gives, and its type is that of a bare literal.
-/

namespace AnchorScript

open Outcome

/-- The value is this number: it is computed from literals and from variables that the statements
before it bind, without a declared type, to such numbers. -/
inductive ConstantInt : List Statement → Value → Int → Prop
  | int {before : List Statement} {pos : SourcePos} {lit : Text} {n : Nat}
      (h : IntLiteral.value? lit = some n) : ConstantInt before (.int pos lit) n
  | paren {before : List Statement} {pos : SourcePos} {v : Value} {n : Int}
      (h : ConstantInt before v n) : ConstantInt before (.paren pos v) n
  | neg {before : List Statement} {pos : SourcePos} {v : Value} {n : Int}
      (h : ConstantInt before v n) : ConstantInt before (.neg pos v) (-n)
  | binary {before : List Statement} {pos : SourcePos} {op : ArithOp} {l r : Value} {x y n : Int}
      (hLeft : ConstantInt before l x) (hRight : ConstantInt before r y)
      (hFold : op.fold x y = some n) : ConstantInt before (.binary pos op l r) n
  | var {earlier later : List Statement} {pos pos' : SourcePos} {l : LocalBinding}
      {asBytes : Bool} {n : Int} (hDeclared : l.declared = none)
      (h : ConstantInt earlier l.value n) :
      ConstantInt (earlier ++ .bind pos' l :: later) (.var pos l.name asBytes) n

namespace Scope

variable {sc sc' : Scope} {env : Surroundings} {about : Text} {index : Nat} {v : Value}

theorem constValue_binary_eq_some_iff {pos : SourcePos} {op : ArithOp} {l r : Value} {n : Int} :
    sc.constValue (.binary pos op l r) = some n ↔
      ∃ x y, sc.constValue l = some x ∧ sc.constValue r = some y ∧ op.fold x y = some n := by
  rw [constValue]
  cases sc.constValue l <;> cases sc.constValue r <;> simp

theorem Step.constants_suffix {s : Statement} (h : Step env index sc s sc') :
    sc.constants <:+ sc'.constants := by
  cases h with
  | bind _ _ _ hConstants =>
    rw [hConstants]
    split
    · exact List.suffix_cons _ _
    · exact List.suffix_rfl
  | _ => exact List.suffix_rfl

theorem Step.constants_sublist {s : Statement} (h : Step env index sc s sc')
    (hNames : (sc.constants.map Prod.fst).Sublist (sc.locals.map Prod.fst)) :
    (sc'.constants.map Prod.fst).Sublist (sc'.locals.map Prod.fst) := by
  cases h with
  | bind _ _ _ hConstants =>
    rw [hConstants]
    split
    · exact hNames.cons_cons _
    · exact hNames.cons _
  | _ => exact hNames

theorem Run.constants_suffix {body : List Statement} (h : Run env index sc body sc') :
    sc.constants <:+ sc'.constants := by
  induction h with
  | nil => exact List.suffix_rfl
  | cons hStep _ ih => exact hStep.constants_suffix.trans ih

/-- Every constant is remembered under the name of a variable. -/
theorem Run.constants_sublist {body : List Statement}
    (h : Run env index (.initial env.instruction) body sc) :
    (sc.constants.map Prod.fst).Sublist (sc.locals.map Prod.fst) :=
  h.induction (P := fun _ sc => (sc.constants.map Prod.fst).Sublist (sc.locals.map Prod.fst))
    (List.nil_sublist _) fun _ _ _ _ _ _ _ hNames hStep => hStep.constants_sublist hNames

/-- Every constant is what a variable without a declared type is bound to. -/
theorem Run.exists_bind_of_constant? {body : List Statement}
    (h : Run env index (.initial env.instruction) body sc)
    (hDeclared : ∀ pos l, .bind pos l ∈ body → ∀ t, l.declared = some (.value t) → t ≠ .intLiteral)
    {name : Text} {n : Int} (hConst : sc.constant? name = some n) :
    ∃ before pos l after, body = before ++ .bind pos l :: after ∧ l.name = name ∧
      l.declared = none := by
  refine h.induction (P := fun body sc => ∀ name n, sc.constant? name = some n →
    ∃ before pos l after, body = before ++ .bind pos l :: after ∧ l.name = name ∧
      l.declared = none) nofun ?_ name n hConst
  intro before s after index sc₁ sc₂ hBody hBefore hStep name n hConst
  have hEarlier (hConst : sc₁.constant? name = some n) :
      ∃ earlier pos l after, before ++ [s] = earlier ++ .bind pos l :: after ∧ l.name = name ∧
        l.declared = none := by
    obtain ⟨earlier, pos, l, later, rfl, hl⟩ := hBefore name n hConst
    exact ⟨earlier, pos, l, later ++ [s], by rw [List.append_assoc, List.cons_append], hl⟩
  cases hStep with
  | @bind pos l found t constants _ hType _ hConstants =>
    rw [constant?, hConstants] at hConst
    split at hConst
    · rename_i m hNew
      obtain ⟨hLiteral, _⟩ := Option.ite_none_right_eq_some.mp hNew
      by_cases hSame : name = l.name
      · refine ⟨before, pos, l, [], rfl, hSame.symm, ?_⟩
        rcases hType with ⟨hNone, _⟩ | ⟨d, hSome, _, rfl⟩
        · exact hNone
        · have hMem : .bind pos l ∈ body := hBody ▸ List.mem_append_right _ List.mem_cons_self
          exact absurd hLiteral (hDeclared pos l hMem t hSome)
      · rw [List.lookup_cons, beq_false_of_ne hSame] at hConst
        exact hEarlier hConst
    · exact hEarlier hConst
  | _ => exact hEarlier hConst

theorem constValue_with_locals (locals : List (Text × ValueType)) :
    ({ sc with locals } : Scope).constValue v = sc.constValue v := by
  induction v with
  | paren pos v ih => exact ih
  | neg pos v ih => rw [constValue, constValue, ih]
  | binary pos op l r ihLeft ihRight => rw [constValue, constValue, ihLeft, ihRight]
  | _ => rfl

end Scope

/-- A number that can be seen in the source is folded to, and its type is that of a bare literal. -/
theorem ConstantInt.constValue_and_typeOf {env : Surroundings} {before : List Statement} {v : Value}
    {n : Int} (h : ConstantInt before v n) {sc : Scope}
    (hRun : Scope.Run env 0 (.initial env.instruction) before sc)
    (hNodup : (sc.locals.map Prod.fst).Nodup) :
    sc.constValue v = some n ∧
      ∀ about t, sc.typeOf env about v = .ok t → t = .intLiteral := by
  induction h generalizing sc with
  | int hValue =>
    refine ⟨by rw [Scope.constValue, hValue]; rfl, ?_⟩
    rintro about t ⟨⟩
    rfl
  | paren _ ih => exact ih hRun hNodup
  | neg _ ih =>
    obtain ⟨hConst, hLiteral⟩ := ih hRun hNodup
    refine ⟨by rw [Scope.constValue, hConst]; rfl, ?_⟩
    intro about t hType
    simp only [Scope.typeOf, bind_eq_ok_iff, allowed_or_eq_ok_iff, pure_eq_ok_iff] at hType
    obtain ⟨_, hOperand, _, rfl⟩ := hType
    exact hLiteral about _ hOperand
  | binary _ _ hFold ihLeft ihRight =>
    obtain ⟨hLeftConst, _⟩ := ihLeft hRun hNodup
    obtain ⟨hRightConst, hRightLiteral⟩ := ihRight hRun hNodup
    refine ⟨Scope.constValue_binary_eq_some_iff.mpr ⟨_, _, hLeftConst, hRightConst, hFold⟩, ?_⟩
    intro about t hType
    simp only [Scope.typeOf, bind_eq_ok_iff] at hType
    obtain ⟨lt, hLeft, rt, hRight, hCommon⟩ := hType
    obtain rfl := (ihLeft hRun hNodup).2 about lt hLeft
    obtain rfl := hRightLiteral about rt hRight
    rcases (Scope.operandType_ok hCommon).2.2 with ⟨_, rfl⟩ | ⟨rfl, _⟩ <;> rfl
  | @var earlier later pos pos' l asBytes n hDeclared _ ih =>
    have hNames := hRun.constants_sublist
    obtain ⟨sc₁, sc₂, hEarlier, hStep, hLater⟩ := hRun.split
    have hKept := (Scope.Run.cons hStep hLater).locals_suffix
    obtain ⟨hConst, hLiteral⟩ := ih hEarlier (hNodup.sublist (hKept.sublist.map _))
    cases hStep with
    | @bind _ _ found t constants hFound hType _ hConstants =>
      obtain rfl : t = .intLiteral := by
        rcases hType with ⟨_, rfl⟩ | ⟨d, hSome, _⟩
        · exact hLiteral [] t hFound
        · rw [hDeclared] at hSome
          cases hSome
      rw [if_pos rfl, Scope.constValue_with_locals, hConst] at hConstants
      subst hConstants
      refine ⟨?_, fun about u hu => ?_⟩
      · exact lookup_of_suffix (hNodup.sublist hNames) hLater.constants_suffix
          List.lookup_cons_self
      · have hVar : sc.varType? l.name = some .intLiteral :=
          lookup_of_suffix hNodup hLater.locals_suffix List.lookup_cons_self
        simp only [Scope.typeOf, hVar, refused_or_eq_ok_iff, Except.ok.injEq] at hu
        exact hu.2.symm

end AnchorScript
