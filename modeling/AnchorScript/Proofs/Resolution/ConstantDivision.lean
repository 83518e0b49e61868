import AnchorScript.Proofs.Resolution.ConstantArithmetic

/-!
# Divisions by the constant zero

Where an accepted body can divide by zero and the zero can be seen in the source: computed from
literals, or from variables that are bound to such constants. Every value that has an integer type
is checked for it, and so is every seed list, which holds no arithmetic at all. What is left is the
value of a variable that is bound to bare literals. It has no type yet, and nothing checks it later.
-/

namespace AnchorScript

open Outcome

/-- One of the values it is computed from is divided by the constant zero. -/
def Value.DividesByZero (before : List Statement) (v : Value) : Prop :=
  ∃ pos op l r, .binary pos op l r ∈ v.parts ∧ op.isDivision = true ∧ ConstantInt before r 0

namespace Scope

variable {sc sc' : Scope} {env : Surroundings} {about : Text} {index : Nat} {v : Value}
  {before : List Statement}

/-- A value with arithmetic in it is an integer. -/
theorem isInt_of_mem_parts {t : ValueType} {pos : SourcePos} {op : ArithOp} {l r : Value}
    (h : sc.typeOf env about v = .ok t) (hPart : .binary pos op l r ∈ v.parts) :
    t.kind.isInt = true := by
  induction v generalizing t with
  | binary pos' op' l' r' =>
    simp only [typeOf, bind_eq_ok_iff] at h
    obtain ⟨lt, _, rt, _, hCommon⟩ := h
    obtain ⟨hLeft, hRight, ⟨_, rfl⟩ | ⟨rfl, _⟩⟩ := operandType_ok hCommon
    · exact hRight
    · exact hLeft
  | paren pos' v ih =>
    rcases List.mem_cons.mp hPart with hSame | hPart
    · cases hSame
    · exact ih h hPart
  | neg pos' v ih =>
    rcases List.mem_cons.mp hPart with hSame | hPart
    · cases hSame
    simp only [typeOf, bind_eq_ok_iff, allowed_or_eq_ok_iff, pure_eq_ok_iff] at h
    obtain ⟨_, hOperand, _, rfl⟩ := h
    exact ih hOperand hPart
  | _ => cases List.mem_singleton.mp hPart

theorem not_dividesByZero_of_checkIntExpr {t : IntType}
    (hRun : Run env 0 (.initial env.instruction) before sc)
    (hNodup : (sc.locals.map Prod.fst).Nodup) (h : sc.checkIntExpr env t about v = .ok ()) :
    ¬v.DividesByZero before := by
  rintro ⟨pos, op, l, r, hPart, hDivision, hZero⟩
  have hConst := (hZero.constValue_and_typeOf hRun hNodup).1
  have hChecked := checkIntExpr_of_mem_parts h hPart
  simp only [checkIntExpr, bind_eq_ok_iff, refused_or_eq_ok_iff] at hChecked
  obtain ⟨_, _, _, _, hNonzero, _⟩ := hChecked
  simp [hDivision, hConst] at hNonzero

/-- Only a value that is used as a bare literal can divide by the constant zero. -/
theorem eq_intLiteral_of_dividesByZero {type found : ValueType}
    (hRun : Run env 0 (.initial env.instruction) before sc)
    (hNodup : (sc.locals.map Prod.fst).Nodup) (hFound : sc.typeOf env about v = .ok found)
    (hAccepts : type.accepts found = true) (hInt : sc.checkInt env type about v = .ok ())
    (hZero : v.DividesByZero before) : type = .intLiteral := by
  have hFoundInt : found.kind.isInt = true := by
    obtain ⟨pos, op, l, r, hPart, _⟩ := hZero
    exact isInt_of_mem_parts hFound hPart
  have hTypeInt : ∃ t, type.kind = .int t := by
    unfold ValueType.accepts at hAccepts
    cases hKind : type.kind with
    | int t => exact ⟨t, rfl⟩
    | _ =>
      cases hFoundKind : found.kind <;>
        simp [hKind, hFoundKind, ValueKind.assignableFrom, ValueKind.isInt] at hAccepts hFoundInt
  obtain ⟨t, hKind⟩ := hTypeInt
  by_contra hTyped
  have hInt? : type.int? = some t := ValueType.int?_eq_some_iff.mpr ⟨hKind, hTyped⟩
  exact not_dividesByZero_of_checkIntExpr hRun hNodup (checkIntExpr_of_checkInt hInt hInt?) hZero

/-- A seed holds no arithmetic. -/
theorem not_dividesByZero_of_seedSource {use : SeedUse} {isLast : Bool} {source : SeedSource}
    (h : sc.seedSource env about use isLast v = .ok source) : ¬v.DividesByZero before := by
  rintro ⟨pos, op, l, r, hPart, _⟩
  cases v with
  | binary | neg | paren => cases h
  | _ => cases List.mem_singleton.mp hPart

theorem not_dividesByZero_of_seeds {use : SeedUse} {vs : List Value} {ss : List Seed}
    (h : sc.seeds env about use vs = .ok ss) : ∀ v ∈ vs, ¬v.DividesByZero before := by
  have hList := (seeds_ok h).2
  clear h
  induction vs generalizing ss with
  | nil => exact fun v hv => absurd hv List.not_mem_nil
  | cons v vs ih =>
    obtain ⟨source, rest, hSource, hRest, _⟩ := seedList_cons_eq_ok_iff.mp hList
    exact List.forall_mem_cons.mpr ⟨not_dividesByZero_of_seedSource hSource, ih hRest⟩

theorem not_dividesByZero_of_bumpField {bump : FieldRef}
    (h : sc.bumpField env about v = .ok bump) : ¬v.DividesByZero before := by
  rintro ⟨pos, op, l, r, hPart, _⟩
  cases v with
  | field => cases List.mem_singleton.mp hPart
  | _ => cases h

theorem not_dividesByZero_of_callSeeds {pos : SourcePos} {c : CrossProgramCall}
    {seeds : Option (List Seed)} (h : sc.callSeeds env pos c = .ok seeds) :
    ∀ v ∈ c.signerSeeds.getD [], ¬v.DividesByZero before := by
  unfold callSeeds at h
  split at h
  · rename_i hNone
    simp [hNone]
  · rename_i values hValues
    simp only [refused_or_eq_ok_iff, bind_eq_ok_iff] at h
    obtain ⟨_, list, hList, _⟩ := h
    rw [hValues, Option.getD_some]
    exact not_dividesByZero_of_seeds hList

theorem not_dividesByZero_of_derive {d : Derive} {seeds : List Seed} {address : AddressSource}
    (hSeeds : sc.addressSeeds env d = .ok seeds)
    (hAddress : sc.addressSource env d seeds = .ok address) :
    ∀ v ∈ d.form.values, ¬v.DividesByZero before := by
  have hSeedValues : ∀ v ∈ d.form.seedValues, ¬v.DividesByZero before :=
    not_dividesByZero_of_seeds hSeeds
  unfold DeriveForm.values
  split
  · rename_i values bump hForm
    simp only [addressSource, hForm, bind_eq_ok_iff] at hAddress
    obtain ⟨stored, hBump, _⟩ := hAddress
    rw [hForm] at hSeedValues
    exact List.forall_mem_append.mpr
      ⟨hSeedValues, List.forall_mem_singleton.mpr (not_dividesByZero_of_bumpField hBump)⟩
  · exact hSeedValues

end Scope

/-- In an accepted body only the value of a variable that is bound to bare literals, without a
declared type, divides by the constant zero. -/
theorem divides_by_zero_only_in_literals {o : CompileOptions} {name src : Text}
    {rp : ResolvedProgram} (h : resolveSource o name src = .ok rp) {r : ResolvedInstruction}
    (hr : r ∈ rp.instructions) {s : Statement} {before after : List Statement}
    (hBody : r.source.body = before ++ s :: after) {v : Value} (hv : v ∈ s.values)
    (hZero : v.DividesByZero before) :
    ∃ pos l, s = .bind pos l ∧ l.value = v ∧ l.declared = none ∧ r.IsLiteral l.name := by
  obtain ⟨hParams, hResolved⟩ := resolveSource_of_mem h hr
  obtain ⟨p, hExtracted, hp⟩ := bind_eq_ok_iff.mp h
  obtain ⟨rfl, _⟩ := Program.resolve_eq_ok_iff.mp hp
  have hTypable := (extractProgram_typable hExtracted).2 _ (Program.resolved_of_mem hp hr).1
  obtain ⟨last, hRun, hFinish⟩ := Resolution.run_of_resolveInstruction hResolved
  rw [hBody] at hRun
  obtain ⟨sc, sc', hBefore, hStep, hAfter⟩ := hRun.split
  have hRoles := hBefore.hasRolesOf (.initial hParams)
  have hNodup := hBefore.nodup_locals hBody hTypable.apart
  cases hStep with
  | close => cases hv
  | derive _ _ hSeeds _ hAddress =>
    exact absurd hZero (Scope.not_dividesByZero_of_derive hSeeds hAddress v hv)
  | assign hTarget hType hAccepts hInt =>
    obtain rfl := List.mem_singleton.mp hv
    have hLiteral :=
      Scope.eq_intLiteral_of_dividesByZero hBefore hNodup hType hAccepts hInt hZero
    exact absurd hLiteral (hTypable.fields _ _ _ (Scope.stateField_ok hRoles hTarget))
  | call _ _ hAmount hSeeds =>
    rcases List.mem_cons.mp hv with rfl | hv
    · simp only [Scope.checkAmount, bind_eq_ok_iff, refused_or_eq_ok_iff] at hAmount
      obtain ⟨_, _, _, _, hInt⟩ := hAmount
      have hChecked := Scope.checkIntExpr_of_checkInt hInt (t := ⟨.w64, false⟩) (by decide)
      exact absurd hZero (Scope.not_dividesByZero_of_checkIntExpr hBefore hNodup hChecked)
    · exact absurd hZero (Scope.not_dividesByZero_of_callSeeds hSeeds v hv)
  | @bind pos l found t constants hFound hType hInt =>
    obtain rfl := List.mem_singleton.mp hv
    have hAccepts : t.accepts found = true := by
      rcases hType with ⟨_, rfl⟩ | ⟨d, _, hAccepts, rfl⟩
      · exact t.accepts_self
      · exact hAccepts
    obtain rfl :=
      Scope.eq_intLiteral_of_dividesByZero hBefore hNodup hFound hAccepts hInt hZero
    refine ⟨pos, l, rfl, rfl, ?_, ?_⟩
    · rcases hType with ⟨hNone, _⟩ | ⟨d, hSome, _, rfl⟩
      · exact hNone
      · have hMem : .bind pos l ∈ r.source.body := by
          rw [hBody]
          exact List.mem_append_right _ List.mem_cons_self
        exact absurd rfl (hTypable.declared pos l hMem _ hSome)
    · have hLocals : last.locals = r.locals := congrArg ResolvedInstruction.locals hFinish
      have hKept := hAfter.locals_suffix
      rw [hLocals] at hKept
      exact lookup_of_suffix (Resolution.nodup_locals hTypable hResolved) hKept
        List.lookup_cons_self

/-- A program that divides by the constant zero and is accepted. -/
def quotientSource : Text := Text.join "\n" [
  "export default class P \x7b",
  "static PROGRAM_ID = new Pubkey('11111111111111111111111111111111')",
  "f(s: S) \x7b const z = 2 - 2; const x = -(7 % z); s.a = 1 \x7d \x7d",
  "interface S extends Account \x7b a: i8 \x7d"]

/-- The first statement binds the difference of two equal numbers, and the second takes a remainder
by it. -/
def dividesByDifference : List Statement → Bool
  | .bind _ z :: .bind _ x :: _ =>
    match z.declared, z.value, x.value with
    | none, .binary _ .sub (.int _ a) (.int _ b),
      .neg _ (.paren _ (.binary _ .rem _ (.var _ y false))) =>
      y == z.name && IntLiteral.value? a == some 2 && IntLiteral.value? b == some 2
    | _, _, _ => false
  | _ => false

theorem exists_dividesByZero_of_dividesByDifference {body : List Statement}
    (h : dividesByDifference body = true) :
    ∃ before pos l after, body = before ++ .bind pos l :: after ∧
      l.value.DividesByZero before := by
  unfold dividesByDifference at h
  split at h
  · rename_i pos z pos' x after
    split at h
    · rename_i hDeclared hDifference hRemainder
      simp only [Bool.and_eq_true, beq_iff_eq] at h
      obtain ⟨⟨rfl, ha⟩, hb⟩ := h
      refine ⟨[.bind pos z], pos', x, after, rfl, ?_⟩
      rw [hRemainder]
      have hZero : ConstantInt [] z.value 0 := by
        rw [hDifference]
        exact .binary (.int ha) (.int hb) rfl
      exact ⟨_, _, _, _, .tail _ (.tail _ (.head _)), rfl, .var hDeclared hZero⟩
    · cases h
  · cases h

theorem quotientSource_divides_by_zero : ∃ rp r before pos l after,
    resolveSource {} "p.ts" quotientSource = .ok rp ∧ r ∈ rp.instructions ∧
      r.source.body = before ++ .bind pos l :: after ∧ l.value.DividesByZero before ∧
      l.declared = none ∧ r.IsLiteral l.name := by
  obtain ⟨rp, hrp, hChecked⟩ := exists_ok_of_any (x := resolveSource {} "p.ts" quotientSource)
    (fun rp => rp.instructions.any (dividesByDifference ·.source.body)) (by
      simp (disch := rfl) only [quotientSource, Text.ofString_literal]
      decide +kernel)
  obtain ⟨r, hr, hChecked⟩ := List.any_eq_true.mp hChecked
  obtain ⟨before, pos, l, after, hBody, hZero⟩ :=
    exists_dividesByZero_of_dividesByDifference hChecked
  obtain ⟨_, _, ⟨⟩, _, hDeclared, hLiteral⟩ :=
    divides_by_zero_only_in_literals hrp hr hBody List.mem_cons_self hZero
  exact ⟨rp, r, before, pos, l, after, hrp, hr, hBody, hZero, hDeclared, hLiteral⟩

end AnchorScript
