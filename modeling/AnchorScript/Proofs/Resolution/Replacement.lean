import AnchorScript.Proofs.Resolution.NamedAccounts

/-!
# Another value in an assignment

What resolution looks up in the body around a statement is the derivations. An assignment can
therefore be given another value without any effect on the rest of its program: the program is
accepted as before, exactly if the new value is accepted in the place of the old one.
-/

namespace AnchorScript

open Outcome

namespace Surroundings

/-- The surroundings differ at most in instructions and statements that nothing is looked up in. -/
structure Alike (env env' : Surroundings) : Prop where
  file : env.program.file = env'.program.file
  states : env.program.states = env'.program.states
  name : env.instruction.name = env'.instruction.name
  params : env.instruction.params = env'.instruction.params
  derivations : env.derivation? = env'.derivation?

namespace Alike

variable {env env' : Surroundings} (h : env.Alike env') (sc : Scope)
include h

theorem refuse : env.refuse = env'.refuse := by
  funext kind pos account message
  simp only [Surroundings.refuse, h.file, h.name]

theorem initializes : env.initializes = env'.initializes := by
  funext account
  simp only [Surroundings.initializes, h.derivations]

theorem stateOf? : env.stateOf? = env'.stateOf? := by
  funext a
  simp only [Surroundings.stateOf?, Program.state?, h.states]

theorem param? : env.instruction.param? = env'.instruction.param? := by
  funext name
  simp only [Instruction.param?, h.params]

theorem stateField : sc.stateField env = sc.stateField env' := by
  funext account field pos
  simp only [Scope.stateField, h.refuse, h.stateOf?, h.name]

theorem fieldType : sc.fieldType env = sc.fieldType env' := by
  funext pos account field
  simp only [Scope.fieldType, h.stateField, h.initializes, h.refuse]

theorem checkBump : sc.checkBump env = sc.checkBump env' := by
  funext pos account
  simp only [Scope.checkBump, h.refuse]

theorem typeOf : sc.typeOf env = sc.typeOf env' := by
  funext about v
  induction v with
  | paren pos v ih => exact ih
  | neg pos v ih => simp only [Scope.typeOf, ih, h.refuse]
  | binary pos op l r ihLeft ihRight =>
    simp only [Scope.typeOf, ihLeft, ihRight, Scope.operandType, h.refuse]
  | _ =>
    simp only [Scope.typeOf, Scope.bytesMisplaced, h.param?, h.refuse, h.fieldType, h.checkBump]

theorem checkRange : sc.checkRange env = sc.checkRange env' := by
  funext t about v
  simp only [Scope.checkRange, h.refuse]

theorem checkInt : sc.checkInt env = sc.checkInt env' := by
  have hExpr : sc.checkIntExpr env = sc.checkIntExpr env' := by
    funext t about v
    induction v with
    | paren pos v ih => exact ih
    | neg pos v ih => simp only [Scope.checkIntExpr, ih, h.refuse, h.checkRange]
    | binary pos op l r ihLeft ihRight =>
      simp only [Scope.checkIntExpr, ihLeft, ihRight, h.refuse, h.checkRange]
    | _ => simp only [Scope.checkIntExpr, h.checkRange]
  funext t about v
  rw [Scope.checkInt, Scope.checkInt, hExpr]

theorem seeds : sc.seeds env = sc.seeds env' := by
  have hList : sc.seedList env = sc.seedList env' := by
    funext about use vs
    induction vs with
    | nil => rfl
    | cons v vs ih =>
      simp only [Scope.seedList, Scope.seedSource, Scope.fieldSeed, Scope.bumpSeed,
        Scope.checkByteForm, ih, h.refuse, h.name, h.param?, h.stateField, h.fieldType,
        h.initializes, h.checkBump]
  funext about use vs
  simp only [Scope.seeds, hList, h.refuse]

theorem resolveAssign : sc.resolveAssign env = sc.resolveAssign env' := by
  funext pos a
  simp only [Scope.resolveAssign, Scope.resolveAssign.checkLength, h.refuse, h.stateField, h.typeOf,
    h.checkInt]

theorem resolveCall : sc.resolveCall env = sc.resolveCall env' := by
  funext index pos c
  simp only [Scope.resolveCall, Scope.checkParticipants, Scope.checkRoles, Scope.checkAmount,
    Scope.callSeeds, h.refuse, h.typeOf, h.checkInt, h.derivations, h.seeds]

theorem resolveDerive : sc.resolveDerive env = sc.resolveDerive env' := by
  funext pos d
  simp only [Scope.resolveDerive, Scope.checkForm, Scope.addressSeeds, Scope.tokenParties,
    Scope.addressSource, Scope.bumpField, Scope.initialization, Scope.allocation, Scope.payer,
    h.refuse, h.name, h.seeds, h.stateOf?, h.initializes]

theorem resolveStatement : sc.resolveStatement env = sc.resolveStatement env' := by
  funext index s
  cases s with
  | derive pos d => simp only [Scope.resolveStatement, h.resolveDerive]
  | assign pos a => simp only [Scope.resolveStatement, h.resolveAssign]
  | call pos c => simp only [Scope.resolveStatement, h.resolveCall]
  | bind pos l =>
    simp only [Scope.resolveStatement, Scope.resolveBind, h.refuse, h.typeOf, h.checkInt]
  | close pos c => simp only [Scope.resolveStatement, Scope.resolveClose, h.refuse]

theorem resolveBody : sc.resolveBody env = sc.resolveBody env' := by
  funext index body
  induction body generalizing sc index with
  | nil => rfl
  | cons s rest ih => simp only [Scope.resolveBody, h.resolveStatement, ih]

theorem checkDerivations :
    Resolution.checkDerivations env sc = Resolution.checkDerivations env' sc := by
  funext earlier body
  induction body generalizing earlier with
  | nil => rfl
  | cons s rest ih =>
    cases s <;> simp only [Resolution.checkDerivations, ih, h.refuse, h.name]

end Alike

end Surroundings

namespace Scope

/-- The scope after an assignment to a field. -/
def assigned (sc : Scope) (account field : Text) : Scope :=
  { sc.markMutable account with written := ⟨account, field⟩ :: sc.written }

/-- The scope after an accepted assignment does not depend on the value. -/
theorem resolveAssign_eq_ok_iff {sc sc' : Scope} {env : Surroundings} {pos : SourcePos}
    {a : Assign} :
    sc.resolveAssign env pos a = .ok sc' ↔
      (∃ target source, sc.stateField env a.account a.field pos = .ok target ∧
        sc.typeOf env a.account a.value = .ok source ∧ target.type.accepts source = true ∧
        sc.checkInt env target.type a.account a.value = .ok () ∧
        resolveAssign.checkLength env a target.type = .ok ()) ∧
      sc.assigned a.account a.field = sc' := by
  simp only [resolveAssign, bind_eq_ok_iff, pure_eq_ok_iff, refused_or_eq_ok_iff,
    mapError_eq_ok_iff, Bool.not_eq_true', Bool.not_eq_false]
  constructor
  · rintro ⟨target, hTarget, source, hType, hAccepts, _, hInt, _, hLength, rfl⟩
    exact ⟨⟨target, source, hTarget, hType, hAccepts, hInt, hLength⟩, rfl⟩
  · rintro ⟨⟨target, source, hTarget, hType, hAccepts, hInt, hLength⟩, rfl⟩
    exact ⟨target, hTarget, source, hType, hAccepts, (), hInt, (), hLength, rfl⟩

end Scope

namespace Program

/-- The program is accepted. -/
def Resolves (p : Program) : Prop := ∃ r, p.resolve = .ok r

theorem resolves_of_isSome {p : Program} (h : p.resolve.toOption.isSome = true) : p.Resolves := by
  cases hOutcome : p.resolve with
  | ok r => exact ⟨r, hOutcome⟩
  | error e => simp [hOutcome, Except.toOption] at h

theorem resolves_iff {p : Program} :
    p.Resolves ↔ ∀ i ∈ p.instructions, ∃ r, Resolution.resolveInstruction p i = .ok r := by
  constructor
  · rintro ⟨r, hr⟩ i hi
    obtain ⟨ri, _, hResolved⟩ := exists_of_mem_left (Program.resolve_eq_ok_iff.mp hr).2 hi
    exact ⟨ri, hResolved⟩
  · intro h
    cases hResolve : p.resolve with
    | ok r => exact ⟨r, hResolve⟩
    | error e =>
      rw [resolve, bind_eq_error_iff] at hResolve
      rcases hResolve with hFails | ⟨_, _, hPure⟩
      · obtain ⟨i, hi, hError⟩ := exists_of_mapM_eq_error hFails
        obtain ⟨r, hr⟩ := h i hi
        cases hError.symm.trans hr
      · cases hPure

/-- An assignment of a program: the instructions around its own, and the statements around it. -/
structure Assignment (p : Program) where
  front : List Instruction
  instruction : Instruction
  back : List Instruction
  before : List Statement
  pos : SourcePos
  account : Text
  field : Text
  value : Value
  after : List Statement
  instructions_eq : p.instructions = front ++ instruction :: back
  body_eq : instruction.body = before ++ .assign pos ⟨account, field, value⟩ :: after

namespace Assignment

variable {p : Program} (a : p.Assignment)

/-- The instruction with another value assigned. -/
def rewritten (v : Value) : Instruction :=
  { a.instruction with body := a.before ++ .assign a.pos ⟨a.account, a.field, v⟩ :: a.after }

/-- The program with another value assigned. -/
def put (v : Value) : Program :=
  { p with instructions := a.front ++ a.rewritten v :: a.back }

theorem rewritten_value : a.rewritten a.value = a.instruction := by
  rw [rewritten, ← a.body_eq]

theorem put_value : a.put a.value = p := by
  rw [put, a.rewritten_value, ← a.instructions_eq]

theorem mem_instructions : a.instruction ∈ p.instructions := by
  rw [a.instructions_eq]
  exact List.mem_append_right _ List.mem_cons_self

theorem alike_of_put (v : Value) (i : Instruction) :
    Surroundings.Alike ⟨a.put v, i⟩ ⟨p, i⟩ :=
  ⟨rfl, rfl, rfl, rfl, rfl⟩

theorem alike_rewritten (v : Value) :
    Surroundings.Alike ⟨a.put v, a.rewritten v⟩ ⟨p, a.instruction⟩ := by
  refine ⟨rfl, rfl, rfl, rfl, ?_⟩
  funext account
  simp only [Surroundings.derivation?, rewritten, a.body_eq, List.findSome?_append,
    List.findSome?_cons]

/-- Resolving an instruction does not look at the others. -/
theorem resolveInstruction_put (v : Value) (i : Instruction) :
    Resolution.resolveInstruction (a.put v) i = Resolution.resolveInstruction p i := by
  simp only [Resolution.resolveInstruction, (a.alike_of_put v i).checkDerivations,
    (a.alike_of_put v i).resolveBody]

theorem checkDerivations_rewritten (env : Surroundings) (sc : Scope)
    (earlier : List (Text × SourcePos)) (v : Value) :
    Resolution.checkDerivations env sc earlier (a.rewritten v).body =
      Resolution.checkDerivations env sc earlier a.instruction.body := by
  rw [rewritten, a.body_eq]
  generalize a.before = before
  induction before generalizing earlier with
  | nil => rfl
  | cons s before ih =>
    cases s <;> simp only [List.cons_append, Resolution.checkDerivations, ih]

theorem resolveInstruction_rewritten_iff (v : Value) :
    (∃ r, Resolution.resolveInstruction (a.put v) (a.rewritten v) = .ok r) ↔
      Resolution.checkDerivations ⟨p, a.instruction⟩ (.initial a.instruction) []
        a.instruction.body = .ok () ∧
      ∃ sc, (Scope.initial a.instruction).resolveBody ⟨p, a.instruction⟩ 0 a.before = .ok sc ∧
        (∃ sc', sc.resolveAssign ⟨p, a.instruction⟩ a.pos ⟨a.account, a.field, v⟩ = .ok sc') ∧
        ∃ last, (sc.assigned a.account a.field).resolveBody ⟨p, a.instruction⟩
          (a.before.length + 1) a.after = .ok last := by
  have hInitial : Scope.initial (a.rewritten v) = Scope.initial a.instruction := rfl
  have hBody : (a.rewritten v).body =
      a.before ++ .assign a.pos ⟨a.account, a.field, v⟩ :: a.after := rfl
  simp only [Resolution.resolveInstruction_eq_ok_iff, (a.alike_rewritten v).checkDerivations,
    (a.alike_rewritten v).resolveBody, a.checkDerivations_rewritten, hInitial]
  rw [hBody, Scope.resolveBody_append]
  simp only [bind_eq_ok_iff, Scope.resolveBody, Scope.resolveStatement, Nat.zero_add]
  constructor
  · rintro ⟨r, hOnce, last, ⟨sc, hBefore, sc', hAssign, hAfter⟩, _⟩
    obtain ⟨_, rfl⟩ := Scope.resolveAssign_eq_ok_iff.mp hAssign
    exact ⟨hOnce, sc, hBefore, ⟨_, hAssign⟩, last, hAfter⟩
  · rintro ⟨hOnce, sc, hBefore, ⟨sc', hAssign⟩, last, hAfter⟩
    obtain ⟨_, rfl⟩ := Scope.resolveAssign_eq_ok_iff.mp hAssign
    exact ⟨_, hOnce, last, ⟨sc, hBefore, _, hAssign, hAfter⟩, rfl⟩

theorem resolves_put_iff (v : Value) :
    (a.put v).Resolves ↔
      (∀ i ∈ a.front ++ a.back, ∃ r, Resolution.resolveInstruction p i = .ok r) ∧
        ∃ r, Resolution.resolveInstruction (a.put v) (a.rewritten v) = .ok r := by
  have hInstructions : (a.put v).instructions = a.front ++ a.rewritten v :: a.back := rfl
  simp only [resolves_iff, hInstructions, List.forall_mem_append, List.forall_mem_cons,
    a.resolveInstruction_put]
  exact ⟨fun ⟨hFront, hHere, hBack⟩ => ⟨⟨hFront, hBack⟩, hHere⟩,
    fun ⟨⟨hFront, hBack⟩, hHere⟩ => ⟨hFront, hHere, hBack⟩⟩

/-- A program that is accepted with one value is accepted with another exactly if the other value
is accepted after the statements before it. -/
theorem exists_scope (h : p.Resolves) :
    ∃ sc target, (Scope.initial a.instruction).resolveBody ⟨p, a.instruction⟩ 0 a.before = .ok sc ∧
      sc.stateField ⟨p, a.instruction⟩ a.account a.field a.pos = .ok target ∧
      ∀ v, (a.put v).Resolves ↔ ∃ source,
        sc.typeOf ⟨p, a.instruction⟩ a.account v = .ok source ∧
        target.type.accepts source = true ∧
        sc.checkInt ⟨p, a.instruction⟩ target.type a.account v = .ok () ∧
        Scope.resolveAssign.checkLength ⟨p, a.instruction⟩ ⟨a.account, a.field, v⟩ target.type =
          .ok () := by
  rw [← a.put_value, a.resolves_put_iff, a.resolveInstruction_rewritten_iff] at h
  obtain ⟨hOthers, hOnce, sc, hBefore, ⟨sc', hAssign⟩, hAfter⟩ := h
  obtain ⟨⟨target, _, hTarget, _⟩, _⟩ := Scope.resolveAssign_eq_ok_iff.mp hAssign
  refine ⟨sc, target, hBefore, hTarget, fun v => ?_⟩
  rw [a.resolves_put_iff, a.resolveInstruction_rewritten_iff]
  constructor
  · rintro ⟨_, _, sc₁, hBefore₁, ⟨_, hNew⟩, _⟩
    obtain rfl : sc₁ = sc := Except.ok.inj (hBefore₁.symm.trans hBefore)
    obtain ⟨⟨target₁, source, hTarget₁, hRest⟩, _⟩ := Scope.resolveAssign_eq_ok_iff.mp hNew
    obtain rfl : target₁ = target := Except.ok.inj (hTarget₁.symm.trans hTarget)
    exact ⟨source, hRest⟩
  · rintro ⟨source, hRest⟩
    refine ⟨hOthers, hOnce, sc, hBefore, ⟨sc.assigned a.account a.field, ?_⟩, hAfter⟩
    exact Scope.resolveAssign_eq_ok_iff.mpr ⟨⟨target, source, hTarget, hRest⟩, rfl⟩

end Assignment

end Program

end AnchorScript
