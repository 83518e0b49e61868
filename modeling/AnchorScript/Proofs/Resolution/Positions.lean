import AnchorScript.Proofs.Program.Positions
import AnchorScript.Proofs.Resolution.Placement

/-!
# Where resolution fails

An instruction that cannot be resolved is refused at a place of its own: of a statement, a value, a
payer or an account parameter. The diagnostic names the instruction, and whether there is one does
not depend on the other instructions of the program.
-/

namespace AnchorScript

open Outcome

/-- The diagnostics an instruction may be refused with. -/
def Surroundings.Refusal (env : Surroundings) (P : SourcePos → Prop) : Diagnostic → Prop :=
  Diagnostic.PlacedIn env.program.file env.instruction.name P

/-- The instruction among other instructions of the program. -/
def Surroundings.among (env : Surroundings) (is : List Instruction) : Surroundings :=
  ⟨{ env.program with instructions := is }, env.instruction⟩

/-- The accounts of the scope stand where their parameters do. -/
def Scope.At (P : SourcePos → Prop) (sc : Scope) : Prop := ∀ a ∈ sc.accounts, P a.pos

namespace Scope

variable {P : SourcePos → Prop} {sc : Scope} {env : Surroundings} {pos : SourcePos}
  {about account field : Text} {v : Value}

section Refusals

variable {α : Type} {A : α → Prop} {kind : Diagnostic.Kind} {message : Text}

theorem ends_refuse (hPos : P pos) (hKind : kind ∈ Diagnostic.Kind.known) :
    Ends (env.Refusal P) A (.error (env.refuse kind pos about message)) :=
  .error ⟨⟨hKind, rfl, .inl hPos⟩, rfl⟩

theorem ends_refuse_field (hPos : P pos) (hKind : kind ∈ Diagnostic.Kind.known) :
    Ends (env.Refusal P) A (.error ((env.refuse kind pos about message).withField field)) :=
  .error ⟨⟨hKind, rfl, .inl hPos⟩, rfl⟩

end Refusals

theorem stateField_ends (hPos : P pos) :
    Ends (env.Refusal P) (fun _ => True) (sc.stateField env account field pos) := by
  unfold stateField
  split
  · exact ends_refuse_field hPos (by decide)
  · split
    · exact ends_refuse_field hPos (by decide)
    · split
      · exact ends_refuse_field hPos (by decide)
      · exact .ok trivial

theorem checkBump_ends (hPos : P pos) :
    Ends (env.Refusal P) (fun _ => True) (sc.checkBump env pos account) := by
  unfold checkBump
  split
  · exact ends_refuse hPos (by decide)
  · exact .ite (.ok trivial) (ends_refuse hPos (by decide))

theorem fieldType_ends (hPos : P pos) :
    Ends (env.Refusal P) (fun _ => True) (sc.fieldType env pos account field) := by
  refine .bind (stateField_ends hPos) fun _ _ => ?_
  exact .ite (ends_refuse_field hPos (by decide)) (.ok trivial)

theorem operandType_ends {op : ArithOp} {l r : ValueType} (hPos : P pos) :
    Ends (env.Refusal P) (fun _ => True) (operandType env pos about op l r) := by
  refine .ite (ends_refuse hPos (by decide)) (.ite (.ok trivial) ?_)
  exact .ite (.ok trivial) (ends_refuse hPos (by decide))

theorem typeOf_ends (hv : v.At P) :
    Ends (env.Refusal P) (fun _ => True) (sc.typeOf env about v) := by
  induction v with
  | int | bool | string => exact .ok trivial
  | account => exact ends_refuse hv (by decide)
  | arg =>
    refine .ite (ends_refuse hv (by decide)) ?_
    split
    · exact .ok trivial
    · exact ends_refuse hv (by decide)
  | var =>
    refine .ite (ends_refuse hv (by decide)) ?_
    split
    · exact .ok trivial
    · exact ends_refuse hv (by decide)
  | key =>
    refine .ite (ends_refuse hv (by decide)) ?_
    split
    · exact .ok trivial
    · exact ends_refuse hv (by decide)
  | field => exact .ite (ends_refuse hv (by decide)) (fieldType_ends hv)
  | bump => exact .bind (checkBump_ends hv) fun _ _ => .ok trivial
  | paren pos v ih => exact ih hv.2
  | neg pos v ih =>
    refine .bind (ih hv.2) fun t _ => ?_
    exact .ite (.ok trivial) (ends_refuse hv.1 (by decide))
  | binary pos op l r ihLeft ihRight =>
    refine .bind (ihLeft hv.2.1) fun lt _ => .bind (ihRight hv.2.2) fun rt _ => ?_
    exact operandType_ends hv.1

theorem checkRange_ends {t : IntType} (hv : v.At P) :
    Ends (env.Refusal P) (fun _ => True) (sc.checkRange env t about v) := by
  unfold checkRange
  split
  · exact .ite (.ok trivial) (ends_refuse hv.pos (by decide))
  · exact .ok trivial

theorem checkIntExpr_ends {t : IntType} (hv : v.At P) :
    Ends (env.Refusal P) (fun _ => True) (sc.checkIntExpr env t about v) := by
  induction v with
  | paren pos v ih => exact ih hv.2
  | neg pos v ih =>
    refine .ite ?_ (ends_refuse hv.1 (by decide))
    exact .bind (ih hv.2) fun _ _ => checkRange_ends hv
  | binary pos op l r ihLeft ihRight =>
    refine .bind (ihLeft hv.2.1) fun _ _ => .bind (ihRight hv.2.2) fun _ _ => ?_
    exact .ite (ends_refuse hv.1 (by decide)) (checkRange_ends hv)
  | _ => exact checkRange_ends hv

theorem checkInt_ends {t : ValueType} (hv : v.At P) :
    Ends (env.Refusal P) (fun _ => True) (sc.checkInt env t about v) := by
  unfold checkInt
  split
  · exact .ite (.ok trivial) (checkIntExpr_ends hv)
  · exact .ok trivial

section Seeds

variable {use : SeedUse} {isLast : Bool}

theorem checkByteForm_ends {t : ValueType} (hv : v.At P) :
    Ends (env.Refusal P) (fun _ => True) (checkByteForm env about v t) :=
  .ite (.ok trivial) (ends_refuse hv.pos (by decide))

theorem fieldSeed_ends (hv : v.At P) :
    Ends (env.Refusal P) (fun _ => True) (sc.fieldSeed env about use isLast v account field) := by
  refine .bind (stateField_ends hv.pos) fun f _ => ?_
  cases use with
  | address =>
    refine .ite (ends_refuse_field hv.pos (by decide)) ?_
    exact .bind (checkByteForm_ends hv) fun _ _ => .ok trivial
  | signer =>
    refine .bind (fieldType_ends hv.pos) fun _ _ => .ite (.ok trivial) ?_
    exact .bind (checkByteForm_ends hv) fun _ _ => .ok trivial

theorem bumpSeed_ends (hv : v.At P) :
    Ends (env.Refusal P) (fun _ => True) (sc.bumpSeed env about use isLast v account) := by
  refine .ite (ends_refuse hv.pos (by decide)) (.ite (ends_refuse hv.pos (by decide)) ?_)
  exact .bind (checkBump_ends hv.pos) fun _ _ => .ok trivial

theorem seedSource_ends (hv : v.At P) :
    Ends (env.Refusal P) (fun _ => True) (sc.seedSource env about use isLast v) := by
  cases v with
  | string => exact .ite (ends_refuse hv (by decide)) (.ok trivial)
  | key =>
    simp only [seedSource]
    split
    · exact .ok trivial
    · exact ends_refuse hv (by decide)
  | arg =>
    simp only [seedSource]
    split
    · exact .bind (checkByteForm_ends hv) fun _ _ => .ok trivial
    · exact ends_refuse hv (by decide)
  | field => exact fieldSeed_ends hv
  | bump => exact bumpSeed_ends hv
  | var =>
    simp only [seedSource]
    split
    · exact ends_refuse hv (by decide)
    · exact .ite (.ok trivial) (ends_refuse hv (by decide))
  | _ => exact ends_refuse hv.pos (by decide)

theorem seedList_ends {vs : List Value} (hvs : ∀ v ∈ vs, v.At P) :
    Ends (env.Refusal P) (fun _ => True) (sc.seedList env about use vs) := by
  induction vs with
  | nil => exact .ok trivial
  | cons v vs ih =>
    obtain ⟨hHead, hTail⟩ := List.forall_mem_cons.mp hvs
    exact .bind (seedSource_ends hHead) fun _ _ => .bind (ih hTail) fun _ _ => .ok trivial

theorem seeds_ends {vs : List Value} (hvs : ∀ v ∈ vs, v.At P) :
    Ends (env.Refusal P) (fun _ => True) (sc.seeds env about use vs) := by
  unfold seeds
  split
  · rename_i v rest hDrop
    have hv : v ∈ vs := List.mem_of_mem_drop (hDrop ▸ List.mem_cons_self)
    exact ends_refuse (hvs v hv).pos (by decide)
  · exact seedList_ends hvs

end Seeds

section Derivations

variable {ref : AccountRef} {d : Derive}

theorem tokenParties_ends {form : DeriveForm} (hPos : P pos) :
    Ends (env.Refusal P) (fun _ => True) (sc.tokenParties env pos about form) := by
  unfold tokenParties
  split
  · exact .ok trivial
  · refine .ite (ends_refuse hPos (by decide)) ?_
    exact .ite (ends_refuse hPos (by decide)) (.ok trivial)

theorem bumpField_ends (hv : v.At P) :
    Ends (env.Refusal P) (fun _ => True) (sc.bumpField env about v) := by
  unfold bumpField
  split
  · have hPos := hv.pos
    split
    · exact ends_refuse hPos (by decide)
    · split
      · exact ends_refuse_field hPos (by decide)
      · refine .ite (ends_refuse_field hPos (by decide)) ?_
        exact .ite (ends_refuse_field hPos (by decide)) (.ok trivial)
  · exact ends_refuse hv.pos (by decide)

theorem payer_ends {request : InitRequest} (hRef : P ref.pos)
    (hPayer : ∀ payer ∈ request.payer, P payer.2) :
    Ends (env.Refusal P) (fun _ => True) (sc.payer env ref request) := by
  unfold payer
  split
  · rename_i name pos hNamed
    have hPos : P pos := hPayer (name, pos) hNamed
    split
    · exact ends_refuse hPos (by decide)
    · exact .ite (.ok trivial) (ends_refuse hPos (by decide))
  · split
    · exact .ok trivial
    · exact ends_refuse hRef (by decide)
    · exact ends_refuse hRef (by decide)

theorem allocation_ends {form : DeriveForm} (hPos : P pos) :
    Ends (env.Refusal P) (fun _ => True) (allocation env pos ref form) := by
  unfold allocation
  split
  · split
    · exact .ok trivial
    · exact ends_refuse hPos (by decide)
  · exact .ite (ends_refuse hPos (by decide)) (.ok trivial)
  · exact .ok trivial
  · exact ends_refuse hPos (by decide)

theorem checkForm_ends (hPos : P pos) :
    Ends (env.Refusal P) (fun _ => True) (checkForm env pos ref d) := by
  have hRefused {message : Text} : Ends (env.Refusal P) (fun _ : PUnit => True)
      (.error (env.refuse .invalidDerivation pos d.account message)) :=
    ends_refuse hPos (by decide)
  refine .ite hRefused (.ite hRefused (.ite hRefused ?_))
  split
  · exact .ite hRefused (.ok trivial)
  · exact .ite hRefused (.ok trivial)
  · exact .ok trivial

theorem mem_values_of_seedValues {form : DeriveForm} (hv : v ∈ form.seedValues) :
    v ∈ form.values := by
  cases form with
  | withBump => exact List.mem_append_left _ hv
  | _ => exact hv

theorem addressSource_ends {seeds : List Seed} (hd : d.At P) :
    Ends (env.Refusal P) (fun _ => True) (sc.addressSource env d seeds) := by
  unfold addressSource
  split
  · exact .ok trivial
  · rename_i values bump hForm
    have hBump : bump ∈ d.form.values := by simp [hForm, DeriveForm.values]
    exact .bind (bumpField_ends (hd.values bump hBump)) fun _ _ => .ok trivial
  · exact .ok trivial
  · exact .ok trivial

theorem initialization_ends (hPos : P pos) (hRef : P ref.pos) (hd : d.At P) :
    Ends (env.Refusal P) (fun _ => True) (sc.initialization env pos ref d) := by
  unfold initialization
  split
  · exact .ok trivial
  · rename_i request hInit
    refine .bind (allocation_ends hPos) fun _ _ => ?_
    exact .bind (payer_ends hRef (hd.payer request hInit)) fun _ _ => .ok trivial

end Derivations

theorem At.update (h : sc.At P) (name : Text) {f : AccountRef → AccountRef}
    (hf : ∀ a, (f a).pos = a.pos) : (sc.update name f).At P := by
  refine List.forall_mem_map.mpr fun a ha => ?_
  split
  · exact (hf a).symm ▸ h a ha
  · exact h a ha

theorem At.markMutable (h : sc.At P) (name : Text) : (sc.markMutable name).At P := by
  refine h.update name ?_
  exact fun _ => rfl

theorem At.markChanged (h : sc.At P) (changed : List (Text × (Role → Bool))) :
    (changed.foldl (fun sc (name, _) => sc.markMutable name) sc).At P := by
  induction changed generalizing sc with
  | nil => exact h
  | cons entry rest ih => exact ih (h.markMutable entry.1)

theorem At.initial {i : Instruction} (hi : i.At P) : (Scope.initial i).At P := by
  intro a ha
  obtain ⟨q, hq, hAccount⟩ := List.mem_filterMap.mp ha
  have hPos := hi.params q hq
  split at hAccount
  · cases hAccount
    exact hPos
  · cases hAccount

theorem resolveDerive_ends {d : Derive} (hsc : sc.At P) (hPos : P pos) (hd : d.At P) :
    Ends (env.Refusal P) (Scope.At P) (sc.resolveDerive env pos d) := by
  unfold resolveDerive
  split
  · exact ends_refuse hPos (by decide)
  · rename_i ref hRef
    have hRefPos : P ref.pos := hsc ref (List.mem_of_find?_eq_some hRef)
    refine .bind (checkForm_ends hPos) fun _ _ => ?_
    refine .bind (seeds_ends fun v hv => hd.values v (mem_values_of_seedValues hv)) fun seeds _ => ?_
    refine .bind (tokenParties_ends hPos) fun token _ => ?_
    refine .bind (addressSource_ends hd) fun address _ => ?_
    refine .bind (initialization_ends hPos hRefPos hd) fun init _ => .ok ?_
    have hUpdated : (sc.update ref.name fun a =>
        { a with address, token, init, isMutable := a.isMutable || init.isSome }).At P := by
      refine hsc.update ref.name ?_
      exact fun _ => rfl
    cases init with
    | none => exact hUpdated
    | some i => exact hUpdated.markMutable i.payer

theorem resolveAssign_ends {a : Assign} (hsc : sc.At P) (hPos : P pos) (hValue : a.value.At P) :
    Ends (env.Refusal P) (Scope.At P) (sc.resolveAssign env pos a) := by
  refine .bind (stateField_ends hPos) fun target _ => ?_
  refine .bind (typeOf_ends hValue) fun source _ => ?_
  refine .ite (ends_refuse_field hValue.pos (by decide)) ?_
  refine .bind ((checkInt_ends hValue).mapError (F := env.Refusal P) ?_) fun _ _ => ?_
  · exact fun d hd => ⟨⟨hd.known, hd.file, hd.start⟩, hd.instruction⟩
  refine .bind (A := fun _ => True) ?_ fun _ _ => .ok (hsc.markMutable a.account)
  unfold resolveAssign.checkLength
  split
  · rename_i hString _
    rw [hString] at hValue
    exact .ite (ends_refuse_field hValue (by decide)) (.ok trivial)
  · exact .ok trivial

theorem checkParticipants_ends {action : CallAction} (hPos : P pos) :
    Ends (env.Refusal P) (fun _ => True) (sc.checkParticipants env pos action) :=
  .forM fun _ _ => .ite (.ok trivial) (ends_refuse hPos (by decide))

theorem checkRoles_ends {action : CallAction} (hPos : P pos) :
    Ends (env.Refusal P) (fun _ => True) (sc.checkRoles env pos action) := by
  refine .forM fun entry _ => ?_
  dsimp only
  split
  · exact .ok trivial
  · exact .ite (.ok trivial) (ends_refuse hPos (by decide))

section Calls

variable {c : CrossProgramCall}

theorem checkAmount_ends (hAmount : c.amount.At P) :
    Ends (env.Refusal P) (fun _ => True) (sc.checkAmount env c) := by
  refine .bind (typeOf_ends hAmount) fun t _ => ?_
  refine .ite (ends_refuse hAmount.pos (by decide)) ?_
  exact .ite (ends_refuse hAmount.pos (by decide)) (checkInt_ends hAmount)

theorem callSeeds_ends (hPos : P pos) (hSeeds : ∀ vs ∈ c.signerSeeds, ∀ v ∈ vs, v.At P) :
    Ends (env.Refusal P) (fun _ => True) (sc.callSeeds env pos c) := by
  unfold callSeeds
  dsimp only
  split
  · exact .ite (ends_refuse hPos (by decide)) (.ok trivial)
  · rename_i values hValues
    refine .ite (ends_refuse hPos (by decide)) ?_
    refine .bind (seeds_ends (hSeeds values hValues)) fun seeds _ => ?_
    exact .ite (.ok trivial) (ends_refuse hPos (by decide))

theorem resolveCall_ends {index : Nat} (hsc : sc.At P) (hPos : P pos) (hAmount : c.amount.At P)
    (hSeeds : ∀ vs ∈ c.signerSeeds, ∀ v ∈ vs, v.At P) :
    Ends (env.Refusal P) (Scope.At P) (sc.resolveCall env index pos c) := by
  refine .bind (checkParticipants_ends hPos) fun _ _ => ?_
  refine .bind (checkRoles_ends hPos) fun _ _ => ?_
  refine .bind (checkAmount_ends hAmount) fun _ _ => ?_
  refine .bind (callSeeds_ends hPos hSeeds) fun seeds _ => .ok ?_
  cases seeds <;> exact hsc.markChanged c.action.changed

end Calls

theorem resolveBind_ends {l : LocalBinding} (hsc : sc.At P) (hValue : l.value.At P) :
    Ends (env.Refusal P) (Scope.At P) (sc.resolveBind env l) := by
  refine .bind (typeOf_ends hValue) fun found _ => ?_
  have hTyped (t : ValueType) : Ends (env.Refusal P) (Scope.At P)
      (sc.checkInt env t [] l.value >>= fun _ => .ok (sc.known l.name t l.value)) := by
    refine .bind (checkInt_ends hValue) fun _ _ => .ok ?_
    unfold known
    split <;> exact hsc
  obtain ⟨name, isMutable, declared, value⟩ := l
  cases declared with
  | none => exact hTyped found
  | some type =>
    cases type with
    | value d => exact .ite (hTyped d) (ends_refuse hValue.pos (by decide))
    | account r => exact ends_refuse hValue.pos (by decide)

theorem resolveClose_ends {c : CloseAccount} (hsc : sc.At P) (hPos : P pos) :
    Ends (env.Refusal P) (Scope.At P) (sc.resolveClose env pos c) := by
  unfold resolveClose
  split
  · exact ends_refuse hPos (by decide)
  · refine .ite (ends_refuse hPos (by decide)) (.ite (ends_refuse hPos (by decide)) ?_)
    refine .ite (ends_refuse hPos (by decide)) (.ite (ends_refuse hPos (by decide)) (.ok ?_))
    refine At.markMutable (hsc.update c.account ?_) c.destination
    exact fun _ => rfl

theorem resolveStatement_ends {index : Nat} {s : Statement} (hsc : sc.At P) (hs : s.At P) :
    Ends (env.Refusal P) (Scope.At P) (sc.resolveStatement env index s) := by
  cases hs with
  | derive hPos hDerive => exact resolveDerive_ends hsc hPos hDerive
  | assign hPos hValue => exact resolveAssign_ends hsc hPos hValue
  | call hPos hAmount hSeeds => exact resolveCall_ends hsc hPos hAmount hSeeds
  | bind _ hValue => exact resolveBind_ends hsc hValue
  | close hPos => exact resolveClose_ends hsc hPos

theorem resolveBody_ends {index : Nat} {body : List Statement} (hsc : sc.At P)
    (hBody : ∀ s ∈ body, s.At P) :
    Ends (env.Refusal P) (Scope.At P) (sc.resolveBody env index body) := by
  induction body generalizing sc index with
  | nil => exact .ok hsc
  | cons s rest ih =>
    obtain ⟨hFirst, hRest⟩ := List.forall_mem_cons.mp hBody
    exact .bind (resolveStatement_ends hsc hFirst) fun next hNext => ih hNext hRest

section Among

variable (sc : Scope) (env : Surroundings) (is : List Instruction)

theorem typeOf_among (about : Text) (v : Value) :
    sc.typeOf (env.among is) about v = sc.typeOf env about v := by
  induction v with
  | paren pos v ih => exact ih
  | neg pos v ih =>
    rw [typeOf, typeOf, ih]
    rfl
  | binary pos op l r ihLeft ihRight =>
    rw [typeOf, typeOf, ihLeft, ihRight]
    rfl
  | _ => rfl

theorem checkIntExpr_among (t : IntType) (about : Text) (v : Value) :
    sc.checkIntExpr (env.among is) t about v = sc.checkIntExpr env t about v := by
  induction v with
  | paren pos v ih => exact ih
  | neg pos v ih =>
    rw [checkIntExpr, checkIntExpr, ih]
    rfl
  | binary pos op l r ihLeft ihRight =>
    rw [checkIntExpr, checkIntExpr, ihLeft, ihRight]
    rfl
  | _ => rfl

theorem checkInt_among (t : ValueType) (about : Text) (v : Value) :
    sc.checkInt (env.among is) t about v = sc.checkInt env t about v := by
  simp only [checkInt, checkIntExpr_among]

theorem seeds_among (about : Text) (use : SeedUse) (vs : List Value) :
    sc.seeds (env.among is) about use vs = sc.seeds env about use vs := by
  have hList : sc.seedList (env.among is) about use vs = sc.seedList env about use vs := by
    induction vs with
    | nil => rfl
    | cons v vs ih =>
      rw [seedList, seedList, ih]
      rfl
  rw [seeds, seeds, hList]
  rfl

theorem resolveStatement_among (index : Nat) (s : Statement) :
    sc.resolveStatement (env.among is) index s = sc.resolveStatement env index s := by
  cases s with
  | derive pos d =>
    simp only [resolveStatement, resolveDerive, addressSeeds, seeds_among]
    rfl
  | assign pos a =>
    simp only [resolveStatement, resolveAssign, typeOf_among, checkInt_among]
    rfl
  | call pos c =>
    simp only [resolveStatement, resolveCall, checkAmount, callSeeds, typeOf_among, checkInt_among,
      seeds_among]
    rfl
  | bind pos l =>
    simp only [resolveStatement, resolveBind, typeOf_among, checkInt_among]
    rfl
  | close pos c => rfl

theorem resolveBody_among (index : Nat) (body : List Statement) :
    sc.resolveBody (env.among is) index body = sc.resolveBody env index body := by
  induction body generalizing sc index with
  | nil => rfl
  | cons s rest ih => simp only [resolveBody, resolveStatement_among, ih]

end Among

end Scope

namespace Resolution

variable {P : SourcePos → Prop}

theorem checkDerivations_ends {env : Surroundings} {sc : Scope}
    {earlier : List (Text × SourcePos)} {body : List Statement} (hBody : ∀ s ∈ body, s.At P) :
    Ends (env.Refusal P) (fun _ => True) (checkDerivations env sc earlier body) := by
  induction body generalizing earlier with
  | nil => exact .ok trivial
  | cons s rest ih =>
    obtain ⟨hFirst, hRest⟩ := List.forall_mem_cons.mp hBody
    cases hFirst with
    | derive hPos _ =>
      refine .ite (Scope.ends_refuse hPos (by decide)) ?_
      split
      · exact Scope.ends_refuse hPos (by decide)
      · exact ih hRest
    | _ => exact ih hRest

/-- A failure to resolve an instruction stands in the instruction and names it. -/
theorem placedIn_of_resolveInstruction {p : Program} {i : Instruction} (hi : i.At P)
    {d : Diagnostic} (h : resolveInstruction p i = .error d) : d.PlacedIn p.file i.name P := by
  have hEnds : Ends (Surroundings.Refusal ⟨p, i⟩ P) (fun _ => True) (resolveInstruction p i) := by
    refine .bind (checkDerivations_ends hi.body) fun _ _ => ?_
    exact .bind (Scope.resolveBody_ends (.initial hi) hi.body) fun _ _ => .ok trivial
  exact hEnds.of_error h

theorem checkDerivations_among (env : Surroundings) (is : List Instruction) (sc : Scope)
    (earlier : List (Text × SourcePos)) (body : List Statement) :
    checkDerivations (env.among is) sc earlier body = checkDerivations env sc earlier body := by
  induction body generalizing earlier with
  | nil => rfl
  | cons s rest ih =>
    cases s with
    | derive pos d =>
      simp only [checkDerivations, ih]
      rfl
    | _ => exact ih earlier

/-- An instruction is resolved alike, whatever other instructions the program has. -/
theorem resolveInstruction_among (p : Program) (is : List Instruction) (i : Instruction) :
    resolveInstruction { p with instructions := is } i = resolveInstruction p i := by
  have hDerivations := checkDerivations_among ⟨p, i⟩ is (.initial i) [] i.body
  have hBody := (Scope.initial i).resolveBody_among ⟨p, i⟩ is 0 i.body
  simp only [Surroundings.among] at hDerivations hBody
  rw [resolveInstruction, resolveInstruction, hDerivations, hBody]

end Resolution

namespace Program

/-- The program with no instruction but this one. -/
def alone (p : Program) (i : Instruction) : Program := { p with instructions := [i] }

theorem resolve_alone (p : Program) (i : Instruction) :
    (p.alone i).resolve =
      Resolution.resolveInstruction p i >>= fun r => .ok ⟨p.alone i, [r]⟩ := by
  rw [← Resolution.resolveInstruction_among p [i] i, resolve, alone, List.mapM_cons, List.mapM_nil]
  cases Resolution.resolveInstruction { p with instructions := [i] } i <;> rfl

/-- The instruction is the first of the program that does not resolve on its own, for the reason
that the diagnostic gives. -/
def FirstRefused (p : Program) (i : Instruction) (d : Diagnostic) : Prop :=
  ∃ before after, p.instructions = before ++ i :: after ∧
    (∀ j ∈ before, ∃ q, (p.alone j).resolve = .ok q) ∧ (p.alone i).resolve = .error d

/-- A program is refused for its first instruction that cannot be resolved. -/
theorem exists_firstRefused {P : SourcePos → Prop} {p : Program} (hp : ∀ i ∈ p.instructions, i.At P)
    {d : Diagnostic} (h : p.resolve = .error d) :
    ∃ i ∈ p.instructions, p.FirstRefused i d ∧ d.PlacedIn p.file i.name P := by
  have hMap : p.instructions.mapM (Resolution.resolveInstruction p) = .error d := by
    rcases bind_eq_error_iff.mp h with hMap | ⟨_, _, hPure⟩
    · exact hMap
    · cases hPure
  obtain ⟨before, i, after, hSplit, hBefore, hError⟩ := exists_split_of_mapM_eq_error hMap
  have hi : i ∈ p.instructions := by simp [hSplit]
  refine ⟨i, hi, ⟨before, after, hSplit, ?_, ?_⟩, ?_⟩
  · intro j hj
    obtain ⟨r, hr⟩ := hBefore j hj
    rw [resolve_alone, hr]
    exact ⟨_, rfl⟩
  · rw [resolve_alone, hError]
    rfl
  · exact Resolution.placedIn_of_resolveInstruction (hp i hi) hError

end Program

end AnchorScript
