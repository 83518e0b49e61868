import AnchorScript.Proofs.Program.Placement
import AnchorScript.Resolution.Program

/-!
# Resolution does not look at places

Without their places, the instructions of a program are resolved in the same steps: each statement
takes the scope without its places to the next scope without its places, or is refused on the same
subject.
-/

namespace AnchorScript

def Seed.unplaced (s : Seed) : Seed := { s with pos := nowhere }

def AddressSource.unplaced : AddressSource → AddressSource
  | .given => .given
  | .found ss => .found (ss.map Seed.unplaced)
  | .stored ss bump => .stored (ss.map Seed.unplaced) bump
  | .associated => .associated

def AccountRef.unplaced (a : AccountRef) : AccountRef :=
  { a with pos := nowhere, address := a.address.unplaced }

def unplacedSeeds (signers : List (Nat × List Seed)) : List (Nat × List Seed) :=
  signers.map fun (index, seeds) => (index, seeds.map Seed.unplaced)

def Scope.unplaced (sc : Scope) : Scope :=
  { sc with
    accounts := sc.accounts.map AccountRef.unplaced
    signerSeeds := unplacedSeeds sc.signerSeeds }

def Surroundings.unplaced (env : Surroundings) : Surroundings :=
  ⟨env.program.unplaced, env.instruction.unplaced⟩

def ResolvedInstruction.unplaced (i : ResolvedInstruction) : ResolvedInstruction :=
  { i with
    source := i.source.unplaced
    accounts := i.accounts.map AccountRef.unplaced
    signerSeeds := unplacedSeeds i.signerSeeds }

def ResolvedProgram.unplaced (p : ResolvedProgram) : ResolvedProgram :=
  ⟨p.source.unplaced, p.instructions.map ResolvedInstruction.unplaced⟩

theorem lookup_map_snd {α β γ : Type} [BEq α] (g : β → γ) (a : α) (entries : List (α × β)) :
    (entries.map fun e => (e.1, g e.2)).lookup a = (entries.lookup a).map g := by
  induction entries with
  | nil => rfl
  | cons e rest ih =>
    rw [List.map_cons, List.lookup_cons, List.lookup_cons, ih]
    split <;> rfl

theorem Program.state?_unplaced (p : Program) (name : Text) :
    p.unplaced.state? name = (p.state? name).map StateType.unplaced :=
  find?_unplaced (g := StateType.unplaced) (fun _ => rfl) p.states

theorem StateType.field?_unplaced (s : StateType) (name : Text) :
    s.unplaced.field? name = (s.field? name).map StateField.unplaced :=
  find?_unplaced (g := StateField.unplaced) (fun _ => rfl) s.fields

theorem StateType.space_unplaced (s : StateType) : s.unplaced.space = s.space := by
  rw [space, space, byteSize, byteSize, unplaced, List.foldr_map]
  rfl

theorem Instruction.param?_unplaced (i : Instruction) (name : Text) :
    i.unplaced.param? name = (i.param? name).map Param.unplaced :=
  find?_unplaced (g := Param.unplaced) (fun _ => rfl) i.params

/-- The type of an argument. -/
theorem Instruction.argType_unplaced (i : Instruction) (name : Text) :
    (i.unplaced.param? name).bind (·.type.value?) = (i.param? name).bind (·.type.value?) := by
  rw [param?_unplaced]
  cases i.param? name <;> rfl

@[simp] theorem AddressSource.isProgramDerived_unplaced (a : AddressSource) :
    a.unplaced.isProgramDerived = a.isProgramDerived := by
  cases a <;> rfl

@[simp] theorem AddressSource.isAssociated_unplaced (a : AddressSource) :
    a.unplaced.isAssociated = a.isAssociated := by
  cases a <;> rfl

@[simp] theorem AccountRef.isProgramDerived_unplaced (a : AccountRef) :
    a.unplaced.isProgramDerived = a.isProgramDerived :=
  AddressSource.isProgramDerived_unplaced a.address

namespace Surroundings

variable (env : Surroundings)

theorem derivation?_unplaced (account : Text) :
    env.unplaced.derivation? account = (env.derivation? account).map Derive.unplaced := by
  rw [derivation?, derivation?, unplaced, Instruction.unplaced, List.findSome?_map,
    List.map_findSome?]
  congr 1
  funext s
  cases s with
  | derive pos d =>
    simp only [Function.comp_apply, Statement.unplaced, Derive.unplaced]
    split <;> rfl
  | _ => rfl

theorem initializes_unplaced (account : Text) :
    env.unplaced.initializes account = env.initializes account := by
  rw [initializes, initializes, derivation?_unplaced, Option.any_map]
  congr 1
  funext d
  exact Option.isSome_map

theorem stateOf?_unplaced (a : AccountRef) :
    env.unplaced.stateOf? a.unplaced = (env.stateOf? a).map StateType.unplaced := by
  simp only [stateOf?, AccountRef.unplaced]
  cases a.role with
  | state n => exact Program.state?_unplaced env.program n
  | _ => rfl

end Surroundings

namespace Scope

variable (sc : Scope) (env : Surroundings)

theorem account?_unplaced (name : Text) :
    sc.unplaced.account? name = (sc.account? name).map AccountRef.unplaced :=
  find?_unplaced (g := AccountRef.unplaced) (fun _ => rfl) sc.accounts

theorem varType?_unplaced (name : Text) : sc.unplaced.varType? name = sc.varType? name := rfl

theorem update_unplaced {f g : AccountRef → AccountRef}
    (h : ∀ a, g a.unplaced = (f a).unplaced) (name : Text) :
    sc.unplaced.update name g = (sc.update name f).unplaced := by
  simp only [update, unplaced, List.map_map]
  congr 1
  refine List.map_congr_left fun a _ => ?_
  simp only [Function.comp_apply]
  by_cases hName : a.name = name
  · rw [if_pos hName, if_pos (show a.unplaced.name = name from hName), h]
  · rw [if_neg hName, if_neg (show a.unplaced.name ≠ name from hName)]

theorem markMutable_unplaced (name : Text) :
    sc.unplaced.markMutable name = (sc.markMutable name).unplaced :=
  sc.update_unplaced (f := fun a => { a with isMutable := true }) (fun _ => rfl) name

theorem stateField_steady (account field : Text) (pos pos' : SourcePos) :
    Steady StateField.unplaced (sc.stateField env account field pos)
      (sc.unplaced.stateField env.unplaced account field pos') := by
  rw [stateField, stateField, account?_unplaced]
  cases sc.account? account with
  | none => exact .error rfl
  | some ref =>
    dsimp only [Option.map_some]
    rw [Surroundings.stateOf?_unplaced]
    cases env.stateOf? ref with
    | none => exact .error rfl
    | some st =>
      dsimp only [Option.map_some]
      rw [StateType.field?_unplaced]
      cases st.field? field with
      | none => exact .error rfl
      | some f => exact .ok

theorem constValue_unplaced (v : Value) : sc.unplaced.constValue v.unplaced = sc.constValue v := by
  induction v with
  | binary _ _ l r ihLeft ihRight => simp only [Value.unplaced, constValue, ihLeft, ihRight]
  | neg _ v ih | paren _ v ih => simp only [Value.unplaced, constValue, ih]
  | _ => rfl

theorem checkBump_steady (pos pos' : SourcePos) (account : Text) :
    Steady id (sc.checkBump env pos account)
      (sc.unplaced.checkBump env.unplaced pos' account) := by
  rw [checkBump, checkBump, account?_unplaced]
  cases sc.account? account with
  | none => exact .error rfl
  | some ref => exact .ite (by simp) .ok (.error rfl)

theorem fieldType_steady (pos pos' : SourcePos) (account field : Text) :
    Steady id (sc.fieldType env pos account field)
      (sc.unplaced.fieldType env.unplaced pos' account field) := by
  refine .bind (sc.stateField_steady env account field pos pos') fun f => ?_
  refine .ite ?_ (.error rfl) .ok
  rw [Surroundings.initializes_unplaced]
  rfl

theorem operandType_steady (pos pos' : SourcePos) (about : Text) (op : ArithOp)
    (l r : ValueType) :
    Steady id (operandType env pos about op l r) (operandType env.unplaced pos' about op l r) :=
  .ite .rfl (.error rfl) (.ite .rfl .ok (.ite .rfl .ok (.error rfl)))

theorem typeOf_steady (about : Text) (v : Value) :
    Steady id (sc.typeOf env about v) (sc.unplaced.typeOf env.unplaced about v.unplaced) := by
  induction v with
  | int | bool | string => exact .ok
  | account => exact .error rfl
  | arg pos name asBytes =>
    refine .ite .rfl (.error rfl) ?_
    rw [Surroundings.unplaced, Instruction.argType_unplaced]
    split
    · exact .ok
    · exact .error rfl
  | var pos name asBytes =>
    refine .ite .rfl (.error rfl) ?_
    rw [varType?_unplaced]
    cases sc.varType? name with
    | none => exact .error rfl
    | some t => exact .ok
  | key pos a asBytes =>
    refine .ite .rfl (.error rfl) ?_
    rw [account?_unplaced]
    cases sc.account? a with
    | none => exact .error rfl
    | some ref => exact .ok
  | field pos a f asBytes =>
    exact .ite .rfl (.error rfl) (sc.fieldType_steady env pos nowhere a f)
  | bump pos a => exact .bind (sc.checkBump_steady env pos nowhere a) fun _ => .ok
  | paren pos v ih => exact ih
  | neg pos v ih => exact .bind ih fun t => .ite .rfl .ok (.error rfl)
  | binary pos op l r ihLeft ihRight =>
    refine .bind ihLeft fun lt => .bind ihRight fun rt => ?_
    exact operandType_steady env pos nowhere about op lt rt

theorem checkRange_steady (t : IntType) (about : Text) (v : Value) :
    Steady id (sc.checkRange env t about v)
      (sc.unplaced.checkRange env.unplaced t about v.unplaced) := by
  rw [checkRange, checkRange, constValue_unplaced]
  cases sc.constValue v with
  | none => exact .ok
  | some n => exact .ite .rfl .ok (.error rfl)

theorem checkIntExpr_steady (t : IntType) (about : Text) (v : Value) :
    Steady id (sc.checkIntExpr env t about v)
      (sc.unplaced.checkIntExpr env.unplaced t about v.unplaced) := by
  induction v with
  | paren pos v ih => exact ih
  | neg pos v ih =>
    refine .ite .rfl ?_ (.error rfl)
    exact .bind ih fun _ => sc.checkRange_steady env t about (.neg pos v)
  | binary pos op l r ihLeft ihRight =>
    refine .bind ihLeft fun _ => .bind ihRight fun _ => ?_
    refine .ite ?_ (.error rfl) (sc.checkRange_steady env t about (.binary pos op l r))
    rw [constValue_unplaced]
  | _ => exact sc.checkRange_steady env t about _

theorem checkInt_steady (t : ValueType) (about : Text) (v : Value) :
    Steady id (sc.checkInt env t about v)
      (sc.unplaced.checkInt env.unplaced t about v.unplaced) := by
  rw [checkInt, checkInt]
  split
  · exact .ite .rfl .ok (sc.checkIntExpr_steady env _ about v)
  · exact .ok

theorem checkByteForm_steady (about : Text) (v v' : Value) (t : ValueType) :
    Steady id (checkByteForm env about v t) (checkByteForm env.unplaced about v' t) :=
  .ite .rfl .ok (.error rfl)

theorem fieldSeed_steady (about : Text) (use : SeedUse) (isLast : Bool) (v v' : Value)
    (account field : Text) :
    Steady id (sc.fieldSeed env about use isLast v account field)
      (sc.unplaced.fieldSeed env.unplaced about use isLast v' account field) := by
  refine .bind (sc.stateField_steady env account field v.pos v'.pos) fun f => ?_
  cases use with
  | address =>
    refine .ite (by rw [Surroundings.initializes_unplaced]) (.error rfl) ?_
    exact .bind (checkByteForm_steady env about v v' f.type) fun _ => .ok
  | signer =>
    refine .bind (sc.fieldType_steady env v.pos v'.pos account field) fun _ => ?_
    refine .ite .rfl .ok ?_
    exact .bind (checkByteForm_steady env about v v' f.type) fun _ => .ok

theorem bumpSeed_steady (about : Text) (use : SeedUse) (isLast : Bool) (v v' : Value)
    (account : Text) :
    Steady id (sc.bumpSeed env about use isLast v account)
      (sc.unplaced.bumpSeed env.unplaced about use isLast v' account) := by
  refine .ite .rfl (.error rfl) (.ite .rfl (.error rfl) ?_)
  exact .bind (sc.checkBump_steady env v.pos v'.pos account) fun _ => .ok

theorem seedSource_steady (about : Text) (use : SeedUse) (isLast : Bool) (v : Value) :
    Steady id (sc.seedSource env about use isLast v)
      (sc.unplaced.seedSource env.unplaced about use isLast v.unplaced) := by
  cases v with
  | string pos s => exact .ite .rfl (.error rfl) .ok
  | key pos a asBytes =>
    simp only [Value.unplaced, seedSource, account?_unplaced]
    cases sc.account? a with
    | none => exact .error rfl
    | some ref => exact .ok
  | arg pos name asBytes =>
    simp only [Value.unplaced, seedSource, Surroundings.unplaced, Instruction.argType_unplaced]
    split
    · exact .bind (checkByteForm_steady env about _ _ _) fun _ => .ok
    · exact .error rfl
  | field pos a f asBytes => exact sc.fieldSeed_steady env about use isLast _ _ a f
  | bump pos a => exact sc.bumpSeed_steady env about use isLast _ _ a
  | var pos name asBytes =>
    simp only [Value.unplaced, seedSource, varType?_unplaced]
    cases sc.varType? name with
    | none => exact .error rfl
    | some t => exact .ite .rfl .ok (.error rfl)
  | _ => exact .error rfl

theorem seedList_steady (about : Text) (use : SeedUse) (vs : List Value) :
    Steady (List.map Seed.unplaced) (sc.seedList env about use vs)
      (sc.unplaced.seedList env.unplaced about use (vs.map Value.unplaced)) := by
  induction vs with
  | nil => exact .ok
  | cons v vs ih =>
    rw [List.map_cons, seedList, seedList, List.isEmpty_map, Value.pos_unplaced]
    exact .bind (sc.seedSource_steady env about use _ v) fun source => .bind ih fun seeds => .ok

theorem seeds_steady (about : Text) (use : SeedUse) (vs : List Value) :
    Steady (List.map Seed.unplaced) (sc.seeds env about use vs)
      (sc.unplaced.seeds env.unplaced about use (vs.map Value.unplaced)) := by
  rw [seeds, seeds, ← List.map_drop]
  cases vs.drop use.limit with
  | nil => exact sc.seedList_steady env about use vs
  | cons v rest => exact .error rfl

theorem tokenParties_steady (pos pos' : SourcePos) (about : Text) (form : DeriveForm) :
    Steady id (sc.tokenParties env pos about form)
      (sc.unplaced.tokenParties env.unplaced pos' about form.unplaced) := by
  have hParties : form.unplaced.parties? = form.parties? := by cases form <;> rfl
  rw [tokenParties, tokenParties, hParties]
  split
  · exact .ok
  · simp only [account?_unplaced, Option.all_map, Option.isNone_map]
    exact .ite .rfl (.error rfl) (.ite .rfl (.error rfl) .ok)

theorem bumpField_steady (about : Text) (v : Value) :
    Steady id (sc.bumpField env about v)
      (sc.unplaced.bumpField env.unplaced about v.unplaced) := by
  cases v with
  | field pos account field asBytes =>
    have hHolder : (sc.unplaced.account? account).bind env.unplaced.stateOf? =
        ((sc.account? account).bind env.stateOf?).map StateType.unplaced := by
      rw [account?_unplaced]
      cases sc.account? account with
      | none => rfl
      | some ref => exact env.stateOf?_unplaced ref
    simp only [Value.unplaced, bumpField, hHolder]
    cases (sc.account? account).bind env.stateOf? with
    | none => exact .error rfl
    | some st =>
      simp only [Option.map_some, StateType.field?_unplaced]
      cases st.field? field with
      | none => exact .error rfl
      | some f =>
        refine .ite .rfl (.error rfl) (.ite ?_ (.error rfl) .ok)
        rw [Surroundings.initializes_unplaced]
  | _ => exact .error rfl

theorem payer_steady (ref : AccountRef) (request : InitRequest) :
    Steady id (sc.payer env ref request)
      (sc.unplaced.payer env.unplaced ref.unplaced request.unplaced) := by
  obtain ⟨named⟩ := request
  cases named with
  | some p =>
    simp only [payer, InitRequest.unplaced, Option.map_some, account?_unplaced]
    cases sc.account? p.1 with
    | none => exact .error rfl
    | some payer => exact .ite .rfl .ok (.error rfl)
  | none =>
    have hSigners : (sc.unplaced.accounts.filter (·.role = .signer)).map (·.name) =
        (sc.accounts.filter (·.role = .signer)).map (·.name) := by
      rw [unplaced, List.filter_map, List.map_map]
      rfl
    simp only [payer, InitRequest.unplaced, Option.map_none, hSigners]
    split
    · exact .ok
    · exact .error rfl
    · exact .error rfl

theorem allocation_steady (pos pos' : SourcePos) (ref : AccountRef) (form : DeriveForm) :
    Steady id (allocation env pos ref form)
      (allocation env.unplaced pos' ref.unplaced form.unplaced) := by
  have hParties : form.unplaced.parties? = form.parties? := by cases form <;> rfl
  have hRole : ref.unplaced.role = ref.role := rfl
  simp only [allocation, env.stateOf?_unplaced, hParties, hRole]
  cases ref.role with
  | state n =>
    cases env.stateOf? ref with
    | none => exact .error rfl
    | some st =>
      simp only [Option.map_some, StateType.space_unplaced]
      exact .ok
  | tokenAccount => exact .ite .rfl (.error rfl) .ok
  | associatedToken => exact .ok
  | _ => exact .error rfl

theorem checkForm_steady (pos pos' : SourcePos) (ref : AccountRef) (d : Derive) :
    Steady id (checkForm env pos ref d)
      (checkForm env.unplaced pos' ref.unplaced d.unplaced) := by
  obtain ⟨account, form, init⟩ := d
  have hAssociated : form.unplaced.isAssociated = form.isAssociated := by cases form <;> rfl
  refine .ite .rfl (.error rfl) (.ite ?_ (.error rfl) (.ite ?_ (.error rfl) ?_))
  · exact iff_of_eq (congrArg (fun b => (b && ref.role != .associatedToken) = true) hAssociated)
  · exact iff_of_eq (congrArg (fun b => (!b && ref.role = .associatedToken) = true) hAssociated)
  · cases form with
    | tokenSeeds => exact .ite .rfl (.error rfl) .ok
    | withBump => exact .ite (by simp [Derive.unplaced]) (.error rfl) .ok
    | _ => exact .ok

theorem addressSeeds_steady (d : Derive) :
    Steady (List.map Seed.unplaced) (sc.addressSeeds env d)
      (sc.unplaced.addressSeeds env.unplaced d.unplaced) := by
  have hSeeds : d.form.unplaced.seedValues = d.form.seedValues.map Value.unplaced := by
    cases d.form <;> rfl
  rw [addressSeeds, addressSeeds, Derive.unplaced, hSeeds]
  exact sc.seeds_steady env d.account .address d.form.seedValues

theorem addressSource_steady (d : Derive) (seeds : List Seed) :
    Steady AddressSource.unplaced (sc.addressSource env d seeds)
      (sc.unplaced.addressSource env.unplaced d.unplaced (seeds.map Seed.unplaced)) := by
  obtain ⟨account, form, init⟩ := d
  cases form with
  | withBump vs bump => exact .bind (sc.bumpField_steady env account bump) fun ref => .ok
  | _ => exact .ok

theorem initialization_steady (pos pos' : SourcePos) (ref : AccountRef) (d : Derive) :
    Steady id (sc.initialization env pos ref d)
      (sc.unplaced.initialization env.unplaced pos' ref.unplaced d.unplaced) := by
  obtain ⟨account, form, init⟩ := d
  cases init with
  | none => exact .ok
  | some request =>
    refine .bind (allocation_steady env pos pos' ref form) fun space => ?_
    exact .bind (sc.payer_steady env ref request) fun name => .ok

theorem resolveDerive_steady (pos pos' : SourcePos) (d : Derive) :
    Steady unplaced (sc.resolveDerive env pos d)
      (sc.unplaced.resolveDerive env.unplaced pos' d.unplaced) := by
  have hAccount : d.unplaced.account = d.account := rfl
  rw [resolveDerive, resolveDerive, hAccount, account?_unplaced]
  cases sc.account? d.account with
  | none => exact .error rfl
  | some ref =>
    refine .bind (checkForm_steady env pos pos' ref d) fun _ => ?_
    refine .bind (sc.addressSeeds_steady env d) fun seeds => ?_
    refine .bind (sc.tokenParties_steady env pos pos' ref.name d.form) fun token => ?_
    refine .bind (sc.addressSource_steady env d seeds) fun address => ?_
    refine .bind (sc.initialization_steady env pos pos' ref d) fun init => ?_
    have hUpdate := sc.update_unplaced
      (f := fun a =>
        { a with address, token, init, isMutable := a.isMutable || init.isSome })
      (g := fun a =>
        { a with address := address.unplaced, token, init, isMutable := a.isMutable || init.isSome })
      (fun _ => rfl) ref.name
    have hArgs : (seeds.map Seed.unplaced).any (·.source.isArgument) =
        seeds.any (·.source.isArgument) :=
      any_unplaced (g := Seed.unplaced) (fun _ => rfl) seeds
    have hNoted : ∀ next : Scope, { next.unplaced with
        hasArgSeeds := next.hasArgSeeds || (seeds.map Seed.unplaced).any (·.source.isArgument) } =
          { next with
            hasArgSeeds := next.hasArgSeeds || seeds.any (·.source.isArgument) }.unplaced := by
      intro next
      rw [hArgs]
      rfl
    refine Outcome.Agree.ok ?_
    rw [← hNoted]
    cases init with
    | none =>
      dsimp only
      rw [← hUpdate]
      rfl
    | some i =>
      dsimp only
      rw [← markMutable_unplaced, ← hUpdate]
      rfl

theorem checkLength_steady (a : Assign) (t : ValueType) :
    Steady id (resolveAssign.checkLength env a t)
      (resolveAssign.checkLength env.unplaced a.unplaced t) := by
  obtain ⟨account, field, value⟩ := a
  simp only [resolveAssign.checkLength, Assign.unplaced]
  cases value with
  | string pos s =>
    cases t.kind with
    | string maxLen => exact .ite .rfl (.error rfl) .ok
    | _ => exact .ok
  | _ => exact .ok

theorem resolveAssign_steady (pos pos' : SourcePos) (a : Assign) :
    Steady unplaced (sc.resolveAssign env pos a)
      (sc.unplaced.resolveAssign env.unplaced pos' a.unplaced) := by
  refine .bind (sc.stateField_steady env a.account a.field pos pos') fun target => ?_
  refine .bind (sc.typeOf_steady env a.account a.value) fun source => ?_
  refine .ite .rfl (.error rfl) ?_
  refine .bind (.withField (sc.checkInt_steady env target.type a.account a.value) a.field)
    fun _ => ?_
  refine .bind (checkLength_steady env a target.type) fun _ => ?_
  rw [markMutable_unplaced]
  exact .ok

theorem checkParticipants_steady (pos pos' : SourcePos) (action : CallAction) :
    Steady id (sc.checkParticipants env pos action)
      (sc.unplaced.checkParticipants env.unplaced pos' action) := by
  refine .forM (fun name => ?_) action.participants
  rw [account?_unplaced, Option.isSome_map]
  exact .ite .rfl .ok (.error rfl)

theorem checkRoles_steady (pos pos' : SourcePos) (action : CallAction) :
    Steady id (sc.checkRoles env pos action)
      (sc.unplaced.checkRoles env.unplaced pos' action) := by
  refine .forM (fun (name, fits) => ?_) action.changed
  dsimp only
  rw [account?_unplaced]
  cases sc.account? name with
  | none => exact .ok
  | some ref => exact .ite .rfl .ok (.error rfl)

theorem checkAmount_steady (c : CrossProgramCall) :
    Steady id (sc.checkAmount env c) (sc.unplaced.checkAmount env.unplaced c.unplaced) := by
  refine .bind (sc.typeOf_steady env c.signer c.amount) fun t => ?_
  refine .ite .rfl (.error rfl) (.ite .rfl (.error rfl) ?_)
  exact sc.checkInt_steady env .u64 c.signer c.amount

theorem callSeeds_steady (pos pos' : SourcePos) (c : CrossProgramCall) :
    Steady (Option.map (List.map Seed.unplaced)) (sc.callSeeds env pos c)
      (sc.unplaced.callSeeds env.unplaced pos' c.unplaced) := by
  obtain ⟨action, amount, written⟩ := c
  cases written with
  | none =>
    refine .ite ?_ (.error rfl) .ok
    rw [env.derivation?_unplaced, account?_unplaced, Option.isSome_map, Option.all_map]
    simp only [AccountRef.unplaced, AddressSource.isAssociated_unplaced]
    rfl
  | some values =>
    refine .ite (by rw [env.derivation?_unplaced, Option.isSome_map]; rfl) (.error rfl) ?_
    refine .bind (sc.seeds_steady env action.signer .signer values) fun seeds => ?_
    refine .ite ?_ .ok (.error rfl)
    rw [List.getLast?_map, Option.any_map]
    rfl

theorem markChanged_unplaced (changed : List (Text × (Role → Bool))) :
    changed.foldl (fun sc (name, _) => sc.markMutable name) sc.unplaced =
      (changed.foldl (fun sc (name, _) => sc.markMutable name) sc).unplaced := by
  induction changed generalizing sc with
  | nil => rfl
  | cons entry rest ih =>
    rw [List.foldl_cons, List.foldl_cons, ← ih, ← markMutable_unplaced]

theorem resolveCall_steady (index : Nat) (pos pos' : SourcePos) (c : CrossProgramCall) :
    Steady unplaced (sc.resolveCall env index pos c)
      (sc.unplaced.resolveCall env.unplaced index pos' c.unplaced) := by
  refine .bind (sc.checkParticipants_steady env pos pos' c.action) fun _ => ?_
  refine .bind (sc.checkRoles_steady env pos pos' c.action) fun _ => ?_
  refine .bind (sc.checkAmount_steady env c) fun _ => ?_
  refine .bind (sc.callSeeds_steady env pos pos' c) fun seeds => ?_
  have hChanged := sc.markChanged_unplaced c.action.changed
  have hAction : c.unplaced.action = c.action := rfl
  refine Outcome.Agree.ok ?_
  simp only [hAction, hChanged]
  cases seeds with
  | none => rfl
  | some ss => simp only [Option.map_some, unplaced, unplacedSeeds, List.map_append]; rfl

/-- The scope once a variable has its type. -/
def known (name : Text) (t : ValueType) (v : Value) : Scope :=
  match if t = .intLiteral then constValue { sc with locals := (name, t) :: sc.locals } v
    else none with
  | some n => { sc with locals := (name, t) :: sc.locals, constants := (name, n) :: sc.constants }
  | none => { sc with locals := (name, t) :: sc.locals }

theorem known_unplaced (name : Text) (t : ValueType) (v : Value) :
    sc.unplaced.known name t v.unplaced = (sc.known name t v).unplaced := by
  have hConst : constValue { sc.unplaced with locals := (name, t) :: sc.locals } v.unplaced =
      constValue { sc with locals := (name, t) :: sc.locals } v :=
    constValue_unplaced { sc with locals := (name, t) :: sc.locals } v
  rw [known, known, show sc.unplaced.locals = sc.locals from rfl, hConst]
  split <;> rfl

theorem resolveBind_steady (l : LocalBinding) :
    Steady unplaced (sc.resolveBind env l)
      (sc.unplaced.resolveBind env.unplaced l.unplaced) := by
  refine .bind (sc.typeOf_steady env [] l.value) fun found => ?_
  obtain ⟨name, isMutable, declared, value⟩ := l
  match declared with
  | none =>
    refine .bind (g := id) .ok fun t => .bind (sc.checkInt_steady env t [] value) fun _ => ?_
    exact Outcome.Agree.ok (sc.known_unplaced name t value)
  | some (.value d) =>
    refine .ite .rfl ?_ (.error rfl)
    refine .bind (g := id) .ok fun t => .bind (sc.checkInt_steady env t [] value) fun _ => ?_
    exact Outcome.Agree.ok (sc.known_unplaced name t value)
  | some (.account r) => exact .error rfl

theorem resolveClose_steady (pos pos' : SourcePos) (c : CloseAccount) :
    Steady unplaced (sc.resolveClose env pos c)
      (sc.unplaced.resolveClose env.unplaced pos' c) := by
  rw [resolveClose, resolveClose, account?_unplaced, account?_unplaced]
  cases sc.account? c.account with
  | none => exact .error rfl
  | some ref =>
    refine .ite .rfl (.error rfl) (.ite .rfl (.error rfl) (.ite .rfl (.error rfl) ?_))
    refine .ite (by rw [Option.isNone_map]) (.error rfl) ?_
    rw [sc.update_unplaced (f := fun a => { a with closeTo := some c.destination, isMutable := true })
      (fun _ => rfl), markMutable_unplaced]
    exact .ok

theorem resolveStatement_steady (index : Nat) (s : Statement) :
    Steady unplaced (sc.resolveStatement env index s)
      (sc.unplaced.resolveStatement env.unplaced index s.unplaced) := by
  cases s with
  | derive pos d => exact sc.resolveDerive_steady env pos nowhere d
  | assign pos a => exact sc.resolveAssign_steady env pos nowhere a
  | call pos c => exact sc.resolveCall_steady env index pos nowhere c
  | bind pos l => exact sc.resolveBind_steady env l
  | close pos c => exact sc.resolveClose_steady env pos nowhere c

theorem resolveBody_steady (index : Nat) (body : List Statement) :
    Steady unplaced (sc.resolveBody env index body)
      (sc.unplaced.resolveBody env.unplaced index (body.map Statement.unplaced)) := by
  induction body generalizing sc index with
  | nil => exact .ok
  | cons s rest ih =>
    exact .bind (sc.resolveStatement_steady env index s) fun next => ih next (index + 1)

theorem initial_unplaced (i : Instruction) : initial i.unplaced = (initial i).unplaced := by
  simp only [initial, unplaced, Instruction.unplaced, List.filterMap_map, List.map_filterMap]
  congr 2
  funext p
  simp only [Function.comp_apply, Param.unplaced]
  cases p.type <;> rfl

end Scope

namespace Resolution

-- Where an account was derived first shows in the message only.
theorem checkDerivations_steady (env : Surroundings) (sc : Scope)
    (earlier : List (Text × SourcePos)) (body : List Statement) :
    Steady id (checkDerivations env sc earlier body)
      (checkDerivations env.unplaced sc.unplaced (earlier.map fun e => (e.1, nowhere))
        (body.map Statement.unplaced)) := by
  induction body generalizing earlier with
  | nil => exact .ok
  | cons s rest ih =>
    cases s with
    | derive pos d =>
      refine .ite ?_ (.error rfl) ?_
      · rw [sc.account?_unplaced, Option.isNone_map]
        rfl
      · rw [lookup_map_snd (fun _ => nowhere), show d.unplaced.account = d.account from rfl]
        cases earlier.lookup d.account with
        | none => exact ih ((d.account, pos) :: earlier)
        | some first => exact .error rfl
    | _ => exact ih earlier

theorem finishAccount_unplaced (a : AccountRef) :
    finishAccount a.unplaced = (finishAccount a).unplaced := by
  rw [finishAccount, finishAccount, AccountRef.isProgramDerived_unplaced,
    show a.unplaced.role = a.role from rfl]
  split <;> rfl

theorem isSystemCall_unplaced (s : Statement) : isSystemCall s.unplaced = isSystemCall s := by
  cases s <;> rfl

theorem isTokenCall_unplaced (s : Statement) : isTokenCall s.unplaced = isTokenCall s := by
  cases s <;> rfl

theorem needsSystem_unplaced (accounts : List AccountRef) (body : List Statement) :
    needsSystem (accounts.map AccountRef.unplaced) (body.map Statement.unplaced) =
      needsSystem accounts body := by
  rw [needsSystem, needsSystem, any_unplaced (g := AccountRef.unplaced) (fun _ => rfl),
    any_unplaced isSystemCall_unplaced]

theorem needsToken_unplaced (accounts : List AccountRef) (body : List Statement) :
    needsToken (accounts.map AccountRef.unplaced) (body.map Statement.unplaced) =
      needsToken accounts body := by
  rw [needsToken, needsToken, any_unplaced (g := AccountRef.unplaced) (fun _ => rfl),
    any_unplaced isTokenCall_unplaced]

theorem needsAssociated_unplaced (accounts : List AccountRef) :
    needsAssociated (accounts.map AccountRef.unplaced) = needsAssociated accounts := by
  refine any_unplaced (g := AccountRef.unplaced) (fun a => ?_) accounts
  rw [show a.unplaced.address = a.address.unplaced from rfl, AddressSource.isAssociated_unplaced]
  rfl

theorem declaredTokenProgram_unplaced (accounts : List AccountRef) :
    declaredTokenProgram (accounts.map AccountRef.unplaced) = declaredTokenProgram accounts := by
  rw [declaredTokenProgram, declaredTokenProgram, List.filter_map, List.map_map]
  rfl

theorem finish_unplaced (i : Instruction) (sc : Scope) :
    finish i.unplaced sc.unplaced = (finish i sc).unplaced := by
  have hAccounts : sc.unplaced.accounts.map finishAccount =
      (sc.accounts.map finishAccount).map AccountRef.unplaced := by
    simp only [Scope.unplaced, List.map_map]
    exact List.map_congr_left fun a _ => finishAccount_unplaced a
  have hBody : i.unplaced.body = i.body.map Statement.unplaced := rfl
  simp only [finish, hAccounts, hBody, needsSystem_unplaced, needsToken_unplaced,
    needsAssociated_unplaced, declaredTokenProgram_unplaced]
  rfl

theorem resolveInstruction_steady (p : Program) (i : Instruction) :
    Steady ResolvedInstruction.unplaced (resolveInstruction p i)
      (resolveInstruction p.unplaced i.unplaced) := by
  rw [resolveInstruction, resolveInstruction, Scope.initial_unplaced]
  refine .bind (checkDerivations_steady ⟨p, i⟩ (Scope.initial i) [] i.body) fun _ => ?_
  refine .bind ((Scope.initial i).resolveBody_steady ⟨p, i⟩ 0 i.body) fun sc => ?_
  rw [finish_unplaced]
  exact .ok

end Resolution

theorem Program.resolve_steady (p : Program) :
    Steady ResolvedProgram.unplaced p.resolve p.unplaced.resolve :=
  .bind (.mapM (Resolution.resolveInstruction_steady p) p.instructions) fun _ => .ok

end AnchorScript
