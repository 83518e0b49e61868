import AnchorScript.Resolution.Program
import AnchorScript.Proofs.Outcome

/-!
# What an accepted statement does

`Step` lists, statement by statement, what resolution has checked and the scope it leaves. The
account records change by an `Effect`: a derivation sets the origin of the account it names, a
closing sets its refund destination, and some accounts become writable. Names, roles and positions
never change.
-/

namespace AnchorScript

open Outcome

/-- What a derivation settles about an account. -/
structure Origin where
  address : AddressSource
  token : Option TokenParties
  init : Option Initialization

namespace AccountRef

def origin (a : AccountRef) : Origin := ⟨a.address, a.token, a.init⟩

def withOrigin (a : AccountRef) (o : Origin) : AccountRef :=
  { a with address := o.address, token := o.token, init := o.init }

end AccountRef

/-- What a statement changes about the accounts, by name. -/
structure Effect where
  origin? : Text → Option Origin := fun _ => none
  refund? : Text → Option Text := fun _ => none
  writes : List Text := []

namespace Effect

def apply (e : Effect) (a : AccountRef) : AccountRef :=
  { a.withOrigin ((e.origin? a.name).getD a.origin) with
    isMutable := a.isMutable || e.writes.contains a.name
    closeTo := (e.refund? a.name).or a.closeTo }

@[simp] theorem name_apply (e : Effect) (a : AccountRef) : (e.apply a).name = a.name := rfl

@[simp] theorem role_apply (e : Effect) (a : AccountRef) : (e.apply a).role = a.role := rfl

@[simp] theorem origin_apply (e : Effect) (a : AccountRef) :
    (e.apply a).origin = (e.origin? a.name).getD a.origin := rfl

@[simp] theorem closeTo_apply (e : Effect) (a : AccountRef) :
    (e.apply a).closeTo = (e.refund? a.name).or a.closeTo := rfl

@[simp] theorem isMutable_apply (e : Effect) (a : AccountRef) :
    (e.apply a).isMutable = (a.isMutable || e.writes.contains a.name) := rfl

/-- The named accounts are written. -/
def write (names : List Text) : Effect := { writes := names }

/-- A created account and its payer are written. -/
def derive (account : Text) (o : Origin) : Effect :=
  { origin? := fun n => if n = account then some o else none
    writes := match o.init with
      | some i => [account, i.payer]
      | none => [] }

def close (account destination : Text) : Effect :=
  { refund? := fun n => if n = account then some destination else none
    writes := [account, destination] }

end Effect

namespace Scope

def affect (sc : Scope) (e : Effect) : Scope := { sc with accounts := sc.accounts.map e.apply }

theorem markMutable_eq_affect (sc : Scope) (name : Text) :
    sc.markMutable name = sc.affect (.write [name]) := by
  rw [markMutable, update, affect]
  congr 2
  funext a
  by_cases h : a.name = name <;> simp [Effect.write, Effect.apply, AccountRef.withOrigin,
    AccountRef.origin, h]

theorem affect_write_append (sc : Scope) (names names' : List Text) :
    (sc.affect (.write names)).affect (.write names') = sc.affect (.write (names ++ names')) := by
  simp only [affect, List.map_map]
  congr 2
  funext a
  simp [Effect.write, Effect.apply, AccountRef.withOrigin, AccountRef.origin, Bool.or_assoc]

theorem affect_write_nil (sc : Scope) : sc.affect (.write []) = sc := by
  have hApply : (Effect.write []).apply = id := by
    funext a
    simp [Effect.write, Effect.apply, AccountRef.withOrigin, AccountRef.origin]
  rw [affect, hApply, List.map_id]

theorem foldl_markMutable_eq_affect {α : Type} (sc : Scope) (named : List (Text × α)) :
    named.foldl (fun sc n => sc.markMutable n.1) sc =
      sc.affect (.write (named.map Prod.fst)) := by
  induction named generalizing sc with
  | nil => exact (affect_write_nil sc).symm
  | cons n named ih =>
    rw [List.foldl_cons, ih, markMutable_eq_affect, affect_write_append]
    rfl

/-- The scope an accepted statement, the one with this index, leaves behind. -/
inductive Step (env : Surroundings) (index : Nat) (sc : Scope) : Statement → Scope → Prop
  | derive {pos : SourcePos} {d : Derive} {ref : AccountRef} {seeds : List Seed} {o : Origin}
      (hRef : sc.account? d.account = some ref)
      (hForm : checkForm env pos ref d = .ok ())
      (hSeeds : sc.addressSeeds env d = .ok seeds)
      (hToken : sc.tokenParties env pos ref.name d.form = .ok o.token)
      (hAddress : sc.addressSource env d seeds = .ok o.address)
      (hInit : sc.initialization env pos ref d = .ok o.init) :
      Step env index sc (.derive pos d)
        { sc.affect (.derive d.account o) with
          hasArgSeeds := sc.hasArgSeeds || seeds.any (·.source.isArgument) }
  | assign {pos : SourcePos} {a : Assign} {target : StateField} {source : ValueType}
      (hTarget : sc.stateField env a.account a.field pos = .ok target)
      (hType : sc.typeOf env a.account a.value = .ok source)
      (hAccepts : target.type.accepts source = true)
      (hInt : sc.checkInt env target.type a.account a.value = .ok ())
      (hLength : resolveAssign.checkLength env a target.type = .ok ()) :
      Step env index sc (.assign pos a)
        { sc.affect (.write [a.account]) with written := ⟨a.account, a.field⟩ :: sc.written }
  | call {pos : SourcePos} {c : CrossProgramCall} {seeds : Option (List Seed)}
      (hParticipants : sc.checkParticipants env pos c.action = .ok ())
      (hRoles : sc.checkRoles env pos c.action = .ok ())
      (hAmount : sc.checkAmount env c = .ok ())
      (hSeeds : sc.callSeeds env pos c = .ok seeds) :
      Step env index sc (.call pos c)
        { sc.affect (.write (c.action.changed.map Prod.fst)) with
          signerSeeds := sc.signerSeeds ++ (seeds.map fun s => (index, s)).toList }
  | bind {pos : SourcePos} {l : LocalBinding} {found t : ValueType} {constants : List (Text × Int)}
      (hFound : sc.typeOf env [] l.value = .ok found)
      (hType : l.declared = none ∧ t = found ∨
        ∃ d, l.declared = some (.value d) ∧ d.accepts found = true ∧ t = d)
      (hInt : sc.checkInt env t [] l.value = .ok ())
      (hConstants : constants = match (if t = .intLiteral then
            ({ sc with locals := (l.name, t) :: sc.locals } : Scope).constValue l.value else none) with
        | some n => (l.name, n) :: sc.constants
        | none => sc.constants) :
      Step env index sc (.bind pos l)
        { sc with locals := (l.name, t) :: sc.locals, constants }
  | close {pos : SourcePos} {c : CloseAccount} {ref : AccountRef}
      (hRef : sc.account? c.account = some ref)
      (hState : ref.role.isState = true)
      (hInit : ref.isInitialized = false)
      (hOpen : ref.closeTo = none)
      (hDestination : (sc.account? c.destination).isSome = true) :
      Step env index sc (.close pos c) (sc.affect (.close c.account c.destination))

theorem affect_derive_of_none (sc : Scope) (name : Text) (address : AddressSource)
    (token : Option TokenParties) :
    (sc.update name fun a =>
      { a with address, token, init := none, isMutable := a.isMutable || false }) =
      sc.affect (.derive name ⟨address, token, none⟩) := by
  rw [update, affect]
  congr 2
  funext a
  by_cases h : a.name = name <;>
    simp [Effect.derive, Effect.apply, AccountRef.withOrigin, AccountRef.origin, h]

theorem affect_derive_of_some (sc : Scope) (name : Text) (address : AddressSource)
    (token : Option TokenParties) (i : Initialization) :
    (sc.update name fun a =>
      { a with address, token, init := some i, isMutable := a.isMutable || true }).markMutable
        i.payer =
      sc.affect (.derive name ⟨address, token, some i⟩) := by
  simp only [markMutable, update, affect, List.map_map]
  congr 2
  funext a
  by_cases h : a.name = name <;> by_cases hPayer : a.name = i.payer <;>
    simp_all [Effect.derive, Effect.apply, AccountRef.withOrigin, AccountRef.origin]

theorem affect_close (sc : Scope) (account destination : Text) :
    (sc.update account fun a => { a with closeTo := some destination, isMutable := true }).markMutable
      destination = sc.affect (.close account destination) := by
  simp only [markMutable, update, affect, List.map_map]
  congr 2
  funext a
  by_cases h : a.name = account <;> by_cases hDest : a.name = destination <;>
    simp_all [Effect.close, Effect.apply, AccountRef.withOrigin, AccountRef.origin]

theorem step_of_resolveDerive {sc sc' : Scope} {env : Surroundings} {index : Nat}
    {pos : SourcePos} {d : Derive} (h : sc.resolveDerive env pos d = .ok sc') :
    Step env index sc (.derive pos d) sc' := by
  unfold resolveDerive at h
  split at h
  · cases h
  · rename_i ref hRef
    simp only [bind_eq_ok_iff, pure_eq_ok_iff] at h
    obtain ⟨_, hForm, seeds, hSeeds, token, hToken, address, hAddress, init, hInit, rfl⟩ := h
    have hName : ref.name = d.account := by
      simpa using List.find?_some hRef
    have hStep : Step env index sc (.derive pos d) _ :=
      .derive (o := ⟨address, token, init⟩) hRef hForm hSeeds hToken hAddress hInit
    cases init with
    | none =>
      rw [← affect_derive_of_none, ← hName] at hStep
      exact hStep
    | some i =>
      rw [← affect_derive_of_some, ← hName] at hStep
      exact hStep

theorem step_of_resolveAssign {sc sc' : Scope} {env : Surroundings} {index : Nat}
    {pos : SourcePos} {a : Assign} (h : sc.resolveAssign env pos a = .ok sc') :
    Step env index sc (.assign pos a) sc' := by
  simp only [resolveAssign, bind_eq_ok_iff, pure_eq_ok_iff, refused_or_eq_ok_iff,
    mapError_eq_ok_iff] at h
  obtain ⟨target, hTarget, source, hType, hAccepts, _, hInt, _, hLength, rfl⟩ := h
  rw [markMutable_eq_affect]
  exact .assign hTarget hType (by simpa using hAccepts) hInt hLength

theorem step_of_resolveCall {sc sc' : Scope} {env : Surroundings} {index : Nat}
    {pos : SourcePos} {c : CrossProgramCall} (h : sc.resolveCall env index pos c = .ok sc') :
    Step env index sc (.call pos c) sc' := by
  simp only [resolveCall, bind_eq_ok_iff, pure_eq_ok_iff] at h
  obtain ⟨_, hParticipants, _, hRoles, _, hAmount, seeds, hSeeds, rfl⟩ := h
  have hStep : Step env index sc (.call pos c) _ := .call hParticipants hRoles hAmount hSeeds
  rw [foldl_markMutable_eq_affect]
  cases seeds with
  | none => simpa [affect] using hStep
  | some s => exact hStep

theorem step_of_resolveBind {sc sc' : Scope} {env : Surroundings} {index : Nat}
    {pos : SourcePos} {l : LocalBinding} (h : sc.resolveBind env l = .ok sc') :
    Step env index sc (.bind pos l) sc' := by
  simp only [resolveBind, bind_eq_ok_iff] at h
  obtain ⟨found, hFound, h⟩ := h
  have hType : ∃ t, (l.declared = none ∧ t = found ∨
      ∃ d, l.declared = some (.value d) ∧ d.accepts found = true ∧ t = d) ∧
      sc.checkInt env t [] l.value = .ok () ∧
      (match (if t = .intLiteral then
          ({ sc with locals := (l.name, t) :: sc.locals } : Scope).constValue l.value else none) with
        | some n => { sc with locals := (l.name, t) :: sc.locals,
                              constants := (l.name, n) :: sc.constants }
        | none => { sc with locals := (l.name, t) :: sc.locals }) = sc' := by
    split at h
    · rename_i hDeclared
      simp only [bind_eq_ok_iff, pure_eq_ok_iff] at h
      obtain ⟨t, rfl, _, hInt, hScope⟩ := h
      exact ⟨_, .inl ⟨hDeclared, rfl⟩, hInt, hScope⟩
    · rename_i d hDeclared
      split at h
      · rename_i hAccepts
        simp only [bind_eq_ok_iff, pure_eq_ok_iff] at h
        obtain ⟨t, rfl, _, hInt, hScope⟩ := h
        exact ⟨_, .inr ⟨_, hDeclared, hAccepts, rfl⟩, hInt, hScope⟩
      · cases h
    · cases h
  obtain ⟨t, hType, hInt, rfl⟩ := hType
  have hStep : Step env index sc (.bind pos l) _ := .bind hFound hType hInt rfl
  split at hStep <;> exact hStep

theorem step_of_resolveClose {sc sc' : Scope} {env : Surroundings} {index : Nat}
    {pos : SourcePos} {c : CloseAccount} (h : sc.resolveClose env pos c = .ok sc') :
    Step env index sc (.close pos c) sc' := by
  unfold resolveClose at h
  split at h
  · cases h
  · rename_i ref hRef
    simp only [refused_or_eq_ok_iff, Except.ok.injEq] at h
    obtain ⟨hState, hInit, hOpen, hDestination, rfl⟩ := h
    rw [affect_close]
    exact .close hRef (by simpa using hState) (by simpa using hInit) (by simpa using hOpen)
      (by simpa [Option.isSome_iff_ne_none] using hDestination)

theorem step_of_resolveStatement {sc sc' : Scope} {env : Surroundings} {index : Nat}
    {s : Statement} (h : sc.resolveStatement env index s = .ok sc') : Step env index sc s sc' := by
  cases s with
  | derive pos d => exact step_of_resolveDerive h
  | assign pos a => exact step_of_resolveAssign h
  | call pos c => exact step_of_resolveCall h
  | bind pos l => exact step_of_resolveBind h
  | close pos c => exact step_of_resolveClose h

end Scope

end AnchorScript
