import AnchorScript.Proofs.Program.ValueTypes
import AnchorScript.Proofs.Resolution.NamedAccounts

/-!
# Types of accepted statements

What resolution has found out about the types of an accepted body, without the scopes it was found
in: the type of every value, and that a value with an integer type of its own is computed in it. The
values of variables bound to bare literals are left out: they have the type that their uses give
them, and `UsedAt` says which types these are.
-/

namespace AnchorScript

open Outcome

/-- The integer type that values of the type are computed in. A bare literal fixes none. -/
def ValueType.int? (t : ValueType) : Option IntType :=
  match t.kind with
  | .int i => if t = .intLiteral then none else some i
  | _ => none

theorem ValueType.int?_eq_some_iff {t : ValueType} {u : IntType} :
    t.int? = some u ↔ t.kind = .int u ∧ t ≠ .intLiteral := by
  unfold int?
  split
  · rename_i i hKind
    rw [hKind]
    split
    · simp_all
    · simp_all
  · rename_i hOther
    constructor
    · intro h
      cases h
    · rintro ⟨hKind, _⟩
      exact (hOther u hKind).elim

namespace Value

/-- The variables that a value reads. -/
def vars : Value → List Text
  | .var _ name _ => [name]
  | .binary _ _ l r => l.vars ++ r.vars
  | .neg _ v | .paren _ v => v.vars
  | _ => []

/-- Every literal is in the range of the type, and nothing unsigned is negated. -/
def computesIn (t : IntType) : Value → Bool
  | .int _ lit => (IntLiteral.value? lit).any fun (n : Nat) => t.fits n
  | .neg _ v => t.signed && v.computesIn t
  | .paren _ v => v.computesIn t
  | .binary _ _ l r => l.computesIn t && r.computesIn t
  | _ => true

/-- The type of a value where the variables have these types. -/
inductive Types (p : Program) (i : Instruction) (locals : List (Text × ValueType)) :
    Value → ValueType → Prop
  | int {pos : SourcePos} {lit : Text} : Types p i locals (.int pos lit) .intLiteral
  | bool {pos : SourcePos} {b : Bool} : Types p i locals (.bool pos b) ⟨"boolean", .bool⟩
  | string {pos : SourcePos} {s : Text} : Types p i locals (.string pos s) ⟨"string", .string 0⟩
  | arg {pos : SourcePos} {name : Text} {asBytes : Bool} {t : ValueType}
      (hArg : i.argType? name = some t) : Types p i locals (.arg pos name asBytes) t
  | var {pos : SourcePos} {name : Text} {asBytes : Bool} {t : ValueType}
      (hVar : locals.lookup name = some t) : Types p i locals (.var pos name asBytes) t
  | key {pos : SourcePos} {account : Text} {asBytes : Bool} :
      Types p i locals (.key pos account asBytes) .pubkey
  | field {pos : SourcePos} {account field : Text} {asBytes : Bool} {t : ValueType}
      (hField : p.fieldType? i account field = some t) :
      Types p i locals (.field pos account field asBytes) t
  | bump {pos : SourcePos} {account : Text} : Types p i locals (.bump pos account) .u8
  | paren {pos : SourcePos} {v : Value} {t : ValueType} (hInner : Types p i locals v t) :
      Types p i locals (.paren pos v) t
  | neg {pos : SourcePos} {v : Value} {t : ValueType} (hInt : t.kind.isInt = true)
      (hOperand : Types p i locals v t) : Types p i locals (.neg pos v) t
  | binary {pos : SourcePos} {op : ArithOp} {l r : Value} {lt rt t : ValueType}
      (hLeftInt : lt.kind.isInt = true) (hRightInt : rt.kind.isInt = true)
      (hLeft : Types p i locals l lt) (hRight : Types p i locals r rt)
      (hCommon : lt = .intLiteral ∧ t = rt ∨ t = lt ∧ (rt = .intLiteral ∨ rt = lt)) :
      Types p i locals (.binary pos op l r) t

theorem Types.mono {p : Program} {i : Instruction} {locals locals' : List (Text × ValueType)}
    {v : Value} {t : ValueType} (h : Types p i locals v t)
    (hLocals : ∀ name t, locals.lookup name = some t → locals'.lookup name = some t) :
    Types p i locals' v t := by
  induction h with
  | int => exact .int
  | bool => exact .bool
  | string => exact .string
  | arg hArg => exact .arg hArg
  | var hVar => exact .var (hLocals _ _ hVar)
  | key => exact .key
  | field hField => exact .field hField
  | bump => exact .bump
  | paren _ ih => exact .paren ih
  | neg hInt _ ih => exact .neg hInt ih
  | binary hLeftInt hRightInt _ _ hCommon ihLeft ihRight =>
    exact .binary hLeftInt hRightInt ihLeft ihRight hCommon

end Value

namespace Scope

variable {sc : Scope} {env : Surroundings} {about : Text} {v : Value}

theorem operandType_ok {pos : SourcePos} {op : ArithOp} {l r t : ValueType}
    (h : operandType env pos about op l r = .ok t) :
    l.kind.isInt = true ∧ r.kind.isInt = true ∧
      (l = .intLiteral ∧ t = r ∨ t = l ∧ (r = .intLiteral ∨ r = l)) := by
  simp only [operandType, refused_or_eq_ok_iff] at h
  obtain ⟨hInts, h⟩ := h
  simp only [Bool.or_eq_true, Bool.not_eq_true', not_or, Bool.not_eq_false] at hInts
  refine ⟨hInts.1, hInts.2, ?_⟩
  split at h
  · rename_i hLiteral
    cases h
    exact .inl ⟨hLiteral, rfl⟩
  · simp only [allowed_or_eq_ok_iff, Except.ok.injEq] at h
    obtain ⟨hSame, rfl⟩ := h
    simp only [Bool.or_eq_true, decide_eq_true_eq] at hSame
    exact .inr ⟨rfl, hSame.imp_right Eq.symm⟩

theorem types_of_typeOf {t : ValueType} (hRoles : HasRolesOf env.instruction sc.accounts)
    (h : sc.typeOf env about v = .ok t) :
    v.Types env.program env.instruction sc.locals t := by
  induction v generalizing t with
  | int =>
    cases h
    exact .int
  | bool =>
    cases h
    exact .bool
  | string =>
    cases h
    exact .string
  | account => cases h
  | arg pos name asBytes =>
    simp only [typeOf, refused_or_eq_ok_iff] at h
    obtain ⟨_, h⟩ := h
    split at h
    · rename_i t' hType
      cases h
      exact .arg hType
    · cases h
  | var pos name asBytes =>
    simp only [typeOf, refused_or_eq_ok_iff] at h
    obtain ⟨_, h⟩ := h
    split at h
    · rename_i t' hType
      cases h
      exact .var hType
    · cases h
  | key pos account asBytes =>
    simp only [typeOf, refused_or_eq_ok_iff] at h
    obtain ⟨_, h⟩ := h
    split at h
    · cases h
      exact .key
    · cases h
  | field pos account field asBytes =>
    simp only [typeOf, fieldType, refused_or_eq_ok_iff, bind_eq_ok_iff, pure_eq_ok_iff] at h
    obtain ⟨_, f, hField, _, rfl⟩ := h
    exact .field (stateField_ok hRoles hField)
  | bump pos account =>
    simp only [typeOf, bind_eq_ok_iff, pure_eq_ok_iff] at h
    obtain ⟨_, _, rfl⟩ := h
    exact .bump
  | paren pos v ih => exact .paren (ih h)
  | neg pos v ih =>
    simp only [typeOf, bind_eq_ok_iff, allowed_or_eq_ok_iff, pure_eq_ok_iff] at h
    obtain ⟨t', hOperand, hNegatable, rfl⟩ := h
    refine .neg ?_ (ih hOperand)
    cases hKind : t'.kind with
    | int => rfl
    | _ => simp [isNegatable, hKind] at hNegatable
  | binary pos op l r ihLeft ihRight =>
    simp only [typeOf, bind_eq_ok_iff] at h
    obtain ⟨lt, hLeft, rt, hRight, h⟩ := h
    obtain ⟨hLeftInt, hRightInt, hCommon⟩ := operandType_ok h
    exact .binary hLeftInt hRightInt (ihLeft hLeft) (ihRight hRight) hCommon

/-- A checked value is computed in the type it is checked against. -/
theorem computesIn_of_checkIntExpr {t : IntType}
    (hLiterals : ∀ pos lit, Value.int pos lit ∈ v.leaves → IntLiteral.isValid lit = true)
    (h : sc.checkIntExpr env t about v = .ok ()) : v.computesIn t = true := by
  induction v with
  | int pos lit =>
    obtain ⟨n, hn⟩ := IntLiteral.value?_of_isValid (hLiterals pos lit List.mem_cons_self)
    simp only [checkIntExpr, checkRange, constValue, hn, Option.map_some, allowed_or_eq_ok_iff] at h
    simp only [Value.computesIn, hn]
    exact h.1
  | paren pos v ih => exact ih hLiterals h
  | neg pos v ih =>
    simp only [checkIntExpr, allowed_or_eq_ok_iff, bind_eq_ok_iff] at h
    obtain ⟨hSigned, _, hOperand, _⟩ := h
    simp only [Value.computesIn, hSigned, ih hLiterals hOperand, Bool.and_self]
  | binary pos op l r ihLeft ihRight =>
    simp only [checkIntExpr, bind_eq_ok_iff] at h
    obtain ⟨_, hLeft, _, hRight, _⟩ := h
    have hLeftIn :=
      ihLeft (fun pos lit hLit => hLiterals pos lit (List.mem_append_left _ hLit)) hLeft
    have hRightIn :=
      ihRight (fun pos lit hLit => hLiterals pos lit (List.mem_append_right _ hLit)) hRight
    simp only [Value.computesIn, hLeftIn, hRightIn, Bool.and_self]
  | _ => rfl

theorem computesIn_of_checkInt {t : ValueType} {u : IntType}
    (hLiterals : ∀ pos lit, Value.int pos lit ∈ v.leaves → IntLiteral.isValid lit = true)
    (h : sc.checkInt env t about v = .ok ()) (hInt : t.int? = some u) : v.computesIn u = true := by
  obtain ⟨hKind, hTyped⟩ := ValueType.int?_eq_some_iff.mp hInt
  simp only [checkInt, hKind, hTyped, ↓reduceIte] at h
  exact computesIn_of_checkIntExpr hLiterals h

theorem Run.locals_names {index : Nat} {sc' : Scope} {body : List Statement}
    (h : Run env index sc body sc') : sc'.locals.map Prod.fst =
      ((body.filterMap Statement.declaration?).map Prod.fst).reverse ++ sc.locals.map Prod.fst := by
  induction h with
  | nil => rfl
  | cons hStep _ ih =>
    rw [ih]
    cases hStep with
    | bind => simp [Statement.declaration?]
    | _ => rfl

/-- The variables bound by the first statements of a body have different names. -/
theorem Run.nodup_locals {before after : List Statement}
    (h : Run env 0 (.initial env.instruction) before sc)
    (hBody : env.instruction.body = before ++ after) (hApart : env.instruction.varNames.Nodup) :
    (sc.locals.map Prod.fst).Nodup := by
  rw [Instruction.varNames, hBody, List.filterMap_append, List.map_append] at hApart
  rw [h.locals_names, List.nodup_append_comm]
  exact List.nodup_reverse.mpr hApart.of_append_left

end Scope

/-- A variable with a type is one that the body binds. -/
theorem Resolution.mem_varNames {p : Program} {i : Instruction} {r : ResolvedInstruction}
    (h : resolveInstruction p i = .ok r) {l : Text × ValueType} (hl : l ∈ r.locals) :
    l.1 ∈ i.varNames := by
  obtain ⟨last, hRun, rfl⟩ := run_of_resolveInstruction h
  have hMem : l.1 ∈ last.locals.map Prod.fst := List.mem_map_of_mem hl
  rw [hRun.locals_names] at hMem
  simpa [Scope.initial, Instruction.varNames] using hMem

/-- Every variable that the body binds has a type. -/
theorem Resolution.exists_local {p : Program} {i : Instruction} {r : ResolvedInstruction}
    (h : resolveInstruction p i = .ok r) {name : Text} (hName : name ∈ i.varNames) :
    ∃ t, r.locals.lookup name = some t := by
  obtain ⟨last, hRun, rfl⟩ := run_of_resolveInstruction h
  have hMem : name ∈ last.locals.map Prod.fst := by
    rw [hRun.locals_names]
    simpa [Scope.initial, Instruction.varNames] using hName
  obtain ⟨l, hl, rfl⟩ := List.mem_map.mp hMem
  refine Option.ne_none_iff_exists'.mp fun hNone => ?_
  simpa using List.lookup_eq_none_iff.mp hNone l hl

theorem lookup_of_suffix {β : Type} {locals locals' : List (Text × β)}
    (hNodup : (locals'.map Prod.fst).Nodup) (hSuffix : locals <:+ locals') {name : Text}
    {t : β} (h : locals.lookup name = some t) : locals'.lookup name = some t := by
  obtain ⟨before, rfl⟩ := hSuffix
  obtain ⟨front, back, rfl, _⟩ := List.lookup_eq_some_iff.mp h
  refine List.lookup_eq_some_iff.mpr ⟨before ++ front, back, by simp, fun q hq => ?_⟩
  rw [← List.append_assoc, List.map_append, List.map_cons] at hNodup
  have hApart := (List.nodup_append.mp hNodup).2.2 q.1 (List.mem_map_of_mem hq) name
    List.mem_cons_self
  simpa using hApart.symm

/-- What was found out about the types of a statement, with the variables of the whole body. -/
inductive Accepted (p : Program) (r : ResolvedInstruction) : Statement → Prop
  | assign {pos : SourcePos} {a : Assign} {target source : ValueType}
      (hField : p.fieldType? r.source a.account a.field = some target)
      (hValue : a.value.Types p r.source r.locals source)
      (hAccepts : target.accepts source = true)
      (hComputed : ∀ u, target.int? = some u → a.value.computesIn u = true) :
      Accepted p r (.assign pos a)
  | call {pos : SourcePos} {c : CrossProgramCall} {t : ValueType}
      (hAmount : c.amount.Types p r.source r.locals t)
      (hAccepts : ValueType.u64.accepts t = true)
      (hComputed : c.amount.computesIn ⟨.w64, false⟩ = true) : Accepted p r (.call pos c)
  | bind {pos : SourcePos} {l : LocalBinding} {found t : ValueType}
      (hValue : l.value.Types p r.source r.locals found)
      (hLocal : r.locals.lookup l.name = some t)
      (hAccepts : t.accepts found = true)
      (hDeclared : ∀ d, l.declared = some d → d = .value t)
      (hLiteral : t = .intLiteral → found = .intLiteral)
      (hComputed : ∀ u, t.int? = some u → l.value.computesIn u = true) : Accepted p r (.bind pos l)
  | derive {pos : SourcePos} {d : Derive} : Accepted p r (.derive pos d)
  | close {pos : SourcePos} {c : CloseAccount} : Accepted p r (.close pos c)

/-- Kinds other than integers differ in their lengths only. -/
theorem ValueKind.rust_of_assignableFrom {k l : ValueKind} (h : k.assignableFrom l = true)
    (hNotInts : ∀ t s, k = .int t → l = .int s → False) :
    l.isInt = false ∧ k.rust = l.rust := by
  cases k with
  | int t =>
    cases l with
    | int s => exact (hNotInts t s rfl rfl).elim
    | _ => cases h
  | _ => cases l <;> simp_all [assignableFrom, isInt, ValueKind.rust]

theorem ValueType.accepts_self (t : ValueType) : t.accepts t = true := by
  unfold accepts
  cases t.kind <;> simp [ValueKind.assignableFrom]

theorem ValueType.u64_accepts {t : ValueType}
    (h : t = .intLiteral ∨ t.kind = .int ⟨.w64, false⟩) : u64.accepts t = true := by
  rcases h with rfl | hKind
  · decide
  · simp [accepts, u64, ofInt, hKind]

namespace Resolution

variable {p : Program} {r : ResolvedInstruction}

theorem nodup_locals (hTypable : p.Typable r.source) (h : resolveInstruction p r.source = .ok r) :
    (r.locals.map Prod.fst).Nodup := by
  obtain ⟨sc, hRun, hFinish⟩ := run_of_resolveInstruction h
  rw [← hFinish]
  exact hRun.nodup_locals (List.append_nil _).symm hTypable.apart

theorem accepted_of_mem (hi : r.source.DistinctParams) (hTypable : p.Typable r.source)
    (h : resolveInstruction p r.source = .ok r) {s : Statement} (hs : s ∈ r.source.body) :
    Accepted p r s := by
  obtain ⟨before, after, hBody⟩ := List.append_of_mem hs
  have hNodup := nodup_locals hTypable h
  obtain ⟨last, hRun, hFinish⟩ := run_of_resolveInstruction h
  have hLast : last.locals = r.locals := congrArg ResolvedInstruction.locals hFinish
  rw [hBody] at hRun
  obtain ⟨sc, sc', hBefore, hStep, hAfter⟩ := hRun.split
  have hRoles := hBefore.hasRolesOf (.initial hi)
  have hKept := (Scope.Run.cons hStep hAfter).locals_suffix
  have hKeptAfter := hAfter.locals_suffix
  rw [hLast] at hKept hKeptAfter
  have hTypes {v : Value} {about : Text} {t : ValueType}
      (hv : sc.typeOf ⟨p, r.source⟩ about v = .ok t) : v.Types p r.source r.locals t :=
    (Scope.types_of_typeOf hRoles hv).mono fun _ _ => lookup_of_suffix hNodup hKept
  have hLiterals {v : Value} (hv : v ∈ s.values) (pos : SourcePos) (lit : Text)
      (hLit : Value.int pos lit ∈ v.leaves) : IntLiteral.isValid lit = true :=
    hTypable.literals s hs pos lit (List.mem_flatMap.mpr ⟨v, hv, hLit⟩)
  cases hStep with
  | derive => exact .derive
  | close => exact .close
  | assign hTarget hType hAccepts hInt =>
    refine .assign (Scope.stateField_ok hRoles hTarget) (hTypes hType) hAccepts fun u hu => ?_
    exact Scope.computesIn_of_checkInt (hLiterals List.mem_cons_self) hInt hu
  | call _ _ hAmount =>
    simp only [Scope.checkAmount, bind_eq_ok_iff, refused_or_eq_ok_iff] at hAmount
    obtain ⟨t, hType, _, hWord, hInt⟩ := hAmount
    refine .call (hTypes hType) (ValueType.u64_accepts ?_)
      (Scope.computesIn_of_checkInt (hLiterals List.mem_cons_self) hInt (by decide))
    by_contra hOther
    simp only [not_or] at hOther
    exact hWord (by simpa using hOther)
  | @bind pos l found t constants hFound hType hInt =>
    refine .bind (hTypes hFound) (lookup_of_suffix hNodup hKeptAfter List.lookup_cons_self)
      ?_ ?_ ?_ fun u hu => Scope.computesIn_of_checkInt (hLiterals List.mem_cons_self) hInt hu
    · rcases hType with ⟨_, rfl⟩ | ⟨d, _, hAccepts, rfl⟩
      · exact t.accepts_self
      · exact hAccepts
    · rcases hType with ⟨hNone, _⟩ | ⟨d, hSome, _, rfl⟩
      · simp [hNone]
      · intro d' hd'
        exact Option.some.inj (hd'.symm.trans hSome)
    · rintro rfl
      rcases hType with ⟨_, hSame⟩ | ⟨d, hSome, _, rfl⟩
      · exact hSame.symm
      · exact absurd rfl (hTypable.declared pos l hs _ hSome)

end Resolution

namespace ResolvedInstruction

/-- The value that a statement uses at an integer type, with the type. -/
def intUse? (i : ResolvedInstruction) (p : Program) : Statement → Option (Value × IntType)
  | .assign _ a =>
    ((p.fieldType? i.source a.account a.field).bind ValueType.int?).map (a.value, ·)
  | .call _ c => some (c.amount, ⟨.w64, false⟩)
  | .bind _ l => ((i.locals.lookup l.name).bind ValueType.int?).map (l.value, ·)
  | .derive .. | .close .. => none

/-- The variable is bound to an expression of bare literals, without a declared type. -/
def IsLiteral (i : ResolvedInstruction) (name : Text) : Prop :=
  i.locals.lookup name = some .intLiteral

/-- A use of the variable makes it a number of this type. The type of a variable that is bound to
literals goes on to the variables it is computed from, and from them to it. -/
inductive UsedAt (p : Program) (i : ResolvedInstruction) : Text → IntType → Prop
  | use {s : Statement} {v : Value} {t : IntType} {x : Text} (hs : s ∈ i.source.body)
      (hUse : i.intUse? p s = some (v, t)) (hx : x ∈ v.vars) : UsedAt p i x t
  | operand {pos : SourcePos} {l : LocalBinding} {t : IntType} {x : Text}
      (hl : .bind pos l ∈ i.source.body) (hLiteral : i.IsLiteral l.name) (hx : x ∈ l.value.vars)
      (hResult : UsedAt p i l.name t) : UsedAt p i x t
  | result {pos : SourcePos} {l : LocalBinding} {t : IntType} {x : Text}
      (hl : .bind pos l ∈ i.source.body) (hLiteral : i.IsLiteral l.name) (hx : x ∈ l.value.vars)
      (hOperand : UsedAt p i x t) : UsedAt p i l.name t

/-- The type of a number that nothing else gives a type. -/
def defaultInt : IntType := ⟨.w32, true⟩

/-- The variable is a number of this type: by a use, or without any. -/
def Takes (p : Program) (i : ResolvedInstruction) (x : Text) (t : IntType) : Prop :=
  UsedAt p i x t ∨ (∀ u, ¬UsedAt p i x u) ∧ t = defaultInt

/-- Each variable that is bound to literals is used at one type at most, and its value can be
computed in the type it takes. -/
structure LiteralsAgree (p : Program) (i : ResolvedInstruction) : Prop where
  unique : ∀ x t u, i.IsLiteral x → UsedAt p i x t → UsedAt p i x u → t = u
  computed : ∀ pos l t, .bind pos l ∈ i.source.body → i.IsLiteral l.name → Takes p i l.name t →
    l.value.computesIn t = true

theorem LiteralsAgree.of_typed {p : Program} {i : ResolvedInstruction}
    (h : ∀ x, ¬i.IsLiteral x) : i.LiteralsAgree p where
  unique x _ _ hx := absurd hx (h x)
  computed _ l _ _ hx := absurd hx (h l.name)

theorem exists_takes (p : Program) (i : ResolvedInstruction) (x : Text) : ∃ t, Takes p i x t := by
  by_cases hUsed : ∃ t, UsedAt p i x t
  · obtain ⟨t, ht⟩ := hUsed
    exact ⟨t, .inl ht⟩
  · exact ⟨defaultInt, .inr ⟨not_exists.mp hUsed, rfl⟩⟩

theorem LiteralsAgree.takes_unique {p : Program} {i : ResolvedInstruction}
    (h : i.LiteralsAgree p) {x : Text} {t u : IntType} (hx : i.IsLiteral x) (ht : Takes p i x t)
    (hu : Takes p i x u) : t = u := by
  rcases ht with ht | ⟨hNone, rfl⟩
  · rcases hu with hu | ⟨hNone, _⟩
    · exact h.unique x t u hx ht hu
    · exact absurd ht (hNone t)
  · rcases hu with hu | ⟨_, rfl⟩
    · exact absurd hu (hNone u)
    · rfl

/-- What a variable bound to literals is computed from takes the type that it takes itself. -/
theorem takes_operand {p : Program} {i : ResolvedInstruction} {pos : SourcePos}
    {l : LocalBinding} {t : IntType} {x : Text} (hl : .bind pos l ∈ i.source.body)
    (hLiteral : i.IsLiteral l.name) (hx : x ∈ l.value.vars) (h : Takes p i l.name t) :
    Takes p i x t := by
  rcases h with h | ⟨hNone, rfl⟩
  · exact .inl (.operand hl hLiteral hx h)
  · exact .inr ⟨fun u hu => hNone u (.result hl hLiteral hx hu), rfl⟩

end ResolvedInstruction

end AnchorScript
