import AnchorScript.Proofs.Rust.Scoping

/-!
# Types of printed bodies

The type of a variable is that of the last binding, to Rust, of its name. Where each variable of the
source that a value reads was bound last under that very spelling, a body has types exactly if each
statement has them for itself, with one type for each name.
-/

namespace AnchorScript.Rust

namespace Expr

def vars : Expr → List Text
  | int _ | bool _ | string _ | bytes _ => []
  | var n => [n]
  | member e _ | call e _ | slice e | neg e | paren e => e.vars
  | binary _ l r => l.vars ++ r.vars

/-- An expression of values, whose variables are these. -/
inductive OfValues (own : List Text) : Expr → Prop
  | int {literal : Text} : OfValues own (.int literal)
  | bool {b : Bool} : OfValues own (.bool b)
  | string {s : Text} : OfValues own (.string s)
  | var {x : Text} (hx : x ∈ own) : OfValues own (.var x)
  | field {account field : Text} : OfValues own (.contextField account field)
  | bump {account : Text} : OfValues own (.contextBump account)
  | call {e : Expr} {method : Text} (hValue : OfValues own e) : OfValues own (e.call method)
  | key {account : Text} :
      OfValues own ((Expr.contextAccount account).call (Text.ofString "key"))
  | paren {e : Expr} (hInner : OfValues own e) : OfValues own (.paren e)
  | neg {e : Expr} (hOperand : OfValues own e) : OfValues own (.neg e)
  | binary {op : ArithOp} {l r : Expr} (hLeft : OfValues own l) (hRight : OfValues own r) :
      OfValues own (.binary op l r)

theorem OfValues.of_call {own : List Text} {e : Expr} {method : Text}
    (h : OfValues own (e.call method)) (hMethod : method ≠ "key") : OfValues own e := by
  cases h with
  | call hValue => exact hValue
  | key => exact absurd rfl hMethod

theorem OfValues.owned {own : List Text} {e : Expr} (h : OfValues own e) (k : ValueKind) :
    OfValues own (e.owned k) := by
  cases k with
  | string => exact .call h
  | _ => exact h

end Expr

/-- The expressions whose types are those of values. -/
def Stmt.values : Stmt → List Expr
  | .assign _ value | .bind _ _ _ value => [value]
  | .invoke _ _ amount => [amount]
  | _ => []

/-- The name that is bound last, to Rust, under the name. -/
def binder? (names : List Text) (n : Text) : Option Text := names.find? fun g => bare g == bare n

/-- Each of these names that a value reads was bound last under the same spelling. -/
def Expr.Uncaptured (own names : List Text) (e : Expr) : Prop :=
  ∀ n ∈ e.vars, n ∈ own → binder? names n = some n

/-- The values read no captured name, each after the statements before it. -/
def Uncaptured (own : List Text) : List Text → List Stmt → Prop
  | _, [] => True
  | names, s :: rest =>
    (∀ e ∈ s.values, e.Uncaptured own names) ∧ Uncaptured own (s.bound?.toList ++ names) rest

instance (own names : List Text) (e : Expr) : Decidable (e.Uncaptured own names) :=
  inferInstanceAs (Decidable (∀ n ∈ e.vars, n ∈ own → binder? names n = some n))

instance decidableUncaptured (own : List Text) :
    (names : List Text) → (body : List Stmt) → Decidable (Uncaptured own names body)
  | _, [] => isTrue trivial
  | names, s :: rest =>
    have := decidableUncaptured own (s.bound?.toList ++ names) rest
    inferInstanceAs (Decidable ((∀ e ∈ s.values, e.Uncaptured own names) ∧
      Uncaptured own (s.bound?.toList ++ names) rest))

/-- The variables have these types, the last that was bound first; what is no value has none. -/
def scopeEnv (types : List (Text × Option Text)) (field : Text → Text → Text → Prop) : TypeEnv :=
  ⟨fun x => (types.lookup (bare x)).join, field⟩

/-- A write has the type of its place, a variable the type of its value, declared or not, and an
amount is a `u64`. The variables of the source have the types that are assigned to them. -/
inductive BodyTyped (field : Text → Text → Text → Prop) (own : List Text) (τ : Text → Text) :
    List (Text × Option Text) → List Stmt → Prop
  | nil {types : List (Text × Option Text)} : BodyTyped field own τ types []
  | assign {types : List (Text × Option Text)} {place value : Expr} {type : Text}
      {rest : List Stmt} (hPlace : place.HasType (scopeEnv types field) type)
      (hValue : value.HasType (scopeEnv types field) type)
      (hRest : BodyTyped field own τ types rest) :
      BodyTyped field own τ types (.assign place value :: rest)
  | bind {types : List (Text × Option Text)} {name : Text} {isMutable : Bool}
      {declared : Option Text} {value : Expr} {type : Text} {rest : List Stmt}
      (hValue : value.HasType (scopeEnv types field) type)
      (hDeclared : ∀ t, declared = some t → type = t) (hOwn : name ∈ own → τ name = type)
      (hRest : BodyTyped field own τ ((bare name, some type) :: types) rest) :
      BodyTyped field own τ types (.bind name isMutable declared value :: rest)
  | handle {types : List (Text × Option Text)} {s : Stmt} {name : Text} {rest : List Stmt}
      (hHandle : s.let? = none) (hName : s.bound? = some name)
      (hRest : BodyTyped field own τ ((bare name, none) :: types) rest) :
      BodyTyped field own τ types (s :: rest)
  | invoke {types : List (Text × Option Text)} {function context : Text} {amount : Expr}
      {rest : List Stmt}
      (hAmount : amount.HasType (scopeEnv types field) (Text.ofString "u64"))
      (hRest : BodyTyped field own τ types rest) :
      BodyTyped field own τ types (.invoke function context amount :: rest)

/-- The statement has types for itself. -/
def Stmt.Typed (Γ : TypeEnv) (own : List Text) : Stmt → Prop
  | .assign place value => ∃ type, place.HasType Γ type ∧ value.HasType Γ type
  | .bind name _ declared value => ∃ type, value.HasType Γ type ∧
      (∀ t, declared = some t → type = t) ∧ (name ∈ own → Γ.var name = some type)
  | .invoke _ _ amount => amount.HasType Γ (Text.ofString "u64")
  | _ => True

/-- The forms of statements that handlers are printed with, where these are the names of the
source. -/
inductive Stmt.Shape (own : List Text) : Stmt → Prop
  | assign {account field : Text} {value : Expr} (hValue : value.OfValues own) :
      Shape own (.assign (.contextField account field) value)
  | bind {name : Text} {isMutable : Bool} {declared : Option Text} {value : Expr}
      (hName : name ∈ own) (hValue : value.OfValues own) :
      Shape own (.bind name isMutable declared value)
  | buffer {name : Text} {isMutable : Bool} {declared : Option Text} {source : Expr}
      (hName : name ∉ own) (hSource : source.OfValues own) :
      Shape own (.bind name isMutable declared (source.call (Text.ofString "to_le_bytes")))
  | handle {s : Stmt} {name : Text} (hHandle : s.let? = none) (hBound : s.bound? = some name)
      (hName : name ∉ own) : Shape own s
  | invoke {function context : Text} {amount : Expr} (hAmount : amount.OfValues own) :
      Shape own (.invoke function context amount)

theorem Stmt.values_subset (s : Stmt) : s.values ⊆ s.exprs := by
  cases s with
  | assign | invoke => exact List.subset_cons_self _ _
  | bind => exact List.Subset.refl _
  | record | seeds | context => exact List.nil_subset _

theorem Stmt.Shape.ofValues {own : List Text} {s : Stmt} (h : s.Shape own) :
    ∀ e ∈ s.values, e.OfValues own := by
  cases h with
  | assign hValue | bind _ hValue | invoke hValue => exact List.forall_mem_singleton.mpr hValue
  | buffer _ hSource => exact List.forall_mem_singleton.mpr (.call hSource)
  | handle hHandle hBound =>
    cases s with
    | assign | invoke => cases hBound
    | bind => cases hHandle
    | record | seeds | context => exact nofun

namespace Expr.HasType

variable {Γ Γ' : TypeEnv} {own : List Text} {e : Expr} {type : Text}

theorem of_bytes (h : HasType Γ (e.call (Text.ofString "to_le_bytes")) type) :
    ∃ t, type = bytesType t ∧ HasType Γ e t.name := by
  generalize hMethod : Text.ofString "to_le_bytes" = method at h
  cases h with
  | key | clone => exact absurd hMethod (by decide)
  | @bytes _ t hInteger => exact ⟨t, rfl, hInteger⟩

theorem bytesType_ne_rust (t : IntType) (k : ValueKind) : bytesType t ≠ k.rust := by
  have hHead : k.rust.head? ≠ some 91 := by
    cases k with
    | int u =>
      obtain ⟨width, signed⟩ := u
      cases width <;> cases signed <;> decide +kernel
    | bool | string | pubkey => exact nofun
  exact fun hSame => hHead (congrArg List.head? hSame.symm)

/-- A value is computed from variables that hold values. -/
theorem exists_kind_of_mem_vars (h : HasType Γ e type) {k : ValueKind} (hKind : type = k.rust)
    {n : Text} (hn : n ∈ e.vars) (hContext : n ≠ "ctx") : ∃ k : ValueKind, Γ.var n = some k.rust := by
  induction h generalizing k with
  | int | bool | string => cases hn
  | var hVar =>
    cases List.mem_singleton.mp hn
    exact ⟨k, hKind ▸ hVar⟩
  | field | bump | key => exact absurd (List.mem_singleton.mp hn) hContext
  | clone _ ih => exact ih (k := .string 0) rfl hn
  | bytes => exact absurd hKind (bytesType_ne_rust _ k)
  | paren _ ih => exact ih hKind hn
  | @neg _ t _ _ ih => exact ih (k := .int t) rfl hn
  | @binary _ _ _ t _ _ ihLeft ihRight =>
    rcases List.mem_append.mp hn with hn | hn
    · exact ihLeft (k := .int t) rfl hn
    · exact ihRight (k := .int t) rfl hn

/-- Only the types of the variables that are read matter. -/
theorem congr (h : HasType Γ e type) (hValues : e.OfValues own) (hField : Γ.field = Γ'.field)
    (hVars : ∀ n ∈ e.vars, n ∈ own → Γ.var n = Γ'.var n) : HasType Γ' e type := by
  induction h with
  | int hValue hFits => exact .int hValue hFits
  | bool => exact .bool
  | string => exact .string
  | @var x type hVar =>
    cases hValues with
    | var hx => exact .var ((hVars x List.mem_cons_self hx) ▸ hVar)
  | field hHere => exact .field (hField ▸ hHere)
  | bump => exact .bump
  | key => exact .key
  | clone _ ih => exact .clone (ih (hValues.of_call (by decide)) hVars)
  | bytes _ ih => exact .bytes (ih (hValues.of_call (by decide)) hVars)
  | paren _ ih =>
    cases hValues with
    | paren hInner => exact .paren (ih hInner hVars)
  | neg hSigned _ ih =>
    cases hValues with
    | neg hOperand => exact .neg hSigned (ih hOperand hVars)
  | binary _ _ ihLeft ihRight =>
    cases hValues with
    | binary hLeft hRight =>
      exact .binary (ihLeft hLeft fun n hn => hVars n (List.mem_append_left _ hn))
        (ihRight hRight fun n hn => hVars n (List.mem_append_right _ hn))

end Expr.HasType

/-- A variable that is bound, and what it is bound with: a name of the source has the type that is
assigned to it, and no other variable holds a value of the source's types. -/
structure Tracked (own : List Text) (τ : Text → Text) (g : Text) (e : Text × Option Text) :
    Prop where
  key : e.1 = bare g
  assigned : g ∈ own → e.2 = some (τ g)
  other : g ∉ own → ∀ k : ValueKind, e.2 ≠ some k.rust

/-- What holds of the names of the source and of their types, and of those of fields. -/
structure Assigns (field : Text → Text → Text → Prop) (own : List Text) (τ : Text → Text) :
    Prop where
  apart : ∀ g ∈ own, ∀ g' ∈ own, bare g = bare g' → g = g'
  context : Text.ofString "ctx" ∉ own
  values : ∀ g ∈ own, ∃ k : ValueKind, τ g = k.rust
  fields : ∀ account f type, field account f type → ∃ k : ValueKind, type = k.rust

section Tracked

variable {field : Text → Text → Text → Prop} {own names : List Text} {τ : Text → Text}
  {types : List (Text × Option Text)} {n : Text}

/-- The last binding of a name, and its type. -/
theorem lookup_of_tracked (h : List.Forall₂ (Tracked own τ) names types) (n : Text) :
    (binder? names n = none ∧ types.lookup (bare n) = none) ∨
      ∃ g e, binder? names n = some g ∧ bare g = bare n ∧ types.lookup (bare n) = some e.2 ∧
        Tracked own τ g e := by
  induction h with
  | nil => exact .inl ⟨rfl, rfl⟩
  | @cons g e names types hHere _ ih =>
    obtain ⟨key, type⟩ := e
    obtain rfl : key = bare g := hHere.key
    by_cases hSame : bare g = bare n
    · refine .inr ⟨g, (bare g, type), ?_, hSame, ?_, hHere⟩
      · exact List.find?_cons_of_pos (by simpa using hSame)
      · rw [← hSame, List.lookup_cons_self]
    · have hOther : (bare n == bare g) = false := by simpa using Ne.symm hSame
      rw [binder?, List.find?_cons_of_neg (by simpa using hSame), List.lookup_cons, hOther]
      exact ih

theorem var_of_binder? (h : List.Forall₂ (Tracked own τ) names types) (hn : n ∈ own)
    (hFound : binder? names n = some n) : (scopeEnv types field).var n = some (τ n) := by
  change (types.lookup (bare n)).join = some (τ n)
  rcases lookup_of_tracked h n with ⟨hNone, _⟩ | ⟨g, e, hFind, _, hLookup, hTracked⟩
  · cases hNone.symm.trans hFound
  · obtain rfl := Option.some.inj (hFind.symm.trans hFound)
    rw [hLookup, hTracked.assigned hn]
    rfl

/-- A name of the source that holds a value was bound last under that spelling. -/
theorem binder?_of_var (hAssigns : Assigns field own τ)
    (h : List.Forall₂ (Tracked own τ) names types) (hn : n ∈ own) {k : ValueKind}
    (hVar : (scopeEnv types field).var n = some k.rust) : binder? names n = some n := by
  change (types.lookup (bare n)).join = some k.rust at hVar
  rcases lookup_of_tracked h n with ⟨_, hNone⟩ | ⟨g, e, hFind, hSame, hLookup, hTracked⟩
  · rw [hNone] at hVar
    cases hVar
  · rw [hLookup] at hVar
    have hOwn : g ∈ own := by
      by_contra hOther
      exact hTracked.other hOther k hVar
    rw [hFind, hAssigns.apart g hOwn n hn hSame]

/-- A value that captures nothing has a type in scope if it has it at all. -/
theorem hasType_scopeEnv_iff (h : List.Forall₂ (Tracked own τ) names types) {e : Expr}
    (hValues : e.OfValues own) (hUncaptured : e.Uncaptured own names) {type : Text} :
    e.HasType (scopeEnv types field) type ↔ e.HasType (flatEnv τ field) type :=
  ⟨fun hType => hType.congr hValues rfl fun n hn hOwn =>
      var_of_binder? h hOwn (hUncaptured n hn hOwn),
    fun hType => hType.congr hValues rfl fun n hn hOwn =>
      (var_of_binder? h hOwn (hUncaptured n hn hOwn)).symm⟩

/-- A value that has a type captures nothing. -/
theorem hasType_iff_uncaptured (hAssigns : Assigns field own τ)
    (h : List.Forall₂ (Tracked own τ) names types) {e : Expr} (hValues : e.OfValues own)
    {k : ValueKind} :
    e.HasType (scopeEnv types field) k.rust ↔
      e.Uncaptured own names ∧ e.HasType (flatEnv τ field) k.rust := by
  constructor
  · intro hType
    have hUncaptured : e.Uncaptured own names := by
      intro n hn hOwn
      obtain ⟨k', hVar⟩ := hType.exists_kind_of_mem_vars rfl hn fun hSame =>
        hAssigns.context (hSame ▸ hOwn)
      exact binder?_of_var hAssigns h hOwn hVar
    exact ⟨hUncaptured, (hasType_scopeEnv_iff h hValues hUncaptured).mp hType⟩
  · rintro ⟨hUncaptured, hType⟩
    exact (hasType_scopeEnv_iff h hValues hUncaptured).mpr hType

section Step

variable {P : Prop} {rest : List Stmt} (hAssigns : Assigns field own τ)
  (h : List.Forall₂ (Tracked own τ) names types)

include hAssigns h

theorem bodyTyped_assign_iff {account id : Text} {value : Expr} (hValue : value.OfValues own)
    (hRest : BodyTyped field own τ types rest ↔ P) :
    BodyTyped field own τ types (.assign (.contextField account id) value :: rest) ↔
      (value.Uncaptured own names ∧
        (Stmt.assign (.contextField account id) value).Typed (flatEnv τ field) own) ∧ P := by
  constructor
  · intro hTyped
    cases hTyped with
    | assign hPlace hType hLater =>
      obtain ⟨k, rfl⟩ := hAssigns.fields _ _ _ hPlace.of_contextField
      obtain ⟨hUncaptured, hFlat⟩ := (hasType_iff_uncaptured hAssigns h hValue).mp hType
      exact ⟨⟨hUncaptured, k.rust, .field hPlace.of_contextField, hFlat⟩, hRest.mp hLater⟩
    | handle _ hName => cases hName
  · rintro ⟨⟨hUncaptured, type, hPlace, hType⟩, hLater⟩
    exact .assign (.field hPlace.of_contextField)
      ((hasType_scopeEnv_iff h hValue hUncaptured).mpr hType) (hRest.mpr hLater)

theorem bodyTyped_bind_iff {name : Text} {isMutable : Bool} {declared : Option Text} {value : Expr}
    (hName : name ∈ own) (hValue : value.OfValues own)
    (hRest : BodyTyped field own τ ((bare name, some (τ name)) :: types) rest ↔ P) :
    BodyTyped field own τ types (.bind name isMutable declared value :: rest) ↔
      (value.Uncaptured own names ∧
        (Stmt.bind name isMutable declared value).Typed (flatEnv τ field) own) ∧ P := by
  constructor
  · intro hTyped
    cases hTyped with
    | @bind _ _ _ _ _ type _ hType hDeclared hOwn hLater =>
      obtain rfl := hOwn hName
      obtain ⟨k, hKind⟩ := hAssigns.values name hName
      rw [hKind] at hType
      obtain ⟨hUncaptured, hFlat⟩ := (hasType_iff_uncaptured hAssigns h hValue).mp hType
      rw [← hKind] at hFlat
      exact ⟨⟨hUncaptured, τ name, hFlat, hDeclared, fun _ => rfl⟩, hRest.mp hLater⟩
    | handle hHandle => cases hHandle
  · rintro ⟨⟨hUncaptured, type, hType, hDeclared, hOwn⟩, hLater⟩
    obtain rfl : τ name = type := Option.some.inj (hOwn hName)
    exact .bind ((hasType_scopeEnv_iff h hValue hUncaptured).mpr hType) hDeclared (fun _ => rfl)
      (hRest.mpr hLater)

theorem bodyTyped_buffer_iff {name : Text} {isMutable : Bool} {declared : Option Text}
    {source : Expr} (hName : name ∉ own) (hSource : source.OfValues own)
    (hRest : ∀ t, BodyTyped field own τ ((bare name, some (bytesType t)) :: types) rest ↔ P) :
    BodyTyped field own τ types
        (.bind name isMutable declared (source.call (Text.ofString "to_le_bytes")) :: rest) ↔
      (source.Uncaptured own names ∧ (Stmt.bind name isMutable declared
        (source.call (Text.ofString "to_le_bytes"))).Typed (flatEnv τ field) own) ∧ P := by
  constructor
  · intro hTyped
    cases hTyped with
    | bind hType hDeclared _ hLater =>
      obtain ⟨t, rfl, hInteger⟩ := hType.of_bytes
      obtain ⟨hUncaptured, hFlat⟩ :=
        (hasType_iff_uncaptured (k := .int t) hAssigns h hSource).mp hInteger
      exact ⟨⟨hUncaptured, bytesType t, .bytes hFlat, hDeclared, fun hOwn => absurd hOwn hName⟩,
        (hRest t).mp hLater⟩
    | handle hHandle => cases hHandle
  · rintro ⟨⟨hUncaptured, type, hType, hDeclared, _⟩, hLater⟩
    obtain ⟨t, rfl, hInteger⟩ := hType.of_bytes
    exact .bind (.bytes ((hasType_scopeEnv_iff h hSource hUncaptured).mpr hInteger)) hDeclared
      (fun hOwn => absurd hOwn hName) ((hRest t).mpr hLater)

omit hAssigns h in
theorem bodyTyped_handle_iff {s : Stmt} {name : Text} (hHandle : s.let? = none)
    (hBound : s.bound? = some name)
    (hRest : BodyTyped field own τ ((bare name, none) :: types) rest ↔ P) :
    BodyTyped field own τ types (s :: rest) ↔ P := by
  constructor
  · intro hTyped
    cases hTyped with
    | assign | invoke => cases hBound
    | bind => cases hHandle
    | handle _ hSame hLater =>
      obtain rfl := Option.some.inj (hSame.symm.trans hBound)
      exact hRest.mp hLater
  · exact fun hLater => .handle hHandle hBound (hRest.mpr hLater)

theorem bodyTyped_invoke_iff {function context : Text} {amount : Expr}
    (hAmount : amount.OfValues own) (hRest : BodyTyped field own τ types rest ↔ P) :
    BodyTyped field own τ types (.invoke function context amount :: rest) ↔
      (amount.Uncaptured own names ∧
        (Stmt.invoke function context amount).Typed (flatEnv τ field) own) ∧ P := by
  have hKind : Text.ofString "u64" = (ValueKind.int ⟨.w64, false⟩).rust := by decide +kernel
  have hIff := hasType_iff_uncaptured (k := .int ⟨.w64, false⟩) hAssigns h hAmount
  rw [← hKind] at hIff
  constructor
  · intro hTyped
    cases hTyped with
    | handle _ hName => cases hName
    | invoke hType hLater => exact ⟨hIff.mp hType, hRest.mp hLater⟩
  · rintro ⟨hType, hLater⟩
    exact .invoke (hIff.mpr hType) (hRest.mpr hLater)

end Step

/-- A body has types exactly if it captures no name of the source and each of its statements has
types, by induction on the statements. -/
theorem bodyTyped_iff (hAssigns : Assigns field own τ) {body : List Stmt}
    (hShape : ∀ s ∈ body, s.Shape own) (h : List.Forall₂ (Tracked own τ) names types) :
    BodyTyped field own τ types body ↔
      Uncaptured own names body ∧ ∀ s ∈ body, s.Typed (flatEnv τ field) own := by
  induction body generalizing names types with
  | nil => exact ⟨fun _ => ⟨trivial, nofun⟩, fun _ => .nil⟩
  | cons s rest ih =>
    obtain ⟨hHere, hRest⟩ := List.forall_mem_cons.mp hShape
    rw [List.forall_mem_cons, Uncaptured, and_and_and_comm]
    cases hHere with
    | assign hValue =>
      rw [Stmt.values, List.forall_mem_singleton]
      exact bodyTyped_assign_iff hAssigns h hValue (ih hRest h)
    | @bind name _ _ _ hName hValue =>
      have hNext : List.Forall₂ (Tracked own τ) (name :: names)
          ((bare name, some (τ name)) :: types) :=
        .cons ⟨rfl, fun _ => rfl, fun hNot => absurd hName hNot⟩ h
      rw [Stmt.values, List.forall_mem_singleton]
      exact bodyTyped_bind_iff hAssigns h hName hValue (ih hRest hNext)
    | @buffer name _ _ _ hName hSource =>
      have hNext (t : IntType) : List.Forall₂ (Tracked own τ) (name :: names)
          ((bare name, some (bytesType t)) :: types) :=
        .cons ⟨rfl, fun hOwn => absurd hOwn hName,
          fun _ k hSame => Expr.HasType.bytesType_ne_rust t k (Option.some.inj hSame)⟩ h
      rw [Stmt.values, List.forall_mem_singleton]
      exact bodyTyped_buffer_iff hAssigns h hName hSource fun t => ih hRest (hNext t)
    | @handle _ name hHandle hBound hName =>
      have hNext : List.Forall₂ (Tracked own τ) (name :: names) ((bare name, none) :: types) :=
        .cons ⟨rfl, fun hOwn => absurd hOwn hName, fun _ _ => nofun⟩ h
      have hNone : (∀ e ∈ s.values, e.Uncaptured own names) ∧ s.Typed (flatEnv τ field) own := by
        cases s with
        | assign | invoke => cases hBound
        | bind => cases hHandle
        | record | seeds | context => exact ⟨nofun, trivial⟩
      rw [bodyTyped_handle_iff hHandle hBound (ih hRest hNext), hBound]
      exact (and_iff_right hNone).symm
    | invoke hAmount =>
      rw [Stmt.values, List.forall_mem_singleton]
      exact bodyTyped_invoke_iff hAssigns h hAmount (ih hRest h)

end Tracked

end AnchorScript.Rust
