import AnchorScript.Proofs.Handler.BodyScope
import AnchorScript.Proofs.Resolution.Typing
import AnchorScript.Proofs.Rust.Scoping

/-!
# Types of a handler's values

A value of the source and the expression it becomes have the same type. The type of a value that is
made of bare literals is the one it is computed in, and its variables have it too.
-/

namespace AnchorScript

open Outcome

/-- The fields of each state struct have different identifiers. -/
def Program.FieldsApart (p : Program) : Prop :=
  ∀ s ∈ p.states.map Rust.StateStruct.ofState, (s.fields.map (·.name)).Nodup

section Fields

variable {p : Program} {i : Instruction} {r : ResolvedInstruction} {account field : Text}
  {t : ValueType}

theorem exists_record_of_fieldType? (hRoles : HasRolesOf i r.accounts)
    (h : p.fieldType? i account field = some t) :
    ∃ a st f, r.account? account = some a ∧ a.role = .state st.name ∧
      p.state? st.name = some st ∧ st.field? field = some f ∧ f.type = t := by
  rw [hRoles.fieldType?_eq] at h
  obtain ⟨f, h, hType⟩ := Option.map_eq_some_iff.mp h
  obtain ⟨a, ha, h⟩ := Option.bind_eq_some_iff.mp h
  obtain ⟨st, hState, hField⟩ := Option.bind_eq_some_iff.mp h
  unfold Surroundings.stateOf? at hState
  split at hState
  · rename_i n hRole
    have hName : st.name = n := by simpa using List.find?_some hState
    exact ⟨a, st, f, ha, by rw [hRole, hName], by rw [hName]; exact hState, hField, hType⟩
  · cases hState

theorem mem_ofState_of_field? {st : StateType} {f : StateField} (h : st.field? field = some f) :
    ⟨Rust.ident field, f.type.kind.rust⟩ ∈ (Rust.StateStruct.ofState st).fields := by
  have hName : f.name = field := by simpa using List.find?_some h
  refine List.mem_map.mpr ⟨f, List.mem_of_find?_eq_some h, ?_⟩
  rw [hName]

theorem hasFieldType_of_fieldType? (hRoles : HasRolesOf i r.accounts)
    (h : p.fieldType? i account field = some t) :
    (Rust.ContextStruct.ofInstruction r).HasFieldType (p.states.map .ofState) (Rust.ident account)
      (Rust.ident field) t.kind.rust := by
  obtain ⟨a, st, f, ha, hRole, hState, hField, rfl⟩ := exists_record_of_fieldType? hRoles h
  refine ⟨.ofAccount a, List.mem_append_left _ (List.mem_map_of_mem (mem_of_recordOf?_eq_some ha)),
    .ofState st, List.mem_map_of_mem (List.mem_of_find?_eq_some hState), ?_, ?_,
    mem_ofState_of_field? hField⟩
  · exact congrArg Rust.ident (name_of_recordOf?_eq_some ha)
  · exact congrArg Role.rust hRole

/-- Where identifiers are distinct, a field has no other type than the one it is declared with. -/
theorem fieldType_unique (hRoles : HasRolesOf i r.accounts)
    (hAccounts : (r.accounts.map fun a => Rust.ident a.name).Nodup)
    (hStates : (p.states.map (·.name)).Nodup)
    (hFields : p.FieldsApart)
    (h : p.fieldType? i account field = some t) {type : Text}
    (hType : (Rust.ContextStruct.ofInstruction r).HasFieldType (p.states.map .ofState)
      (Rust.ident account) (Rust.ident field) type) : type = t.kind.rust := by
  obtain ⟨a, st, f, ha, hRole, hState, hField, rfl⟩ := exists_record_of_fieldType? hRoles h
  obtain ⟨g, hg, struct, hStruct, hName, hHolds, hMem⟩ := hType
  obtain ⟨st', hst', rfl⟩ := List.mem_map.mp hStruct
  rcases List.mem_append.mp hg with hg | hg
  · obtain ⟨b, hb, rfl⟩ := List.mem_map.mp hg
    obtain rfl : b = a := by
      refine List.inj_on_of_nodup_map hAccounts hb (mem_of_recordOf?_eq_some ha) (hName.trans ?_)
      exact congrArg Rust.ident (name_of_recordOf?_eq_some ha).symm
    have hSameName : st'.name = st.name := by
      have hSame : (Role.state st'.name).rust = (Role.state st.name).rust := by
        rw [← hRole]
        exact hHolds.symm
      exact List.append_cancel_left (List.append_cancel_right hSame)
    obtain rfl : st' = st :=
      List.inj_on_of_nodup_map hStates hst' (List.mem_of_find?_eq_some hState) hSameName
    have hSame :=
      List.inj_on_of_nodup_map (hFields _ hStruct) hMem (mem_ofState_of_field? hField) rfl
    exact congrArg Rust.StructField.type hSame
  · obtain ⟨q, _, rfl⟩ := List.mem_map.mp hg
    have hProgram : q.rust.head? ≠ some 65 := by
      cases q <;> decide
    exact absurd (congrArg List.head? hHolds) hProgram

end Fields

namespace Handler

/-- The expression that a value becomes, wherever it stands in the body, but for the texts of
strings. -/
inductive Expresses (fr : Frame) : Value → Rust.Expr → Prop
  | int {pos : SourcePos} {lit : Text} : Expresses fr (.int pos lit) (.int (IntLiteral.rust lit))
  | bool {pos : SourcePos} {b : Bool} : Expresses fr (.bool pos b) (.bool b)
  | string {pos : SourcePos} {s shown : Text} : Expresses fr (.string pos s) (.string shown)
  | arg {pos : SourcePos} {name : Text} {asBytes : Bool} {k : ValueKind}
      (hKind : ∀ t, fr.instruction.source.argType? name = some t → k = t.kind) :
      Expresses fr (.arg pos name asBytes) ((Rust.Expr.var (Rust.ident name)).owned k)
  | var {pos : SourcePos} {name : Text} {asBytes : Bool} {k : ValueKind}
      (hKind : ∀ t, fr.instruction.locals.lookup name = some t → k = t.kind) :
      Expresses fr (.var pos name asBytes) ((Rust.Expr.var (Rust.ident name)).owned k)
  | key {pos : SourcePos} {account : Text} {asBytes : Bool} :
      Expresses fr (.key pos account asBytes)
        ((Rust.Expr.contextAccount (Rust.ident account)).call (Text.ofString "key"))
  | field {pos : SourcePos} {account field : Text} {asBytes : Bool} {k : ValueKind}
      (hKind : ∀ t, fr.program.fieldType? fr.instruction.source account field = some t →
        k = t.kind) :
      Expresses fr (.field pos account field asBytes)
        ((Rust.Expr.contextField (Rust.ident account) (Rust.ident field)).owned k)
  | bump {pos : SourcePos} {account : Text} :
      Expresses fr (.bump pos account) (.contextBump (Rust.ident account))
  | paren {pos : SourcePos} {v : Value} {e : Rust.Expr} (hInner : Expresses fr v e) :
      Expresses fr (.paren pos v) (.paren e)
  | neg {pos : SourcePos} {v : Value} {e : Rust.Expr} (hOperand : Expresses fr v e) :
      Expresses fr (.neg pos v) (.neg e)
  | binary {pos : SourcePos} {op : ArithOp} {v w : Value} {l r : Rust.Expr}
      (hLeft : Expresses fr v l) (hRight : Expresses fr w r) :
      Expresses fr (.binary pos op v w) (.binary op l r)

theorem expresses_of_exprOf {fr : Frame} {bound : List Text} {v : Value} {e : Rust.Expr}
    (hRoles : HasRolesOf fr.instruction.source fr.instruction.accounts)
    (h : exprOf fr bound v = .ok e) : Expresses fr v e := by
  induction v generalizing e with
  | int =>
    cases h
    exact .int
  | bool =>
    cases h
    exact .bool
  | string =>
    cases h
    exact .string
  | account => cases h
  | arg pos name asBytes =>
    simp only [exprOf] at h
    split at h
    · rename_i t hArg
      cases h
      exact .arg fun t' ht' => congrArg ValueType.kind (Option.some.inj (hArg.symm.trans ht'))
    · rename_i hNone
      cases h
      exact .arg (k := .bool) fun t' ht' => by cases hNone.symm.trans ht'
  | var pos name asBytes =>
    simp only [exprOf, allowed_or_eq_ok_iff] at h
    obtain ⟨_, h⟩ := h
    split at h
    · rename_i t hVar
      cases h
      exact .var fun t' ht' => congrArg ValueType.kind (Option.some.inj (hVar.symm.trans ht'))
    · rename_i hNone
      cases h
      exact .var (k := .bool) fun t' ht' => by cases hNone.symm.trans ht'
  | key pos account asBytes =>
    simp only [exprOf] at h
    split at h
    · cases h
      exact .key
    · cases h
  | field pos account field asBytes =>
    simp only [exprOf, fieldExpr] at h
    split at h
    · cases h
    · rename_i st hState
      split at h
      · cases h
      · rename_i f hField
        cases h
        refine .field fun t ht => ?_
        obtain ⟨a, st', f', ha, hRole, hState', hField', rfl⟩ :=
          exists_record_of_fieldType? hRoles ht
        simp only [ha, Surroundings.stateOf?, hRole, hState', Option.some.injEq] at hState
        subst hState
        rw [Option.some.inj (hField.symm.trans hField')]
  | bump pos account =>
    simp only [exprOf, allowed_or_eq_ok_iff] at h
    obtain ⟨_, h⟩ := h
    cases h
    exact .bump
  | paren pos v ih =>
    simp only [exprOf, bind_eq_ok_iff, pure_eq_ok_iff] at h
    obtain ⟨e, hInner, rfl⟩ := h
    exact .paren (ih hInner)
  | neg pos v ih =>
    simp only [exprOf, bind_eq_ok_iff, pure_eq_ok_iff] at h
    obtain ⟨e, hOperand, rfl⟩ := h
    exact .neg (ih hOperand)
  | binary pos op v w ihLeft ihRight =>
    simp only [exprOf, bind_eq_ok_iff, pure_eq_ok_iff] at h
    obtain ⟨l, hLeft, r, hRight, rfl⟩ := h
    exact .binary (ihLeft hLeft) (ihRight hRight)

/-- The types of the handler of an instruction, where its variables have these. -/
def Frame.typeEnv (fr : Frame) (τ : Text → Text) : Rust.TypeEnv :=
  Rust.flatEnv τ ((Rust.ContextStruct.ofInstruction fr.instruction).HasFieldType
    (fr.program.states.map .ofState))

section OfTyped

variable {fr : Frame} {τ : Text → Text} {v : Value} {e : Rust.Expr} {type : Text}

/-- A value has the type of every variable it reads. -/
theorem Expresses.type_eq_of_mem_vars (h : Expresses fr v e) {x : Text} (hx : x ∈ v.vars)
    (hType : e.HasType (fr.typeEnv τ) type) : type = τ (Rust.ident x) := by
  induction h generalizing type with
  | var =>
    cases List.mem_singleton.mp hx
    cases hType.of_owned with
    | var hVar => exact (Option.some.inj hVar).symm
  | paren _ ih =>
    cases hType with
    | paren hInner => exact ih hx hInner
  | neg _ ih =>
    cases hType with
    | neg _ hOperand => exact ih hx hOperand
  | binary _ _ ihLeft ihRight =>
    cases hType with
    | binary hLeft hRight =>
      rcases List.mem_append.mp hx with hx | hx
      · exact ihLeft hx hLeft
      · exact ihRight hx hRight
  | _ => cases hx

theorem Expresses.computesIn_of_hasType (h : Expresses fr v e) {t : IntType}
    (hLiterals : ∀ pos lit, Value.int pos lit ∈ v.leaves → IntLiteral.isValid lit = true)
    (hType : e.HasType (fr.typeEnv τ) t.name) : v.computesIn t = true := by
  induction h with
  | @int pos lit =>
    generalize hName : t.name = type at hType
    cases hType with
    | int hValue hFits =>
      obtain rfl := IntType.name_injective hName
      rw [IntLiteral.value?_rust (hLiterals pos lit List.mem_cons_self)] at hValue
      rw [Value.computesIn, hValue]
      exact hFits
  | paren _ ih =>
    cases hType with
    | paren hInner => exact ih hLiterals hInner
  | neg _ ih =>
    generalize hName : t.name = type at hType
    cases hType with
    | neg hSigned hOperand =>
      obtain rfl := IntType.name_injective hName
      simp only [Value.computesIn, hSigned, ih hLiterals hOperand, Bool.and_self]
  | binary _ _ ihLeft ihRight =>
    generalize hName : t.name = type at hType
    cases hType with
    | binary hLeft hRight =>
      obtain rfl := IntType.name_injective hName
      have hLeftIn := ihLeft (fun pos lit hLit => hLiterals pos lit (List.mem_append_left _ hLit))
        hLeft
      have hRightIn := ihRight
        (fun pos lit hLit => hLiterals pos lit (List.mem_append_right _ hLit)) hRight
      simp only [Value.computesIn, hLeftIn, hRightIn, Bool.and_self]
  | _ => rfl

/-- An expression has the type of its value, if the value has one of its own and what it reads has
the type the source gives it. -/
theorem Expresses.type_eq_of_types (h : Expresses fr v e)
    {locals : List (Text × ValueType)} {t : ValueType}
    (hTypes : v.Types fr.program fr.instruction.source locals t) (hTyped : t ≠ .intLiteral)
    (hArgs : ∀ x t, fr.instruction.source.argType? x = some t → τ (Rust.ident x) = t.kind.rust)
    (hVars : ∀ x t, locals.lookup x = some t → t ≠ .intLiteral → τ (Rust.ident x) = t.kind.rust)
    (hFields : ∀ account field t type,
      fr.program.fieldType? fr.instruction.source account field = some t →
      (fr.typeEnv τ).field (Rust.ident account) (Rust.ident field) type → type = t.kind.rust)
    (hType : e.HasType (fr.typeEnv τ) type) : type = t.kind.rust := by
  induction hTypes generalizing e type with
  | int => exact absurd rfl hTyped
  | bool =>
    cases h
    cases hType
    rfl
  | string =>
    cases h
    cases hType
    rfl
  | arg hArg =>
    cases h
    cases hType.of_owned with
    | var hHere => exact (Option.some.inj hHere).symm.trans (hArgs _ _ hArg)
  | var hVar =>
    cases h
    cases hType.of_owned with
    | var hHere => exact (Option.some.inj hHere).symm.trans (hVars _ _ hVar hTyped)
  | key =>
    cases h
    exact hType.of_key
  | field hField =>
    cases h
    exact hFields _ _ _ _ hField hType.of_owned.of_contextField
  | bump =>
    cases h
    exact hType.of_contextBump.trans (by decide +kernel)
  | paren _ ih =>
    cases h with
    | paren hExpr =>
      cases hType with
      | paren hInner => exact ih hExpr hTyped hInner
  | neg _ _ ih =>
    cases h with
    | neg hExpr =>
      cases hType with
      | neg _ hOperand => exact ih hExpr hTyped hOperand
  | binary _ _ _ _ hCommon ihLeft ihRight =>
    cases h with
    | binary hLeftExpr hRightExpr =>
      cases hType with
      | binary hLeft hRight =>
        rcases hCommon with ⟨_, rfl⟩ | ⟨rfl, _⟩
        · exact ihRight hRightExpr hTyped hRight
        · exact ihLeft hLeftExpr hTyped hLeft

end OfTyped

/-- The type that the source gives to an argument or a variable. A variable that is bound to bare
literals has a type that it takes. -/
structure NameType (p : Program) (r : ResolvedInstruction) (x type : Text) : Prop where
  arg : ∀ t, r.source.argType? x = some t → type = t.kind.rust
  var : ∀ t, r.locals.lookup x = some t → t ≠ .intLiteral → type = t.kind.rust
  literal : r.IsLiteral x → ∃ u, r.Takes p x u ∧ type = u.name

def TypesNames (p : Program) (r : ResolvedInstruction) (τ : Text → Text) : Prop :=
  ∀ x, NameType p r x (τ (Rust.ident x))

section OfTypes

variable {p : Program} {r : ResolvedInstruction} {τ : Text → Text} {v : Value} {e : Rust.Expr}
  {t : ValueType}

/-- An integer value can be computed in a type that it has itself or is open to. -/
theorem hasType_of_computesIn (hNames : TypesNames p r τ) (hTypable : p.Typable r.source)
    (hRoles : HasRolesOf r.source r.accounts) (h : Expresses ⟨p, r⟩ v e)
    (hTypes : v.Types p r.source r.locals t) (hInt : t.kind.isInt = true) {u : IntType}
    (hOwn : t ≠ .intLiteral → t.kind = .int u) (hComputed : v.computesIn u = true)
    (hLiterals : ∀ pos lit, Value.int pos lit ∈ v.leaves → IntLiteral.isValid lit = true)
    (hVars : ∀ x ∈ v.vars, r.IsLiteral x → τ (Rust.ident x) = u.name) :
    e.HasType (Frame.typeEnv ⟨p, r⟩ τ) u.name := by
  induction hTypes generalizing e with
  | @int pos lit =>
    cases h
    have hValue := IntLiteral.value?_rust (hLiterals pos lit List.mem_cons_self)
    obtain ⟨n, hn, hFits⟩ := (Option.any_eq_true _ _).mp hComputed
    exact .int (hValue.trans hn) hFits
  | bool | string | key => cases hInt
  | @arg pos name asBytes t hArg =>
    cases h with
    | arg hKind =>
      have hType := (hNames name).arg t hArg
      rw [hOwn (hTypable.args name t hArg)] at hType
      change τ (Rust.ident name) = u.name at hType
      rw [hKind t hArg, Rust.Expr.owned_of_isInt hInt]
      exact .var (congrArg some hType)
  | @var pos name asBytes t hVar =>
    cases h with
    | var hKind =>
      have hType : τ (Rust.ident name) = u.name := by
        by_cases hLiteral : t = .intLiteral
        · exact hVars name List.mem_cons_self (hVar.trans (congrArg some hLiteral))
        · rw [(hNames name).var t hVar hLiteral, hOwn hLiteral]
          rfl
      rw [hKind t hVar, Rust.Expr.owned_of_isInt hInt]
      exact .var (congrArg some hType)
  | @field pos account field asBytes t hField =>
    cases h with
    | field hKind =>
      have hType := hasFieldType_of_fieldType? hRoles hField
      rw [hOwn (hTypable.fields account field t hField)] at hType
      rw [hKind t hField, Rust.Expr.owned_of_isInt hInt]
      exact .field hType
  | bump =>
    cases h
    cases hOwn (by decide)
    exact (by decide +kernel : Text.ofString "u8" = (IntType.mk .w8 false).name) ▸ .bump
  | paren _ ih =>
    cases h with
    | paren hExpr => exact .paren (ih hExpr hInt hOwn hComputed hLiterals hVars)
  | neg _ _ ih =>
    cases h with
    | neg hExpr =>
      obtain ⟨hSigned, hOperand⟩ := Bool.and_eq_true_iff.mp hComputed
      exact .neg hSigned (ih hExpr hInt hOwn hOperand hLiterals hVars)
  | @binary pos op l r lt rt t hLeftInt hRightInt _ _ hCommon ihLeft ihRight =>
    cases h with
    | binary hLeftExpr hRightExpr =>
      obtain ⟨hLeft, hRight⟩ := Bool.and_eq_true_iff.mp hComputed
      -- an operand that is not open to every type has the type of the result
      have hLeftOwn : lt ≠ .intLiteral → lt.kind = .int u := by
        rcases hCommon with ⟨hLiteral, _⟩ | ⟨rfl, _⟩
        · exact fun hTyped => absurd hLiteral hTyped
        · exact hOwn
      have hRightOwn : rt ≠ .intLiteral → rt.kind = .int u := by
        rcases hCommon with ⟨_, rfl⟩ | ⟨rfl, hLiteral | rfl⟩
        · exact hOwn
        · exact fun hTyped => absurd hLiteral hTyped
        · exact hOwn
      refine .binary (ihLeft hLeftExpr hLeftInt hLeftOwn hLeft ?_ ?_)
        (ihRight hRightExpr hRightInt hRightOwn hRight ?_ ?_)
      · exact fun pos lit hLit => hLiterals pos lit (List.mem_append_left _ hLit)
      · exact fun x hx => hVars x (List.mem_append_left _ hx)
      · exact fun pos lit hLit => hLiterals pos lit (List.mem_append_right _ hLit)
      · exact fun x hx => hVars x (List.mem_append_right _ hx)

theorem hasType_of_not_isInt (hNames : TypesNames p r τ) (hRoles : HasRolesOf r.source r.accounts)
    (h : Expresses ⟨p, r⟩ v e) (hTypes : v.Types p r.source r.locals t)
    (hOther : t.kind.isInt = false) : e.HasType (Frame.typeEnv ⟨p, r⟩ τ) t.kind.rust := by
  induction hTypes generalizing e with
  | int | bump => cases hOther
  | bool =>
    cases h
    exact .bool
  | string =>
    cases h
    exact .string
  | key =>
    cases h
    exact .key
  | @arg pos name asBytes t hArg =>
    cases h with
    | arg hKind =>
      rw [hKind t hArg]
      exact .owned (.var (congrArg some ((hNames name).arg t hArg)))
  | @var pos name asBytes t hVar =>
    cases h with
    | var hKind =>
      have hTyped : t ≠ .intLiteral := by
        rintro rfl
        cases hOther
      rw [hKind t hVar]
      exact .owned (.var (congrArg some ((hNames name).var t hVar hTyped)))
  | @field pos account field asBytes t hField =>
    cases h with
    | field hKind =>
      rw [hKind t hField]
      exact .owned (.field (hasFieldType_of_fieldType? hRoles hField))
  | paren _ ih =>
    cases h with
    | paren hExpr => exact .paren (ih hExpr hOther)
  | neg hInt => cases hInt.symm.trans hOther
  | binary hLeftInt hRightInt _ _ hCommon =>
    rcases hCommon with ⟨_, rfl⟩ | ⟨rfl, _⟩
    · cases hRightInt.symm.trans hOther
    · cases hLeftInt.symm.trans hOther

/-- A value that can be stored at a type becomes an expression of that type. -/
theorem hasType_of_accepts (hNames : TypesNames p r τ) (hTypable : p.Typable r.source)
    (hRoles : HasRolesOf r.source r.accounts) (h : Expresses ⟨p, r⟩ v e)
    (hTypes : v.Types p r.source r.locals t) {target : ValueType}
    (hAccepts : target.accepts t = true)
    (hLiterals : ∀ pos lit, Value.int pos lit ∈ v.leaves → IntLiteral.isValid lit = true)
    (hComputed : ∀ u, target.kind = .int u → v.computesIn u = true ∧
      ∀ x ∈ v.vars, r.IsLiteral x → τ (Rust.ident x) = u.name) :
    e.HasType (Frame.typeEnv ⟨p, r⟩ τ) target.kind.rust := by
  unfold ValueType.accepts at hAccepts
  split at hAccepts
  · rename_i u s hTarget hSource
    obtain ⟨hIn, hVars⟩ := hComputed u hTarget
    simp only [Bool.or_eq_true, decide_eq_true_eq] at hAccepts
    rw [hTarget]
    refine hasType_of_computesIn hNames hTypable hRoles h hTypes (by rw [hSource]; rfl) ?_ hIn
      hLiterals hVars
    intro hTyped
    rw [hSource, hAccepts.resolve_left hTyped]
  · rename_i hNotInts
    obtain ⟨hOther, hSame⟩ := ValueKind.rust_of_assignableFrom hAccepts hNotInts
    rw [hSame]
    exact hasType_of_not_isInt hNames hRoles h hTypes hOther

end OfTypes

end Handler

end AnchorScript
