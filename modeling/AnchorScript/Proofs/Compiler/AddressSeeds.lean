import AnchorScript.Proofs.Program.Extraction
import AnchorScript.Proofs.Compiler.ContextFields
import AnchorScript.Proofs.Resolution.SeedList

/-!
# Seeds of addresses

Each element of a seed array in the source is written twice: in the constraint of the account that
is derived, and in the description of the account. `AddressSeed` says what the two must be, and both
lists have the length and the order of the array.
-/

namespace AnchorScript

open Outcome

/-- The account that a call derives from a seed array, and the elements of the array. -/
def Syntax.Expr.derivedSeeds? : Syntax.Expr → Option (Text × List Syntax.Expr)
  | .call (.member (.name _ account) _ method) (.array _ es :: _) =>
    if Program.isDeriveMethod method then some (account, es) else none
  | _ => none

/-- The account that a statement derives from a seed array, whether or not it creates it. -/
def Syntax.Statement.derivedSeeds? : Syntax.Statement → Option (Text × List Syntax.Expr)
  | .expr _ (.call (.member object pos method) args) =>
    if method = "init" then object.derivedSeeds?
    else (Syntax.Expr.call (.member object pos method) args).derivedSeeds?
  | _ => none

/-- An element of a seed array, how it is written in a constraint and how it is described. -/
inductive AddressSeed (p : Program) (i : Instruction) :
    Syntax.Expr → Rust.Expr → Interface.SeedSpec → Prop
  | literal {pos : SourcePos} {s : Text} : AddressSeed p i (.string pos s) (.bytes s) (.const s)
  | key {e : Syntax.Expr} {account : Text}
      (hPath : e.path? = some [account, Text.ofString "key"])
      (hAccount : (i.accountRole? account).isSome = true) :
      AddressSeed p i e (((Rust.Expr.var (Rust.ident account)).call "key").call "as_ref")
        (.account (Rust.snakeCase account))
  | field {e : Syntax.Expr} {account field : Text} {t : ValueType}
      (hPath : e.path? = some [account, field]) (hField : field ≠ "key")
      (hType : p.fieldType? i account field = some t) (hForm : t.kind.hasByteForm = true) :
      AddressSeed p i e
        (Rust.Constraint.bytesOf ((Rust.Expr.var (Rust.ident account)).member (Rust.ident field))
          t.kind)
        (.account (Rust.snakeCase account ++ "." ++ Rust.snakeCase field))
  | argument {pos : SourcePos} {name : Text} {t : ValueType}
      (hType : i.argType? name = some t) (hForm : t.kind.hasByteForm = true) :
      AddressSeed p i (.name pos name)
        (Rust.Constraint.bytesOf (.var (Rust.ident name)) t.kind) (.arg (Rust.snakeCase name))
  | toBytes {e : Syntax.Expr} {pos : SourcePos} {x : Rust.Expr} {y : Interface.SeedSpec}
      (hSeed : AddressSeed p i e x y) :
      AddressSeed p i (.call (.member e pos (Text.ofString "toBytes")) []) x y

/-- Asking for the bytes of a value does not change which seed it is. -/
theorem IsSeed.of_bytesOf? {p : Program} {i : Instruction} {v w : Value} {s : SeedSource}
    (h : IsSeed p i w s) (hBytes : Program.bytesOf? v = some w) : IsSeed p i v s := by
  cases v <;> cases hBytes <;> cases h
  · exact .argument ‹_› ‹_›
  · exact .key ‹_›
  · exact .field ‹_› ‹_›

theorem addressSeed_of_standsFor {p : Program} {i : Instruction} {c : Program.BodyContext}
    {e : Syntax.Expr} {v : Value} {s : SeedSource} (h : Program.StandsFor c e v)
    (hSeed : IsSeed p i v s) :
    AddressSeed p i e (Rust.Constraint.seedExpr s) (Interface.seedSpec s) := by
  induction h with
  | string =>
    cases hSeed
    exact .literal
  | arg =>
    cases hSeed with
    | argument hType hForm => exact .argument hType hForm
  | key hPath =>
    cases hSeed with
    | key hAccount => exact .key hPath hAccount
  | field hPath hField =>
    cases hSeed with
    | field hType hForm => exact .field hPath hField hType hForm
  | toBytes _ hBytes ih => exact .toBytes (ih (hSeed.of_bytesOf? hBytes))
  | _ => cases hSeed

/-- The list of seeds that a constraint holds. -/
def Rust.Constraint.seeds? : Rust.Constraint → Option (List Rust.Expr)
  | .seeds es => some es
  | _ => none

/-- The seeds of a derived account are, in order, those of the one constraint with seeds that its
field in the context struct has, and those that it is described with. -/
structure AddressSeedsKept (p : Program) (i : Instruction) (c : Rust.ContextStruct)
    (d : Interface.InstructionSpec) (account : Text) (es : List Syntax.Expr) : Prop where
  limit : es.length ≤ 15
  written : ∃ rs : List (Rust.Expr × Interface.SeedSpec),
    List.Forall₂ (fun e r => AddressSeed p i e r.1 r.2) es rs ∧
      (c.fields.find? (·.name == Rust.ident account)).map
        (·.constraints.filterMap Rust.Constraint.seeds?) = some [rs.map Prod.fst] ∧
      (d.accounts.find? (·.name == Rust.snakeCase account)).bind (·.derivation) =
        some ⟨rs.map Prod.snd, none⟩

theorem written_of_isProgramDerived {a : AccountRef} (h : a.isProgramDerived = true)
    (programId : Text) :
    (Rust.Constraint.ofAccount a).filterMap Rust.Constraint.seeds? =
        [a.address.seeds.map (Rust.Constraint.seedExpr ·.source)] ∧
      (Interface.accountSpec programId a).derivation =
        some ⟨a.address.seeds.map (Interface.seedSpec ·.source), none⟩ := by
  obtain ⟨name, role, pos, address, token, init, isMutable, closeTo⟩ := a
  constructor
  · cases address <;> cases h <;> cases token <;> cases init with
    | none => cases isMutable <;> cases closeTo <;> rfl
    | some created =>
      obtain ⟨payer, space⟩ := created
      cases space <;> cases closeTo <;> rfl
  · cases address <;> cases h <;> rfl

namespace Program

variable {c : BodyContext}

theorem seedValues_of_deriveForm {pos apos : SourcePos} {account : Text}
    {es rest : List Syntax.Expr} {form : DeriveForm}
    (h : deriveForm c pos account (.array apos es :: rest) = .ok form) :
    form.isAssociated = false ∧ seedValues c es = .ok form.seedValues := by
  simp only [deriveForm, bind_eq_ok_iff] at h
  obtain ⟨vs, hvs, h⟩ := h
  split at h
  · cases h
    exact ⟨rfl, hvs⟩
  · simp only [bind_eq_ok_iff, pure_eq_ok_iff] at h
    obtain ⟨_, _, rfl⟩ := h
    exact ⟨rfl, hvs⟩
  · cases h

theorem seedValues_of_bumpForm {pos apos : SourcePos} {account : Text}
    {es rest : List Syntax.Expr} {form : DeriveForm}
    (h : bumpForm c pos account (.array apos es :: rest) = .ok form) :
    form.isAssociated = false ∧ seedValues c es = .ok form.seedValues := by
  unfold bumpForm at h
  split at h
  · rename_i hArgs
    cases hArgs
    simp only [bind_eq_ok_iff, pure_eq_ok_iff] at h
    obtain ⟨vs, hvs, _, _, rfl⟩ := h
    exact ⟨rfl, hvs⟩
  · cases h

theorem seedValues_of_deriveCall {npos pos apos : SourcePos} {account method : Text}
    {es rest : List Syntax.Expr} {d : Derive}
    (h : deriveCall c (.name npos account) pos method (.array apos es :: rest) = .ok d) :
    d.account = account ∧ d.form.isAssociated = false ∧
      List.Forall₂ (StandsFor c) es d.form.seedValues := by
  have hForm : ∀ form : DeriveForm, form.isAssociated = false ∧
      seedValues c es = .ok form.seedValues →
      form.isAssociated = false ∧ List.Forall₂ (StandsFor c) es form.seedValues :=
    fun form h => ⟨h.1, (mapM_eq_ok_iff.mp h.2).imp fun _ _ => standsFor_of_valueOf⟩
  simp only [deriveCall] at h
  split at h
  · simp only [bind_eq_ok_iff, pure_eq_ok_iff] at h
    obtain ⟨form, h, rfl⟩ := h
    exact ⟨rfl, hForm form (seedValues_of_deriveForm h)⟩
  · simp only [bind_eq_ok_iff, pure_eq_ok_iff] at h
    obtain ⟨form, h, rfl⟩ := h
    exact ⟨rfl, hForm form (seedValues_of_bumpForm h)⟩

theorem derivedSeeds?_eq_some {object : Syntax.Expr} {pos : SourcePos} {method account : Text}
    {args es : List Syntax.Expr}
    (h : (Syntax.Expr.call (.member object pos method) args).derivedSeeds? = some (account, es)) :
    isDeriveMethod method = true ∧ ∃ npos apos rest, object = .name npos account ∧
      args = .array apos es :: rest := by
  unfold Syntax.Expr.derivedSeeds? at h
  split at h
  · rename_i npos account' _ method' apos es' rest hCall
    cases hCall
    split at h
    · rename_i hMethod
      cases h
      exact ⟨hMethod, npos, apos, rest, rfl, rfl⟩
    · cases h
  · cases h

theorem derive_of_derivedSeeds? {s : Syntax.Statement} {st : Statement} {account : Text}
    {es : List Syntax.Expr} (h : Extracts c s st) (hSeeds : s.derivedSeeds? = some (account, es)) :
    ∃ pos d, st = .derive pos d ∧ d.account = account ∧ d.form.isAssociated = false ∧
      List.Forall₂ (StandsFor c) es d.form.seedValues := by
  cases h with
  | bind | assign => cases hSeeds
  | @call _ _ _ id method _ args _ hKind =>
    have hNot := not_isDeriveMethod_of_ofNames? hKind
    simp only [Syntax.Statement.derivedSeeds?] at hSeeds
    split at hSeeds
    · cases hSeeds
    · rw [(derivedSeeds?_eq_some hSeeds).1] at hNot
      cases hNot
  | @derive _ _ pos _ _ _ d hMethod _ hDerive =>
    simp only [Syntax.Statement.derivedSeeds?] at hSeeds
    split at hSeeds
    · cases hSeeds
    · obtain ⟨_, npos, apos, rest, hObject, rfl⟩ := derivedSeeds?_eq_some hSeeds
      cases hObject
      exact ⟨pos, d, rfl, seedValues_of_deriveCall hDerive⟩
  | @init _ _ pos _ _ _ _ d request hMethod hDerive =>
    simp only [Syntax.Statement.derivedSeeds?, ↓reduceIte] at hSeeds
    obtain ⟨_, npos, apos, rest, rfl, rfl⟩ := derivedSeeds?_eq_some hSeeds
    obtain ⟨hAccount, hForm, hValues⟩ := seedValues_of_deriveCall hDerive
    exact ⟨pos, _, rfl, hAccount, hForm, hValues⟩
  | close =>
    simp only [Syntax.Statement.derivedSeeds?] at hSeeds
    split at hSeeds
    · cases hSeeds
    · exact absurd (derivedSeeds?_eq_some hSeeds).1 (by decide)

end Program

theorem find?_of_nodup {α : Type} {name : α → Text} {as : List α} {a : α} (ha : a ∈ as)
    (h : (as.map name).Nodup) : as.find? (fun b => name b == name a) = some a := by
  have hSome : (as.find? fun b => name b == name a).isSome = true :=
    List.find?_isSome.mpr ⟨a, ha, beq_self_eq_true (name a)⟩
  obtain ⟨b, hb⟩ := Option.isSome_iff_exists.mp hSome
  have hName : name b = name a := by simpa using List.find?_some hb
  rw [hb, List.inj_on_of_nodup_map h (List.mem_of_find?_eq_some hb) ha hName]

/-- The first entry with the name of an account is that of the account. -/
theorem find?_of_account {β : Type} {accounts : List AccountRef} {a : AccountRef}
    {spell : Text → Text} {entry : AccountRef → β} {name : β → Text} (others : List β)
    (hName : ∀ a, name (entry a) = spell a.name) (ha : a ∈ accounts)
    (h : (accounts.map fun a => spell a.name).Nodup) :
    (accounts.map entry ++ others).find? (fun b => name b == spell a.name) = some (entry a) := by
  have hFound : (accounts.map entry).find? (fun b => name b == name (entry a)) =
      some (entry a) := by
    refine find?_of_nodup (List.mem_map_of_mem ha) ?_
    simpa only [List.map_map, Function.comp_def, hName] using h
  rw [← hName, List.find?_append, hFound, Option.some_or]

theorem addressSeedsKept_of_extracts {p : Program} {r : ResolvedInstruction} {t : Handler}
    {c : Program.BodyContext} {s : Syntax.Statement} {st : Statement} {account : Text}
    {es : List Syntax.Expr} (hDistinct : r.source.DistinctParams)
    (h : Resolution.resolveInstruction p r.source = .ok r)
    (hHandler : Handler.ofInstruction p r = .ok t) (hExtracts : Program.Extracts c s st)
    (hMem : st ∈ r.source.body) (hSeeds : s.derivedSeeds? = some (account, es)) :
    AddressSeedsKept p r.source (.ofInstruction r) (Interface.instructionSpec p.programId r) account
      es := by
  obtain ⟨pos, d, rfl, rfl, hForm, hValues⟩ := Program.derive_of_derivedSeeds? hExtracts hSeeds
  obtain ⟨hLength, hRole, ss, hDenotes, hRecords⟩ :=
    Resolution.addressSeeds_of_mem hDistinct h hMem hForm
  have hRoles := Resolution.hasRolesOf_of_resolveInstruction hDistinct h
  rw [← hRoles, Option.isSome_map] at hRole
  obtain ⟨a, ha⟩ := Option.isSome_iff_exists.mp hRole
  have hAccount : a ∈ r.accounts := mem_of_recordOf?_eq_some ha
  have hName : a.name = d.account := name_of_recordOf?_eq_some ha
  obtain ⟨hDerived, hSame⟩ := hRecords a hAccount hName
  obtain ⟨hConstraint, hSpec⟩ := written_of_isProgramDerived hDerived p.programId
  refine ⟨?_, ss.map fun s => (Rust.Constraint.seedExpr s.source, Interface.seedSpec s.source),
    ?_, ?_, ?_⟩
  · rw [hValues.length_eq]
    exact Nat.le_of_lt_succ hLength
  · rw [List.forall₂_map_right_iff]
    rw [List.forall₂_map_right_iff] at hDenotes
    refine (forall₂_trans hValues hDenotes).imp ?_
    rintro e seed ⟨v, hStands, hSeed⟩
    exact addressSeed_of_standsFor hStands hSeed
  · have hField : (Rust.ContextStruct.ofInstruction r).fields.find?
        (·.name == Rust.ident a.name) = some (.ofAccount a) :=
      find?_of_account _ (fun _ => rfl) hAccount
        (nodup_spellings hDistinct h hHandler fun _ _ hIdents => hIdents)
    rw [← hName, hField, Option.map_some, Rust.ContextField.ofAccount, hConstraint, hSame,
      List.map_map]
    rfl
  · have hIdents (m n : Text) (hSnake : Rust.snakeCase m = Rust.snakeCase n) :
        Rust.ident m = Rust.ident n := by
      rw [Rust.ident, Rust.ident, hSnake]
    have hEntry : (Interface.instructionSpec p.programId r).accounts.find?
        (·.name == Rust.snakeCase a.name) = some (Interface.accountSpec p.programId a) :=
      find?_of_account _ (fun _ => rfl) hAccount (nodup_spellings hDistinct h hHandler hIdents)
    rw [← hName, hEntry, Option.bind_some, hSpec, hSame, List.map_map]
    rfl

end AnchorScript
