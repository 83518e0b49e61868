import AnchorScript.Proofs.Compiler.PrintedDescription

/-!
# The description and the Rust source agree

The Rust source and the description of a program are made from it separately, each with rules of its
own for names, types, writable accounts and addresses. `DescribedBy` says what a client relies on:
element by element and in order, the description tells what the source declares. Both are read from
the texts that are emitted.
-/

namespace AnchorScript

open Outcome

/-- The same name, but for the mark of an identifier that is a keyword. -/
def SameName (rust described : Text) : Prop := rust = described ∨ rust = "r#" ++ described

theorem sameName_ident (name : Text) : SameName (Rust.ident name) (Rust.snakeCase name) := by
  rw [Rust.ident]
  split
  · exact .inr rfl
  · exact .inl rfl

/-- A type of values as it is written in Rust and in descriptions. -/
inductive SameType : Text → Text → Prop
  | int (t : IntType) : SameType t.name t.name
  | bool : SameType "bool" "bool"
  | string : SameType "String" "string"
  | pubkey : SameType "Pubkey" "pubkey"

theorem sameType_kind (k : ValueKind) : SameType k.rust k.interfaceName := by
  cases k with
  | int t => exact .int t
  | bool => exact .bool
  | string => exact .string
  | pubkey => exact .pubkey

namespace Rust.Constraint

/-- The first letters of a constraint tell its kind. -/
def initials : Constraint → Text
  | init => "in"
  | mutable => "mu"
  | payer _ => "pa"
  | space _ => "sp"
  | seeds _ => "se"
  | bump _ => "bu"
  | mint associated _ | authority associated _ => if associated then "as" else "to"
  | close _ => "cl"

theorem take_text (c : Constraint) : c.text.take 2 = c.initials := by
  cases c with
  | bump stored => cases stored <;> rfl
  | mint associated account => cases associated <;> rfl
  | authority associated account => cases associated <;> rfl
  | _ => rfl

theorem initials_of_begins {c : Constraint} {word : Text} (h : word <+: c.text)
    (hWord : 2 ≤ word.length) : c.initials = word.take 2 := by
  obtain ⟨rest, hRest⟩ := h
  rw [← take_text, ← hRest, List.take_append_of_le_length hWord]

def grantsWriting : Constraint → Bool
  | init | mutable => true
  | _ => false

def fixesAddress : Constraint → Bool
  | seeds _ => true
  | mint associated _ | authority associated _ => associated
  | _ => false

theorem grantsWriting_eq (c : Constraint) :
    c.grantsWriting = (c.initials == "in" || c.initials == "mu") := by
  cases c with
  | mint associated account => cases associated <;> rfl
  | authority associated account => cases associated <;> rfl
  | _ => rfl

theorem fixesAddress_eq (c : Constraint) :
    c.fixesAddress = (c.initials == "se" || c.initials == "as") := by
  cases c with
  | mint associated account => cases associated <;> rfl
  | authority associated account => cases associated <;> rfl
  | _ => rfl

theorem grantsWriting_iff {c : Constraint} :
    c.grantsWriting = true ↔ c.text = "init" ∨ c.text = "mut" := by
  constructor
  · intro h
    cases c with
    | init => exact .inl rfl
    | mutable => exact .inr rfl
    | _ => cases h
  · intro h
    rw [grantsWriting_eq, ← take_text]
    rcases h with h | h
    · rw [h]
      rfl
    · rw [h]
      rfl

theorem fixesAddress_iff {c : Constraint} : c.fixesAddress = true ↔
    Text.ofString "seeds" <+: c.text ∨ Text.ofString "associated_token" <+: c.text := by
  constructor
  · intro h
    cases c with
    | seeds es => exact .inl ⟨_, rfl⟩
    | mint associated account =>
      obtain rfl : associated = true := h
      exact .inr ⟨_, rfl⟩
    | authority associated account =>
      obtain rfl : associated = true := h
      exact .inr ⟨_, rfl⟩
    | _ => cases h
  · intro h
    rw [fixesAddress_eq]
    rcases h with h | h
    · rw [initials_of_begins h (by decide)]
      rfl
    · rw [initials_of_begins h (by decide)]
      rfl

theorem any_grantsWriting_ofAccount (a : AccountRef) :
    (ofAccount a).any grantsWriting = (a.isMutable || a.isInitialized) := by
  have hCreation : ∀ i : Initialization, (ofInit i).any grantsWriting = true := fun _ => rfl
  have hAddress : (ofAddress a.address).any grantsWriting = false := by
    cases a.address <;> rfl
  simp only [ofAccount, List.any_append, hAddress, AccountRef.isInitialized]
  cases a.init with
  | some i => simp [hCreation]
  | none => cases a.isMutable <;> cases a.token <;> cases a.closeTo <;> rfl

/-- An address has a constraint of its own unless it is passed in; that of an associated token
account is its mint and authority. -/
theorem any_fixesAddress_ofAccount {a : AccountRef}
    (h : a.address.isAssociated = true → a.token.isSome = true) :
    (ofAccount a).any fixesAddress = (Interface.derivationSpec a).isSome := by
  have hCreation : ∀ i : Initialization, (ofInit i).any fixesAddress = false := by
    rintro ⟨payer, space⟩
    cases space <;> rfl
  have hClose : ((a.closeTo.map fun d => close (ident d)).toList).any fixesAddress = false := by
    cases a.closeTo <;> rfl
  simp only [ofAccount, List.any_append, hClose, Bool.or_false, Interface.derivationSpec]
  cases hAddress : a.address with
  | given => cases a.init <;> cases a.isMutable <;> cases a.token <;> simp [hCreation, ofAddress,
      AddressSource.isAssociated, fixesAddress]
  | found seeds => simp [ofAddress, fixesAddress]
  | stored seeds bump => simp [ofAddress, fixesAddress]
  | associated =>
    rw [hAddress] at h
    obtain ⟨t, ht⟩ := Option.isSome_iff_exists.mp (h rfl)
    simp [ht, AddressSource.isAssociated, fixesAddress]

end Rust.Constraint

/-- An account of an instruction, as the context struct declares and the description lists it. -/
structure FieldDescribed (f : Rust.ContextField) (a : Interface.AccountSpec) : Prop where
  name : SameName f.name a.name
  writable : a.isWritable = true ↔ ∃ c ∈ f.constraints, c.text = "init" ∨ c.text = "mut"
  signer : a.isSigner = true ↔ f.type = "Signer<'info>"
  derived : a.derivation.isSome = true ↔ ∃ c ∈ f.constraints,
    Text.ofString "seeds" <+: c.text ∨ Text.ofString "associated_token" <+: c.text

structure FunctionDescribed (f : Rust.Function) (i : Interface.InstructionSpec) : Prop where
  name : SameName f.name i.name
  args : List.Forall₂ (fun a g => SameName a.name g.name ∧ SameType a.type g.type) f.args i.args

structure StateDescribed (s : Rust.StateStruct) (t : Interface.StateSpec) : Prop where
  name : s.name = t.name
  fields : List.Forall₂ (fun f g => SameName f.name g.name ∧ SameType f.type g.type)
    s.fields t.fields

structure DescribedBy (s : Rust.Source) (d : Interface.Description) : Prop where
  functions : List.Forall₂ FunctionDescribed s.functions d.instructions
  contexts : List.Forall₂ (fun c i => List.Forall₂ FieldDescribed c.fields i.accounts)
    s.contexts d.instructions
  linked : List.Forall₂ (fun f c => f.context = c.name) s.functions s.contexts
  states : List.Forall₂ StateDescribed s.states d.states

theorem Role.rust_eq_signer_iff {role : Role} : role.rust = "Signer<'info>" ↔ role = .signer := by
  constructor
  · intro h
    cases role with
    | signer => rfl
    | state name =>
      -- whatever the state is called, the type begins with another letter
      cases (congrArg List.head? h : some (65 : UInt8) = some 83)
    | _ => revert h; decide
  · rintro rfl
    rfl

theorem fieldDescribed_ofAccount {programId : Text} {a : AccountRef}
    (h : a.address.isAssociated = true → a.token.isSome = true) :
    FieldDescribed (.ofAccount a) (Interface.accountSpec programId a) where
  name := sameName_ident a.name
  writable := by
    simp only [← Rust.Constraint.grantsWriting_iff, ← List.any_eq_true]
    exact Bool.eq_iff_iff.mp (Rust.Constraint.any_grantsWriting_ofAccount a).symm
  signer := by
    rw [Rust.ContextField.ofAccount, Role.rust_eq_signer_iff, Interface.accountSpec,
      decide_eq_true_eq]
  derived := by
    simp only [← Rust.Constraint.fixesAddress_iff, ← List.any_eq_true]
    exact Bool.eq_iff_iff.mp (Rust.Constraint.any_fixesAddress_ofAccount h).symm

theorem fieldDescribed_ofProgram (q : ProgramAccount) :
    FieldDescribed (.ofProgram q) (Interface.programSpec q) where
  name := .inl rfl
  writable := by simp [Rust.ContextField.ofProgram, Interface.programSpec]
  signer := by cases q <;> decide
  derived := by simp [Rust.ContextField.ofProgram, Interface.programSpec]

theorem fieldsDescribed_ofInstruction {p : Program} {programId : Text} {r : ResolvedInstruction}
    (hi : r.source.DistinctParams) (h : Resolution.resolveInstruction p r.source = .ok r) :
    List.Forall₂ FieldDescribed (Rust.ContextStruct.ofInstruction r).fields
      (Interface.instructionSpec programId r).accounts := by
  apply List.rel_append
  · apply forall₂_map_map
    intro a ha
    refine fieldDescribed_ofAccount fun hAssociated => ?_
    have hSound := Resolution.sound_of_resolveInstruction hi h ha
    obtain ⟨t, _, ht, _⟩ := (hSound.associated hAssociated).parties
    rw [ht]
    rfl
  · exact forall₂_map_map fun q _ => fieldDescribed_ofProgram q

theorem argDescribed {q : Param} (h : q.type.isAccount = false) :
    SameName (Rust.ident q.name) (Interface.argSpec q).name ∧
      SameType (Handler.rustType q.type) (Interface.argSpec q).type := by
  refine ⟨sameName_ident q.name, ?_⟩
  cases hType : q.type with
  | account role => simp [hType, DataType.isAccount] at h
  | value t =>
    simp only [Interface.argSpec, hType]
    exact sameType_kind t.kind

theorem functionDescribed_ofInstruction {p : Program} {programId : Text} {r : ResolvedInstruction}
    {t : Handler} (h : Handler.ofInstruction p r = .ok t) :
    FunctionDescribed (.ofHandler t) (Interface.instructionSpec programId r) := by
  obtain ⟨hName, _, hArgs⟩ := Handler.heading_of_ofInstruction h
  constructor
  · rw [Rust.Function.ofHandler, hName]
    exact sameName_ident r.source.name
  · rw [Rust.Function.ofHandler, hArgs]
    apply forall₂_map_map
    intro q hq
    exact argDescribed (by simpa using (List.mem_filter.mp hq).2)

theorem stateDescribed_ofState (s : StateType) :
    StateDescribed (.ofState s) (Interface.stateSpec s) where
  name := rfl
  fields := forall₂_map_map fun f _ => ⟨sameName_ident f.name, sameType_kind f.type.kind⟩

/-- A compilation that emits a description emits two texts that are read as a program, with a function
for each instruction, and as its description. -/
theorem compile_described {o : CompileOptions} {name src : Text} {out : CompileOutput}
    (hEmit : o.emitInterface = true) (h : compile o name src = .ok out) :
    ∃ s text d, Rust.readSource out.rust = some s ∧ out.interface = some text ∧
      Interface.readDescription text = some d ∧
      s.functions.map (·.name) = out.program.instructions.map (Rust.ident ·.name) ∧
      DescribedBy s d := by
  have hRead := compile_read h
  simp only [compile, bind_eq_ok_iff, pure_eq_ok_iff, hEmit, ↓reduceIte] at h
  obtain ⟨r, hResolved, hs, hHandlers, rfl⟩ := h
  obtain ⟨r', hs', hResolved', hHandlers', _, hRead⟩ := hRead
  obtain rfl : r = r' := Except.ok.inj (hResolved.symm.trans hResolved')
  obtain rfl : hs = hs' := Except.ok.inj (hHandlers.symm.trans hHandlers')
  refine ⟨_, _, _, hRead, rfl, resolveSource_described hResolved,
    functionNames_of_handlers hResolved hHandlers, ?_⟩
  have hTranslated := mapM_eq_ok_iff.mp hHandlers
  constructor
  · refine List.forall₂_map_left_iff.mpr (List.forall₂_map_right_iff.mpr (hTranslated.flip.imp ?_))
    exact fun t i ht => functionDescribed_ofInstruction ht
  · apply forall₂_map_map
    intro i hi
    obtain ⟨hDistinct, hInstruction⟩ := resolveSource_of_mem hResolved hi
    exact fieldsDescribed_ofInstruction hDistinct hInstruction
  · refine List.forall₂_map_left_iff.mpr (List.forall₂_map_right_iff.mpr (hTranslated.flip.imp ?_))
    exact fun t i ht => (Handler.heading_of_ofInstruction ht).2.1
  · exact forall₂_map_map fun s _ => stateDescribed_ofState s

/-- A program with names that are keywords, an account that is created and an associated token
account. -/
def keywordSource : Text := Text.join "\n" [
  "export default class P \x7b",
  "static PROGRAM_ID = new Pubkey('11111111111111111111111111111111')",
  "move(ref: Signer, m: Mint, s: S, t: AssociatedTokenAccount, n: u64) \x7b",
  "s.derive(['s']).init()",
  "t.derive(m, ref)",
  "\x7d\x7d",
  "interface S extends Account \x7b type: Pubkey \x7d"]

theorem keywordSource_described : ∃ out,
    compile { emitInterface := true } "p.ts" keywordSource = .ok out ∧
      out.program.instructions.map (Rust.ident ·.name) = ["r#move"] ∧
      ∃ s text d, Rust.readSource out.rust = some s ∧ out.interface = some text ∧
        Interface.readDescription text = some d ∧
        s.functions.map (·.name) = out.program.instructions.map (Rust.ident ·.name) ∧
        DescribedBy s d := by
  obtain ⟨out, hOut, hNames⟩ := exists_ok_of_any
    (x := compile { emitInterface := true } "p.ts" keywordSource)
    (fun out => out.program.instructions.map (Rust.ident ·.name) == [Text.ofString "r#move"])
    (by
      simp (disch := rfl) only [keywordSource, Text.ofString_literal]
      decide +kernel)
  exact ⟨out, hOut, beq_iff_eq.mp hNames, compile_described rfl hOut⟩

end AnchorScript
