import AnchorScript.Proofs.Compiler.BodyFidelity
import AnchorScript.Proofs.Compiler.ConstraintScope
import AnchorScript.Proofs.Compiler.GeneratedNames
import AnchorScript.Proofs.Compiler.IdReplacement
import AnchorScript.Proofs.Resolution.Typing
import AnchorScript.Proofs.Rust.PrintedSource

/-!
# Accepted programs are read back

An accepted program is printed with names and values that are read as they were meant: its own names
are identifiers, those that are generated are numbered identifiers, and a value needs no brackets
but the ones it has. So the text that is emitted is read as the program.
-/

namespace AnchorScript

open Outcome

namespace Rust

/-- Members and calls that start at a variable. -/
inductive Expr.Chain : Expr → Prop
  | var {n : Text} (hName : IsOutputName n) : Chain (.var n)
  | member {e : Expr} {n : Text} (hObject : Chain e) (hName : IsOutputName n) : Chain (.member e n)
  | call {e : Expr} {m : Text} (hObject : Chain e) (hName : IsOutputName m) : Chain (.call e m)

namespace Expr.Chain

variable {e : Expr} {id field : Text}

theorem plain (h : e.Chain) : e.Plain := by
  have hTree : (∃ t, e.Spells t ∧ t.Grouped ∧ t.level = 4) ∧ e.shown = e := by
    induction h with
    | var hName => exact ⟨⟨_, .var hName, .word, rfl⟩, rfl⟩
    | member _ hName ih =>
      obtain ⟨⟨t, hSpells, hGrouped, hLevel⟩, hShown⟩ := ih
      exact ⟨⟨_, .member hSpells hName, .member hGrouped hLevel, rfl⟩,
        congrArg (Expr.member · _) hShown⟩
    | call _ hName ih =>
      obtain ⟨⟨t, hSpells, hGrouped, hLevel⟩, hShown⟩ := ih
      exact ⟨⟨_, .call hSpells hName, .call (.member hGrouped hLevel) rfl, rfl⟩,
        congrArg (Expr.call · _) hShown⟩
  obtain ⟨⟨t, hSpells, hGrouped, _⟩, hShown⟩ := hTree
  exact ⟨⟨t, hSpells, hGrouped⟩, hShown⟩

theorem contextAccount (h : IsOutputName id) : (contextAccount id).Chain :=
  .member (.member (.var (isOutputName_of_all rfl rfl (by decide)))
    (isOutputName_of_all rfl rfl (by decide))) h

theorem accountInfo (h : IsOutputName id) : (accountInfo id).Chain :=
  .call (.contextAccount h) (isOutputName_of_all rfl rfl (by decide))

theorem contextField (hAccount : IsOutputName id) (hField : IsOutputName field) :
    (contextField id field).Chain :=
  .member (.contextAccount hAccount) hField

theorem contextBump (h : IsOutputName id) : (contextBump id).Chain :=
  .member (.member (.var (isOutputName_of_all rfl rfl (by decide)))
    (isOutputName_of_all rfl rfl (by decide))) h

theorem asRef (h : e.Chain) : (e.call "as_ref").Chain :=
  .call h (isOutputName_of_all rfl rfl (by decide))

theorem toBytes (h : e.Chain) : (e.call "to_le_bytes").Chain :=
  .call h (isOutputName_of_all rfl rfl (by decide))

theorem asBytes (h : e.Chain) : (e.call "as_bytes").Chain :=
  .call h (isOutputName_of_all rfl rfl (by decide))

theorem bytesOf (h : e.Chain) (k : ValueKind) : (Constraint.bytesOf e k).Chain := by
  cases k with
  | string => exact h.asBytes
  | pubkey => exact h.asRef
  | int | bool => exact h.toBytes.asRef

end Expr.Chain

/-- Accounts, fields and arguments that paths can lead to have identifiers for names. -/
structure Named (states : List StateStruct) (c : ContextStruct) : Prop where
  accounts : ∀ f ∈ c.fields, IsOutputName f.name
  fields : ∀ s ∈ states, ∀ f ∈ s.fields, IsOutputName f.name
  args : ∀ as, c.args = some as → ∀ a ∈ as, IsOutputName a.name

namespace Named

variable {states : List StateStruct} {c : ContextStruct} {account field : Text}

theorem of_hasAccount (h : Named states c) (hAccount : c.HasAccount account) : IsOutputName account := by
  obtain ⟨f, hf, rfl⟩ := hAccount
  exact h.accounts f hf

theorem of_hasField (h : Named states c) (hField : c.HasField states account field) :
    IsOutputName account ∧ IsOutputName field := by
  obtain ⟨f, hf, s, hs, rfl, _, g, hg, rfl⟩ := hField
  exact ⟨h.accounts f hf, h.fields s hs g hg⟩

theorem isSeedText (h : Named states c) {e : Expr} (he : SeedInScope states c e) : IsSeedText e := by
  cases he with
  | literal => exact .bytes
  | key hAccount =>
    have hMethod : IsOutputName (Text.ofString "key") := isOutputName_of_all rfl rfl (by decide)
    exact .expr (Expr.Chain.call (.var (h.of_hasAccount hAccount)) hMethod).asRef.plain
  | field hField =>
    obtain ⟨hAccount, hName⟩ := h.of_hasField hField
    exact .expr ((Expr.Chain.member (.var hAccount) hName).bytesOf _).plain
  | argument hArg =>
    obtain ⟨as, has, a, ha, rfl⟩ := hArg
    exact .expr ((Expr.Chain.var (h.args as has a ha)).bytesOf _).plain

theorem spelled (h : Named states c) {k : Constraint} (hk : k.InScope states c) :
    k.Spelled := by
  have hWord {account : Text} (hAccount : c.HasAccount account) : OneWord account :=
    oneWord_of_isOutputName (h.of_hasAccount hAccount)
  cases hk with
  | init => exact .init
  | mutable => exact .mutable
  | payer hAccount => exact .payer (hWord hAccount)
  | space => exact .space
  | seeds hSeeds => exact .seeds fun e he => h.isSeedText (hSeeds e he)
  | bump => exact .bump
  | stored hField =>
    obtain ⟨hAccount, hName⟩ := h.of_hasField hField
    exact .stored (Expr.Chain.member (.var hAccount) hName).plain
  | mint hAccount => exact .mint (hWord hAccount)
  | authority hAccount => exact .authority (hWord hAccount)
  | close hAccount => exact .close (hWord hAccount)

end Named

end Rust

/-- A word that a name begins with makes it a name. -/
theorem IsName.append {s t : Text} (h : IsName s) (ht : ∀ b ∈ t, Lexer.isIdentPart b = true) :
    IsName (s ++ t) := by
  obtain ⟨c, r, rfl, hStart, hParts⟩ := h
  exact ⟨c, r ++ t, rfl, hStart, List.forall_mem_append.mpr ⟨hParts, ht⟩⟩

/-- What a generated name is numbered from: an identifier with an underscore. -/
def IsBase (base : Text) : Prop :=
  95 ∈ base ∧ (IsName base ∨ ∃ w, IsName w ∧ base = Rust.marked w)

theorem IsBase.append {base t : Text} (h : IsBase base)
    (ht : ∀ b ∈ t, Lexer.isIdentPart b = true) : IsBase (base ++ t) := by
  obtain ⟨hUnderscore, hName⟩ := h
  refine ⟨List.mem_append_left t hUnderscore, ?_⟩
  rcases hName with hName | ⟨w, hName, rfl⟩
  · exact .inl (hName.append ht)
  · exact .inr ⟨w ++ t, hName.append ht, List.append_assoc ..⟩

theorem IsBase.isOutputName {base : Text} (h : IsBase base) : Rust.IsOutputName base :=
  ⟨fun hKeyword => Rust.underscore_notMem_keyword hKeyword h.1, h.2⟩

theorem isOutputName_avoid {base : Text} (h : IsBase base) (taken : List Text) :
    Rust.IsOutputName (FreshName.avoid taken base) := by
  obtain ⟨j, _, hj, _⟩ := FreshName.exists_avoid_eq taken base
  rw [hj]
  rcases FreshName.candidate_cases base j with hSame | ⟨m, _, hNumbered⟩
  · rw [hSame]
    exact h.isOutputName
  · rw [hNumbered]
    refine (h.append fun b hb => isIdentPart_of_isDigit b ?_).isOutputName
    exact Json.isDigit_ofNat m b hb

theorem isBase_append {s t : Text} (hs : Rust.IsOutputName s) (hUnderscore : 95 ∈ t)
    (ht : ∀ b ∈ t, Lexer.isIdentPart b = true) : IsBase (s ++ t) := by
  refine ⟨List.mem_append_right s hUnderscore, ?_⟩
  rcases hs.2 with hName | ⟨w, hName, rfl⟩
  · exact .inl (hName.append ht)
  · exact .inr ⟨w ++ t, hName.append ht, List.append_assoc ..⟩

/-- The source names that a bump is read through. -/
def BumpSource.names : BumpSource → List Text
  | ofVar name => [name]
  | stored ref => [ref.account, ref.field]
  | computed account => [account]

/-- The source names that a seed is read through. -/
def SeedSource.names : SeedSource → List Text
  | literal _ => []
  | accountKey account => [account]
  | stateField ref _ => [ref.account, ref.field]
  | argument name _ => [name]
  | bump b => b.names

namespace Handler

section Seeds

variable {used : List Text} {source : Rust.Expr} {base : Text}

/-- A seed of a call is spelled as it is read, and its buffer is as well. -/
def SeedSpelled (seed : Rust.Expr × Option SeedBuffer) : Prop :=
  Rust.IsSeedText seed.1 ∧
    ∀ b, seed.2 = some b → Rust.IsOutputName b.name ∧ b.value.Plain

theorem seedSpelled_borrow (hSource : source.Chain) (hBase : IsBase (base ++ "_bytes"))
    (t : ValueType) : SeedSpelled (borrow used source base t) := by
  have hBuffer : Rust.IsOutputName (FreshName.avoid used (base ++ "_bytes")) :=
    isOutputName_avoid hBase used
  unfold borrow
  cases t.kind with
  | string => exact ⟨.expr hSource.asBytes.plain, nofun⟩
  | pubkey => exact ⟨.expr hSource.asRef.plain, nofun⟩
  | int | bool =>
    refine ⟨.expr (Rust.Expr.Chain.var hBuffer).asRef.plain, ?_⟩
    rintro b hb
    cases hb
    exact ⟨hBuffer, hSource.toBytes.plain⟩

theorem seedSpelled_signerSeed {s : SeedSource} (h : ∀ n ∈ s.names, IsName n) :
    SeedSpelled (signerSeed used s) := by
  have hBytes : ∀ b ∈ Text.ofString "_bytes", Lexer.isIdentPart b = true :=
    List.all_eq_true.mp rfl
  have hIdent {n : Text} (hn : n ∈ s.names) : Rust.IsOutputName (Rust.ident n) :=
    Rust.isOutputName_ident (h n hn)
  cases s with
  | literal => exact ⟨.bytes, nofun⟩
  | accountKey account =>
    have hKey : Rust.IsOutputName (Text.ofString "key") :=
      Rust.isOutputName_of_all rfl rfl (by decide)
    have hInfo := Rust.Expr.Chain.accountInfo (hIdent List.mem_cons_self)
    exact ⟨.expr (Rust.Expr.Chain.member hInfo hKey).asRef.plain, nofun⟩
  | stateField ref t =>
    have hAccount := hIdent List.mem_cons_self
    have hField := hIdent (List.mem_cons_of_mem _ List.mem_cons_self)
    have hParts :=
      (Rust.isName_snakeCase (h ref.field (List.mem_cons_of_mem _ List.mem_cons_self))).isWord
    refine seedSpelled_borrow (.contextField hAccount hField) ?_ t
    have hUnderscore : IsBase (Rust.ident ref.account ++ "_") :=
      isBase_append hAccount (by decide) (List.all_eq_true.mp rfl)
    exact (hUnderscore.append hParts.2).append hBytes
  | argument name t =>
    have hName := Rust.isName_snakeCase (h name List.mem_cons_self)
    refine seedSpelled_borrow (.var (hIdent List.mem_cons_self)) ⟨?_, .inl (hName.append hBytes)⟩ t
    exact List.mem_append_right _ (by decide)
  | bump b =>
    cases b with
    | ofVar name =>
      exact ⟨.slice (Rust.Expr.Chain.var (hIdent List.mem_cons_self)).plain, nofun⟩
    | stored ref =>
      have hField := hIdent (List.mem_cons_of_mem ref.account List.mem_cons_self)
      exact ⟨.slice (Rust.Expr.Chain.contextField (hIdent List.mem_cons_self) hField).plain, nofun⟩
    | computed account =>
      exact ⟨.slice (Rust.Expr.Chain.contextBump (hIdent List.mem_cons_self)).plain, nofun⟩

theorem spelled_signerSeedList (used : List Text) {ss : List Seed}
    (h : ∀ s ∈ ss, ∀ n ∈ s.source.names, IsName n) :
    (∀ b ∈ (signerSeedList used ss).1, Rust.IsOutputName b.name ∧ b.value.Plain) ∧
      ∀ e ∈ (signerSeedList used ss).2, Rust.IsSeedText e := by
  induction ss generalizing used with
  | nil => simp [signerSeedList]
  | cons s ss ih =>
    obtain ⟨hHere, hLater⟩ := List.forall_mem_cons.mp h
    obtain ⟨hSeed, hBuffer⟩ : SeedSpelled (signerSeed used s.source) := seedSpelled_signerSeed hHere
    obtain ⟨hBuffers, hSeeds⟩ := ih _ hLater
    rw [signerSeedList]
    refine ⟨List.forall_mem_append.mpr ⟨fun b hb => ?_, hBuffers⟩,
      List.forall_mem_cons.mpr ⟨hSeed, hSeeds⟩⟩
    exact hBuffer b (Option.mem_toList.mp hb)

end Seeds

end Handler

section Names

variable {p : Program} {r : ResolvedInstruction} (hi : r.source ∈ p.instructions)
  (hNames : ∀ n ∈ p.declaredNames, IsName n)

include hi hNames

theorem isName_param {q : Param} (hq : q ∈ r.source.params) : IsName q.name :=
  hNames _ (Program.mem_declaredNames_of_instruction hi (List.mem_cons_of_mem _
    (List.mem_map_of_mem (Instruction.mem_declarations_of_param hq))))

theorem isName_variable {n : Text} (hn : n ∈ r.source.varNames) : IsName n :=
  hNames _ (Program.mem_declaredNames_of_instruction hi (List.mem_cons_of_mem _ (by
    rw [Instruction.declarations, List.map_append]
    exact List.mem_append_right _ hn)))

theorem isName_of_fieldType? {account field : Text} {t : ValueType}
    (h : p.fieldType? r.source account field = some t) : IsName account ∧ IsName field := by
  obtain ⟨q, hq, _, rfl, _, st, hst, f, hf, rfl, _⟩ := Program.exists_param_of_fieldType? h
  exact ⟨isName_param hi hNames hq, hNames _ (Program.mem_declaredNames_of_state hst
    (List.mem_cons_of_mem _ (List.mem_map_of_mem hf)))⟩

theorem isName_of_accountRole? {account : Text}
    (h : (r.source.accountRole? account).isSome = true) : IsName account := by
  obtain ⟨role, h⟩ := Option.isSome_iff_exists.mp h
  obtain ⟨q, hq, _⟩ := Option.bind_eq_some_iff.mp h
  have hName : q.name = account := by simpa using List.find?_some hq
  exact hName ▸ isName_param hi hNames (List.mem_of_find?_eq_some hq)

theorem isName_of_isSeed {v : Value} {s : SeedSource} (h : IsSeed p r.source v s) :
    ∀ n ∈ s.names, IsName n := by
  cases h with
  | literal => exact nofun
  | key hAccount => exact List.forall_mem_singleton.mpr (isName_of_accountRole? hi hNames hAccount)
  | field hType =>
    obtain ⟨hAccount, hField⟩ := isName_of_fieldType? hi hNames hType
    exact List.forall_mem_cons.mpr ⟨hAccount, List.forall_mem_singleton.mpr hField⟩
  | @argument _ name _ _ hType =>
    obtain ⟨q, hq, _⟩ := Option.bind_eq_some_iff.mp hType
    have hName : q.name = name := by simpa using List.find?_some hq
    exact List.forall_mem_singleton.mpr
      (hName ▸ isName_param hi hNames (List.mem_of_find?_eq_some hq))

theorem isName_of_isBump {v : Value} {b : BumpSource}
    (hResolved : Resolution.resolveInstruction p r.source = .ok r)
    (h : IsBump p r.source r.locals v b) : ∀ n ∈ b.names, IsName n := by
  cases h with
  | stored hType =>
    obtain ⟨hAccount, hField⟩ := isName_of_fieldType? hi hNames hType
    exact List.forall_mem_cons.mpr ⟨hAccount, List.forall_mem_singleton.mpr hField⟩
  | computed hAccount =>
    exact List.forall_mem_singleton.mpr (isName_of_accountRole? hi hNames hAccount)
  | ofVar hVar =>
    exact List.forall_mem_singleton.mpr
      (isName_variable hi hNames (Resolution.mem_varNames hResolved hVar))

variable (hResolved : Resolution.resolveInstruction p r.source = .ok r)

include hResolved

theorem named_ofInstruction :
    Rust.Named (p.states.map .ofState) (.ofInstruction r) := by
  constructor
  · refine List.forall_mem_append.mpr ⟨List.forall_mem_map.mpr fun a ha => ?_,
      List.forall_mem_map.mpr fun q _ => ?_⟩
    · obtain ⟨q, hq, hName, _⟩ := Resolution.exists_param_of_mem hResolved ha
      exact Rust.isOutputName_ident (hName ▸ isName_param hi hNames hq)
    · cases q <;> exact Rust.isOutputName_of_all rfl rfl (by decide)
  · refine List.forall_mem_map.mpr fun st hst => List.forall_mem_map.mpr fun f hf => ?_
    exact Rust.isOutputName_ident (hNames _ (Program.mem_declaredNames_of_state hst
      (List.mem_cons_of_mem _ (List.mem_map_of_mem hf))))
  · intro as has
    simp only [Rust.ContextStruct.ofInstruction] at has
    split at has
    · cases has
      refine List.forall_mem_map.mpr fun q hq => ?_
      exact Rust.isOutputName_ident (isName_param hi hNames (List.mem_filter.mp hq).1)
    · cases has

omit hResolved in
theorem argSpelled_argsOf : ∀ a ∈ Handler.argsOf r.source, Rust.ArgSpelled a := by
  refine List.forall_mem_map.mpr fun q hq => ?_
  obtain ⟨hParam, hValue⟩ := List.mem_filter.mp hq
  refine ⟨Rust.oneWord_of_isOutputName (Rust.isOutputName_ident (isName_param hi hNames hParam)), ?_⟩
  cases hType : q.type with
  | account => simp [hType, DataType.isAccount] at hValue
  | value t => exact Rust.isType_kind t.kind

theorem spelled_context (hDistinct : r.source.DistinctParams) (hDeclared : p.Declared r.source) :
    (Rust.ContextStruct.ofInstruction r).Spelled := by
  have hNamed := named_ofInstruction hi hNames hResolved
  have hName : IsName r.source.name :=
    hNames _ (Program.mem_declaredNames_of_instruction hi List.mem_cons_self)
  have hState {st : StateType} (hst : st ∈ p.states) : Rust.OneWord st.name :=
    Rust.oneWord_of_isWord (hNames _ (Program.mem_declaredNames_of_state hst List.mem_cons_self)).isWord
  constructor
  · exact Rust.oneWord_of_isWord (Rust.isWord_contextName hName.isWord)
  · intro as has
    simp only [Rust.ContextStruct.ofInstruction] at has
    split at has
    · cases has
      exact argSpelled_argsOf hi hNames
    · cases has
  · intro f hf
    have hWord := Rust.oneWord_of_isOutputName (hNamed.accounts f hf)
    rcases List.mem_append.mp hf with hf | hf
    · obtain ⟨a, ha, rfl⟩ := List.mem_map.mp hf
      refine ⟨fun k hk => hNamed.spelled (constraints_inScope hDistinct hResolved ha k hk), hWord, ?_⟩
      refine Rust.isType_role fun n hRole => ?_
      obtain ⟨q, hq, _, hType⟩ := Resolution.exists_param_of_mem hResolved ha
      obtain ⟨st, hst⟩ := hDeclared.states q hq n (by rw [hType, hRole])
      have hSame : st.name = n := by simpa using List.find?_some hst
      exact hSame ▸ hState (List.mem_of_find?_eq_some hst)
    · obtain ⟨q, _, rfl⟩ := List.mem_map.mp hf
      refine ⟨nofun, hWord, ?_⟩
      have hProgram {w : Text} (hw : Rust.OneWord w) :
          Rust.IsType ("Program" ++ "<'" ++ "info" ++ ", " ++ w ++ ">") := .generic rfl rfl hw
      cases q with
      | system => exact hProgram (w := "System") rfl
      | token => exact hProgram (w := "Token") rfl
      | associatedToken => exact hProgram (w := "AssociatedToken") rfl

end Names

namespace Handler

theorem hasAccount_of_inScope {states : List Rust.StateStruct} {c : Rust.ContextStruct}
    {vars : List Text} {id : Text} (h : (Rust.Expr.accountInfo id).InScope states c vars) :
    c.HasAccount id := by
  have hPath := h (Rust.Expr.accountPath id) List.mem_cons_self
  generalize hSame : Rust.Expr.accountPath id = path at hPath
  cases hPath with
  | account hAccount =>
    cases hSame
    exact hAccount
  | field | var => cases hSame
  | bump =>
    injection hSame with _ hRest
    injection hRest with hWord _
    exact absurd hWord (by decide)

theorem oneWord_of_fields {action : CallAction} : ∀ f ∈ action.fields, Rust.OneWord f.1 := by
  have hNames : ∀ n ∈ List.map Text.ofString ["from", "to", "authority", "mint"], Rust.OneWord n := by
    decide
  have hFields : ∀ f ∈ action.fields,
      f.1 ∈ List.map Text.ofString ["from", "to", "authority", "mint"] := by
    cases action <;> simp [CallAction.fields]
  exact fun f hf => hNames f.1 (hFields f hf)

theorem isBase_of_mem_fixedBases {base : Text} (h : base ∈ fixedBases) : IsBase base := by
  have hAll : ∀ base ∈ fixedBases, 95 ∈ base ∧ base.head?.any Lexer.isIdentStart = true ∧
      base.all Lexer.isIdentPart = true ∧ base ∉ Rust.keywords := by
    decide +kernel
  obtain ⟨hUnderscore, hStart, hParts, hKeyword⟩ := hAll base h
  exact ⟨hUnderscore, (Rust.isOutputName_of_all hStart hParts hKeyword).2⟩

theorem isOutputName_of_fixedNames {fr : Frame} {names : Names} {generated bound : List Text}
    {index : Nat} {c : CrossProgramCall} {inv : Invocation}
    (h : invocation fr names generated bound index c = .ok inv) :
    ∀ g ∈ inv.accountsName :: inv.contextName :: (inv.signer.map (·.name)).toList,
      Rust.IsOutputName g := by
  intro g hg
  obtain ⟨base, hBase, rfl⟩ := fixedNames_of_invocation h g hg
  exact isOutputName_avoid (isBase_of_mem_fixedBases hBase) _

section Instruction

variable {p : Program} {r : ResolvedInstruction} {names : Names}
  (hi : r.source ∈ p.instructions) (hNames : ∀ n ∈ p.declaredNames, IsName n)
  (hDistinct : r.source.DistinctParams)
  (hResolved : Resolution.resolveInstruction p r.source = .ok r)

include hi hNames hDistinct hResolved

theorem isName_of_seedsAt? {index : Nat} {pos : SourcePos} {c : CrossProgramCall}
    (hIndex : r.source.body[index]? = some (.call pos c)) {vs : List Value}
    (hvs : c.signerSeeds = some vs) :
    ∀ s ∈ (r.seedsAt? index).getD [], ∀ n ∈ s.source.names, IsName n := by
  obtain ⟨_, ss, hss, front, last, fronts, b, _, hSources, hFront, hLast⟩ :=
    Resolution.signerSeeds_of_getElem? hDistinct hResolved hIndex hvs
  intro s hs
  rw [hss, Option.getD_some] at hs
  have hMem := List.mem_map_of_mem (f := Seed.source) hs
  rw [hSources] at hMem
  rcases List.mem_append.mp hMem with hMem | hMem
  · obtain ⟨v, _, hSeed⟩ := exists_of_mem_right hFront hMem
    exact isName_of_isSeed hi hNames hSeed
  · rw [List.mem_singleton.mp hMem]
    exact isName_of_isBump hi hNames hResolved hLast

omit hDistinct in
theorem plain_calledProgram {pos : SourcePos} {c : CrossProgramCall}
    (hCall : .call pos c ∈ r.source.body) : (calledProgram r c.action).Plain := by
  obtain ⟨id, hId⟩ : ∃ id, calledProgram r c.action = .accountInfo id := by
    unfold calledProgram
    split <;> exact ⟨_, rfl⟩
  have hProgram : InScope ⟨p, r⟩ [] (calledProgram r c.action) :=
    calledProgram_inScope hResolved hCall
  rw [hId] at hProgram ⊢
  have hNamed := named_ofInstruction hi hNames hResolved
  exact (Rust.Expr.Chain.accountInfo (hNamed.of_hasAccount (hasAccount_of_inScope hProgram))).plain

theorem spelled_invocation {generated bound : List Text} {index : Nat} {pos : SourcePos}
    {c : CrossProgramCall} {inv : Invocation}
    (hIndex : r.source.body[index]? = some (.call pos c))
    (h : invocation ⟨p, r⟩ names generated bound index c = .ok inv)
    (hAmount : inv.amount.Readable) : ∀ s ∈ Rust.invocationStmts inv, s.Spelled := by
  have hNamed := named_ofInstruction hi hNames hResolved
  have hCall := List.mem_of_getElem? hIndex
  have hGenerated := isOutputName_of_fixedNames h
  simp only [invocation, bind_eq_ok_iff, pure_eq_ok_iff] at h
  obtain ⟨amount, _, rfl⟩ := h
  simp only [List.forall_mem_cons] at hGenerated
  obtain ⟨hAccounts, hContext, hSigner⟩ := hGenerated
  refine List.forall_mem_cons.mpr ⟨.record hAccounts (List.forall_mem_map.mpr fun f hf => ?_),
    List.forall_mem_append.mpr ⟨?_, List.forall_mem_cons.mpr
      ⟨.context hContext (plain_calledProgram hi hNames hResolved hCall)
        (Rust.oneWord_of_isOutputName hAccounts) ?_, List.forall_mem_singleton.mpr
          (.invoke (Rust.oneWord_of_isOutputName hContext) hAmount)⟩⟩⟩
  · obtain ⟨ref, hRef⟩ := Resolution.account?_of_mem_accountNames hResolved hCall
      (mem_participants_of_fields f hf)
    refine ⟨oneWord_of_fields f hf, ?_⟩
    exact (Rust.Expr.Chain.accountInfo (hNamed.of_hasAccount (hasAccount_of_account? hRef))).plain
  · cases hSeeds : c.signerSeeds with
    | none => exact List.forall_mem_nil _
    | some vs =>
      rw [hSeeds] at hSigner
      obtain ⟨hBuffers, hElements⟩ := spelled_signerSeedList (generated ++ names.map Prod.fst)
        (isName_of_seedsAt? hi hNames hDistinct hResolved hIndex hSeeds)
      refine List.forall_mem_append.mpr ⟨List.forall_mem_map.mpr fun b hb => ?_,
        List.forall_mem_singleton.mpr (.seeds (hSigner _ List.mem_cons_self) hElements)⟩
      obtain ⟨hName, hValue⟩ := hBuffers b hb
      have hBind : (Rust.Stmt.bind b.name false none b.value).Spelled :=
        .bind hName (by rintro _ ⟨⟩) hValue.1
      exact hBind
  · exact fun s hs => Rust.oneWord_of_isOutputName (hSigner s (Option.mem_toList.mpr hs))

/-- The value that a statement of the handler is computed with. -/
theorem spelled_of_carriedOut {c : Program.BodyContext} {s : Syntax.Statement} {t : HandlerStmt}
    (hParams : c.params = r.source.params) (hWell : s.WellFormed)
    (hCarried : CarriedOut c ⟨p, r⟩ names s t) : ∀ u ∈ Rust.stmtsOf t, u.Spelled := by
  obtain ⟨st, index, hExtracts, hIndex, hTranslates⟩ := hCarried
  have hValue {v : Value} {e : Syntax.Expr} {bound : List Text} {x : Rust.Expr}
      (hv : st.value? = some v) (hStands : Program.valueOf c e = .ok v) (he : e.WellFormed)
      (hx : exprOf ⟨p, r⟩ bound v = .ok x) : x.Readable := by
    obtain ⟨tree, _, hSpells, hGrouped⟩ := spells_of_exprOf hDistinct hResolved hParams hIndex hv
      (Program.standsFor_of_valueOf hStands) he hx
    exact ⟨tree, hSpells, hGrouped⟩
  cases hTranslates with
  | write hExpr =>
    cases hExtracts with
    | @assign _ _ _ account field _ hTarget hStands =>
      cases hWell _ List.mem_cons_self with
      | assign hTargetWell hValueWell =>
        have hWords := hTargetWell.path?_isName hTarget
        have hPlace := Rust.Expr.Chain.contextField
          (Rust.isOutputName_ident (hWords account (by simp)))
          (Rust.isOutputName_ident (hWords field (by simp)))
        exact List.forall_mem_singleton.mpr
          (.assign hPlace.plain (hValue rfl hStands hValueWell hExpr))
  | @bind bound pos l x hExpr =>
    cases hExtracts with
    | bind _ hStands =>
      have hName := isName_variable hi hNames
        (List.mem_map_of_mem (List.mem_filterMap.mpr ⟨_, List.mem_of_getElem? hIndex, rfl⟩))
      refine List.forall_mem_singleton.mpr (.bind (Rust.isOutputName_ident hName) ?_
        (hValue rfl hStands (hWell _ List.mem_cons_self) hExpr))
      intro type hType
      obtain ⟨d, hd, rfl⟩ := Option.map_eq_some_iff.mp hType
      obtain ⟨before, after, hBody, rfl⟩ := exists_split_of_getElem? hIndex
      obtain ⟨sc, _, hStep, _⟩ := Resolution.exists_established_step hResolved hBody
      cases hStep with
      | bind _ hDeclared =>
        rcases hDeclared with ⟨hNone, _⟩ | ⟨t, hSome, _⟩
        · exact absurd (hNone.symm.trans hd) nofun
        · obtain rfl := Option.some.inj (hSome.symm.trans hd)
          exact Rust.isType_kind t.kind
  | @invoke generated bound pos call inv hInvocation =>
    cases hExtracts with
    | @call _ _ _ _ _ k args _ hKind hCall =>
      cases hWell _ List.mem_cons_self with
      | call _ hArgs =>
        obtain ⟨parties, amount, rest, hDrop, _, hParties, hAction, hStands, _⟩ :=
          Program.crossProgramCall_ok hCall
        have hAmount : args[k.parties]? = some amount := by
          rw [← List.head?_drop, hDrop]
          rfl
        refine spelled_invocation hi hNames hDistinct hResolved hIndex hInvocation ?_
        simp only [invocation, bind_eq_ok_iff, pure_eq_ok_iff] at hInvocation
        obtain ⟨x, hExpr, rfl⟩ := hInvocation
        exact hValue rfl hStands (hArgs amount (List.mem_of_getElem? hAmount)) hExpr

end Instruction

end Handler

theorem extractProgram_programId {o : CompileOptions} {name src : Text} {p : Program}
    (h : extractProgram o name src = .ok p) : ∀ b ∈ p.programId, b ∈ Base58.alphabet := by
  obtain ⟨f, _, hFile⟩ := bind_eq_ok_iff.mp h
  simp only [Program.ofFile, bind_eq_ok_iff, pure_eq_ok_iff] at hFile
  obtain ⟨_, _, _, _, _, _, id, hId, _, _, rfl⟩ := hFile
  obtain ⟨_, _, _, _, _, _, _, hKey⟩ := Program.declaredId_ok hId
  exact ProgramId.mem_alphabet hKey

theorem handlerSpelled_of_translated {o : CompileOptions} {file : Text} {p : Program}
    {m : Syntax.MethodDecl} {r : ResolvedInstruction} {t : Handler}
    (hi : r.source ∈ p.instructions) (hNames : ∀ n ∈ p.declaredNames, IsName n)
    (hDistinct : r.source.DistinctParams) (hWell : ∀ s ∈ m.body, s.WellFormed)
    (h : Translated o file p m r t) : Rust.HandlerSpelled t := by
  have hName : IsName r.source.name :=
    hNames _ (Program.mem_declaredNames_of_instruction hi List.mem_cons_self)
  obtain ⟨hHandlerName, hContext, hArgs⟩ := Handler.heading_of_ofInstruction h.handler
  constructor
  · rw [hHandlerName]
    exact Rust.oneWord_of_isOutputName (Rust.isOutputName_ident hName)
  · rw [hContext]
    exact Rust.oneWord_of_isWord (Rust.isWord_contextName hName.isWord)
  · rw [hArgs]
    exact argSpelled_argsOf hi hNames
  · obtain ⟨names, hCarried⟩ := h.carriedOut
    intro u hu
    obtain ⟨t', ht', hu⟩ := List.mem_flatMap.mp hu
    obtain ⟨s, hs, hST⟩ := exists_of_mem_right hCarried ht'
    exact Handler.spelled_of_carriedOut hi hNames hDistinct h.resolved rfl
      (hWell s (List.mem_filter.mp hs).1) hST u hu

/-- What an accepted source is printed with is read back. -/
theorem compile_spelled {o : CompileOptions} {name src : Text} {r : ResolvedProgram}
    {hs : List Handler} (h : resolveSource o name src = .ok r) (hHandlers : r.handlers = .ok hs) :
    (Rust.Crate.ofProgram r hs).Spelled := by
  obtain ⟨p, hExtracted, hp⟩ := bind_eq_ok_iff.mp h
  obtain ⟨rfl, _⟩ := Program.resolve_eq_ok_iff.mp hp
  have hNames := extractProgram_isName hExtracted
  have hDeclared := extractProgram_declared hExtracted
  have hState {st : StateType} (hst : st ∈ r.source.states) : IsName st.name :=
    hNames _ (Program.mem_declaredNames_of_state hst List.mem_cons_self)
  constructor
  · exact extractProgram_programId hExtracted
  · refine List.forall_mem_map.mpr fun st hst => ⟨?_, List.forall_mem_map.mpr fun f hf => ?_⟩
    · exact Rust.oneWord_of_isWord (hState hst).isWord
    · have hField := hNames _ (Program.mem_declaredNames_of_state hst
        (List.mem_cons_of_mem _ (List.mem_map_of_mem hf)))
      exact ⟨Rust.oneWord_of_isOutputName (Rust.isOutputName_ident hField),
        Rust.isType_kind f.type.kind⟩
  · refine List.forall_mem_map.mpr fun i hi => ?_
    obtain ⟨hDistinct, hResolved⟩ := resolveSource_of_mem h hi
    obtain ⟨hSource, _⟩ := Program.resolved_of_mem hp hi
    exact spelled_context hSource hNames hResolved hDistinct (hDeclared _ hSource)
  · exact Rust.oneWord_of_isWord
      (Rust.isWord_snakeCase (hNames r.source.name List.mem_cons_self).isWord)
  · obtain ⟨f, cls, hParsed, hClass, hLength, hTranslated⟩ := translated_of_handlers h hHandlers
    have hWell := Syntax.parse_wellFormed hParsed cls (Program.mem_of_programClass hClass)
    intro t ht
    rw [← List.map_snd_zip hLength.ge] at ht
    obtain ⟨⟨i, t⟩, hPair, rfl⟩ := List.mem_map.mp ht
    have hi := (List.of_mem_zip hPair).1
    obtain ⟨m, hm, hMethod⟩ := exists_of_mem_right hTranslated hPair
    exact handlerSpelled_of_translated (Program.resolved_of_mem hp hi).1 hNames
      (resolveSource_of_mem h hi).1 (hWell m hm) hMethod

/-- There is a function for each instruction, called like it. -/
theorem functionNames_of_handlers {o : CompileOptions} {name src : Text} {r : ResolvedProgram}
    {hs : List Handler} (h : resolveSource o name src = .ok r) (hHandlers : r.handlers = .ok hs) :
    (Rust.Crate.ofProgram r hs).source.functions.map (·.name) =
      r.source.instructions.map (Rust.ident ·.name) := by
  obtain ⟨p, _, hp⟩ := bind_eq_ok_iff.mp h
  obtain ⟨rfl, _⟩ := Program.resolve_eq_ok_iff.mp hp
  have hFunctions : (hs.map Rust.Function.ofHandler).map (·.name) = hs.map (·.name) := List.map_map
  have hIdents : r.source.instructionNames.map Rust.ident =
      r.source.instructions.map (Rust.ident ·.name) := List.map_map
  rw [← hIdents, ← Program.instructionNames_of_resolve hp]
  exact hFunctions.trans (handlerNames_of_handlers hHandlers)

/-- The text that is emitted is read as the program that it was printed from. -/
theorem compile_read {o : CompileOptions} {name src : Text} {out : CompileOutput}
    (h : compile o name src = .ok out) :
    ∃ r hs, resolveSource o name src = .ok r ∧ r.handlers = .ok hs ∧ out.program = r.source ∧
      Rust.readSource out.rust = some (Rust.Crate.ofProgram r hs).source := by
  simp only [compile, bind_eq_ok_iff, pure_eq_ok_iff] at h
  obtain ⟨r, hResolved, hs, hHandlers, rfl⟩ := h
  exact ⟨r, hs, hResolved, hHandlers, rfl, Rust.readSource_text (compile_spelled hResolved hHandlers)⟩

end AnchorScript
