import AnchorScript.Proofs.Compiler.PrintedCrate
import AnchorScript.Proofs.Interface.Reading

/-!
# Descriptions of accepted programs are read back

All that the description of an accepted program shows are names of the program, types and addresses
in base 58. None of it is lost in the text, which is read as the description.
-/

namespace AnchorScript

open Outcome

namespace Base58

theorem isAscii_alphabet : Text.IsAscii alphabet := by
  simp (disch := rfl) only [alphabet, Text.ofString_literal]
  decide

theorem isAscii_digits (n : Nat) : Text.IsAscii (digits n) := by
  induction n using digits.induct with
  | case1 =>
    rw [digits, if_pos rfl]
    exact List.forall_mem_nil _
  | case2 n hn ih =>
    rw [digits, if_neg hn]
    refine List.forall_mem_append.mpr ⟨ih, List.forall_mem_singleton.mpr ?_⟩
    rcases h : alphabet[n % 58]? with _ | b
    · rw [List.getD_eq_getElem?_getD, h]
      decide
    · rw [List.getD_eq_getElem?_getD, h]
      exact isAscii_alphabet b (List.mem_of_getElem? h)

theorem isAscii_encode (s : Text) : Text.IsAscii (encode s) :=
  List.forall_mem_append.mpr
    ⟨List.forall_mem_map.mpr fun _ _ => by decide, isAscii_digits _⟩

end Base58

theorem isAscii_snakeCase {n : Text} (h : IsName n) : Text.IsAscii (Rust.snakeCase n) :=
  isAscii_of_isWord (Rust.isWord_snakeCase h.isWord)

namespace Interface

open Text

theorem isAscii_interfaceName (k : ValueKind) : IsAscii k.interfaceName := by
  cases k with
  | int t =>
    have hSign (signed : Bool) : IsAscii (ofString (if signed then "i" else "u")) := by
      cases signed <;> decide
    refine List.forall_mem_append.mpr ⟨hSign t.signed, fun b hb => ?_⟩
    exact Lexer.isIdentPart_lt (isIdentPart_of_isDigit b (Json.isDigit_ofNat _ b hb))
  | bool => exact (by decide : IsAscii "bool")
  | string => exact (by decide : IsAscii "string")
  | pubkey => exact (by decide : IsAscii "pubkey")

theorem isAscii_seedSpec {s : SeedSource} (h : ∀ n ∈ s.names, IsName n) :
    ∀ t ∈ (seedSpec s).texts, IsAscii t := by
  cases s with
  | literal => exact nofun
  | accountKey account =>
    exact List.forall_mem_singleton.mpr (isAscii_snakeCase (h _ List.mem_cons_self))
  | stateField ref =>
    have hAccount := isAscii_snakeCase (h ref.account List.mem_cons_self)
    have hField := isAscii_snakeCase (h ref.field (List.mem_cons_of_mem _ List.mem_cons_self))
    have hDot : IsAscii (Text.ofString ".") := by decide
    exact List.forall_mem_singleton.mpr
      (List.forall_mem_append.mpr ⟨List.forall_mem_append.mpr ⟨hAccount, hDot⟩, hField⟩)
  | argument name =>
    exact List.forall_mem_singleton.mpr (isAscii_snakeCase (h _ List.mem_cons_self))
  | bump => exact List.forall_mem_singleton.mpr (by decide)

section Instruction

variable {p : Program} {r : ResolvedInstruction} (hi : r.source ∈ p.instructions)
  (hNames : ∀ n ∈ p.declaredNames, IsName n) (hDistinct : r.source.DistinctParams)
  (hResolved : Resolution.resolveInstruction p r.source = .ok r)

include hi hNames hResolved

theorem isName_of_mem_accounts {a : AccountRef} (ha : a ∈ r.accounts) : IsName a.name := by
  obtain ⟨q, hq, hName, _⟩ := Resolution.exists_param_of_mem hResolved ha
  exact hName ▸ isName_param hi hNames hq

theorem isAscii_party {a : AccountRef} (ha : a ∈ r.accounts) :
    IsAscii (Rust.snakeCase (a.token.getD ⟨[], []⟩).mint) ∧
      IsAscii (Rust.snakeCase (a.token.getD ⟨[], []⟩).authority) := by
  have hAccount {n : Text} (hn : n ∈ r.accounts.map (·.name)) : IsAscii (Rust.snakeCase n) := by
    obtain ⟨b, hb, rfl⟩ := List.mem_map.mp hn
    exact isAscii_snakeCase (isName_of_mem_accounts hi hNames hResolved hb)
  cases hToken : a.token with
  | none =>
    have hEmpty : IsAscii (Rust.snakeCase []) := by decide +kernel
    exact ⟨hEmpty, hEmpty⟩
  | some t =>
    obtain ⟨hMint, hAuthority⟩ := (Resolution.refers_of_mem hResolved ha).origin.parties t hToken
    exact ⟨hAccount hMint, hAccount hAuthority⟩

include hDistinct

theorem isAscii_derivationSpec {a : AccountRef} (ha : a ∈ r.accounts) :
    ∀ d ∈ derivationSpec a, ∀ t ∈ d.texts, IsAscii t := by
  have hSeeds : ∀ s ∈ a.address.seeds, ∀ t ∈ (seedSpec s.source).texts, IsAscii t := by
    intro s hs
    obtain ⟨v, hSeed⟩ := isSeed_of_mem_seeds hDistinct hResolved ha s hs
    exact isAscii_seedSpec (isName_of_isSeed hi hNames hSeed)
  intro d hd t ht
  unfold derivationSpec at hd
  cases hAddress : a.address with
  | given =>
    rw [hAddress] at hd
    cases hd
  | found ss | stored ss bump =>
    rw [hAddress] at hd hSeeds
    obtain rfl := Option.some.inj hd
    obtain ⟨s', hs', ht⟩ := List.mem_flatMap.mp ht
    rw [Option.toList_none, List.append_nil] at hs'
    obtain ⟨s, hs, rfl⟩ := List.mem_map.mp hs'
    exact hSeeds s hs t ht
  | associated =>
    rw [hAddress] at hd
    obtain rfl := Option.some.inj hd
    obtain ⟨hMint, hAuthority⟩ := isAscii_party hi hNames hResolved ha
    revert t
    exact List.forall_mem_cons.mpr ⟨hAuthority, List.forall_mem_singleton.mpr hMint⟩

omit hi hNames hDistinct hResolved in
theorem isAscii_fixedAddress? (a : AccountRef) (programId : Text) :
    ∀ t ∈ fixedAddress? a programId, IsAscii t := by
  have hConstant (seeds : List Seed) : ∀ t ∈ constantAddress? seeds programId, IsAscii t := by
    intro t ht
    simp only [constantAddress?, Option.bind_eq_bind, Option.mem_def, Option.bind_eq_some_iff,
      Option.pure_def, Option.some.injEq] at ht
    obtain ⟨_, _, key, _, rfl⟩ := ht
    exact Base58.isAscii_encode key
  intro t ht
  unfold fixedAddress? at ht
  split at ht
  · cases ht
    decide
  · cases hAddress : a.address with
    | given | associated =>
      rw [hAddress] at ht
      cases ht
    | found ss | stored ss bump =>
      rw [hAddress] at ht
      exact hConstant ss t ht

theorem isAscii_accountSpec {programId : Text} {a : AccountRef} (ha : a ∈ r.accounts) :
    ∀ t ∈ (accountSpec programId a).texts, IsAscii t := by
  refine List.forall_mem_append.mpr ⟨List.forall_mem_cons.mpr ⟨?_, fun t ht => ?_⟩, fun t ht => ?_⟩
  · exact isAscii_snakeCase (isName_of_mem_accounts hi hNames hResolved ha)
  · exact isAscii_fixedAddress? a programId t (Option.mem_toList.mp ht)
  · obtain ⟨d, hd, ht⟩ := List.mem_flatMap.mp ht
    exact isAscii_derivationSpec hi hNames hDistinct hResolved ha d (Option.mem_toList.mp hd) t ht

theorem isAscii_instructionSpec (programId : Text) :
    ∀ t ∈ (instructionSpec programId r).texts, IsAscii t := by
  refine List.forall_mem_append.mpr ⟨List.forall_mem_cons.mpr ⟨?_, ?_⟩, ?_⟩
  · exact isAscii_snakeCase
      (hNames _ (Program.mem_declaredNames_of_instruction hi List.mem_cons_self))
  · refine List.forall_mem_flatMap.mpr (List.forall_mem_append.mpr ⟨?_, ?_⟩)
    · exact List.forall_mem_map.mpr fun a ha =>
        isAscii_accountSpec hi hNames hDistinct hResolved ha
    · refine List.forall_mem_map.mpr fun q _ => ?_
      cases q <;> decide
  · refine List.forall_mem_flatMap.mpr (List.forall_mem_map.mpr fun q hq => ?_)
    refine List.forall_mem_cons.mpr
      ⟨isAscii_snakeCase (isName_param hi hNames (List.mem_filter.mp hq).1), ?_⟩
    refine List.forall_mem_singleton.mpr ?_
    cases hType : q.type.value? with
    | none =>
      rw [argSpec, hType]
      exact List.forall_mem_nil _
    | some t =>
      rw [argSpec, hType]
      exact isAscii_interfaceName t.kind

end Instruction

theorem isAscii_description {o : CompileOptions} {name src : Text} {r : ResolvedProgram}
    (h : resolveSource o name src = .ok r) :
    ∀ t ∈ (Description.ofProgram r).texts, IsAscii t := by
  obtain ⟨p, hExtracted, hp⟩ := bind_eq_ok_iff.mp h
  obtain ⟨rfl, _⟩ := Program.resolve_eq_ok_iff.mp hp
  have hNames := extractProgram_isName hExtracted
  refine List.forall_mem_append.mpr ⟨List.forall_mem_cons.mpr ⟨fun b hb => ?_,
    List.forall_mem_cons.mpr ⟨?_, ?_⟩⟩, ?_⟩
  · exact Base58.isAscii_alphabet b (extractProgram_programId hExtracted b hb)
  · exact isAscii_snakeCase (hNames r.source.name List.mem_cons_self)
  · refine List.forall_mem_flatMap.mpr (List.forall_mem_map.mpr fun i hi => ?_)
    obtain ⟨hDistinct, hResolved⟩ := resolveSource_of_mem h hi
    exact isAscii_instructionSpec (Program.resolved_of_mem hp hi).1 hNames hDistinct hResolved _
  · refine List.forall_mem_flatMap.mpr (List.forall_mem_map.mpr fun st hst => ?_)
    refine List.forall_mem_cons.mpr ⟨isAscii_of_isWord (hNames _
      (Program.mem_declaredNames_of_state hst List.mem_cons_self)).isWord, ?_⟩
    refine List.forall_mem_flatMap.mpr (List.forall_mem_map.mpr fun f hf => ?_)
    exact List.forall_mem_cons.mpr ⟨isAscii_snakeCase (hNames _
      (Program.mem_declaredNames_of_state hst (List.mem_cons_of_mem _ (List.mem_map_of_mem hf)))),
      List.forall_mem_singleton.mpr (isAscii_interfaceName f.type.kind)⟩

end Interface

/-- The description that is emitted is read as the one that was printed. -/
theorem resolveSource_described {o : CompileOptions} {name src : Text} {r : ResolvedProgram}
    (h : resolveSource o name src = .ok r) :
    Interface.readDescription (Interface.Description.ofProgram r).text =
      some (.ofProgram r) :=
  Interface.readDescription_text (Interface.isAscii_description h)

/-- An instruction and what is read for it in the emitted texts. -/
structure EmittedInstruction where
  instruction : ResolvedInstruction
  context : Rust.ContextStruct
  function : Rust.Function
  description : Interface.InstructionSpec

/-- What is read for an instruction and its handler. -/
def EmittedInstruction.ofPair (programId : Text) (it : ResolvedInstruction × Handler) :
    EmittedInstruction :=
  ⟨it.1, .ofInstruction it.1, .ofHandler it.2, Interface.instructionSpec programId it.1⟩

/-- The texts hold the states of the program and, in order, what is listed for its instructions. -/
structure EmittedFor (r : ResolvedProgram) (s : Rust.Source) (d : Interface.Description)
    (es : List EmittedInstruction) : Prop where
  states : s.states = r.source.states.map .ofState
  instructions : es.map (·.instruction) = r.instructions
  contexts : es.map (·.context) = s.contexts
  functions : es.map (·.function) = s.functions
  descriptions : es.map (·.description) = d.instructions

theorem EmittedFor.map_eq {r : ResolvedProgram} {s : Rust.Source} {d : Interface.Description}
    {es : List EmittedInstruction} (h : EmittedFor r s d es) {β : Type}
    (note : ResolvedInstruction → Rust.Function → β) :
    es.map (fun e => note e.instruction e.function) =
      List.zipWith note r.instructions s.functions := by
  rw [← h.instructions, ← h.functions, List.zipWith_map, List.zipWith_self]

theorem emittedFor_ofPair {r : ResolvedProgram} {hs : List Handler}
    (hLength : r.instructions.length = hs.length) :
    EmittedFor r (Rust.Crate.ofProgram r hs).source (.ofProgram r)
      ((r.instructions.zip hs).map (.ofPair r.source.programId)) := by
  have hFirst {β : Type} (f : ResolvedInstruction → β) :
      (r.instructions.zip hs).map (f ∘ Prod.fst) = r.instructions.map f := by
    rw [← List.map_map, List.map_fst_zip hLength.le]
  have hSecond {β : Type} (f : Handler → β) :
      (r.instructions.zip hs).map (f ∘ Prod.snd) = hs.map f := by
    rw [← List.map_map, List.map_snd_zip hLength.ge]
  constructor
  · rfl
  · exact List.map_map.trans ((hFirst id).trans (List.map_id _))
  · exact List.map_map.trans (hFirst Rust.ContextStruct.ofInstruction)
  · exact List.map_map.trans (hSecond Rust.Function.ofHandler)
  · exact List.map_map.trans (hFirst (Interface.instructionSpec r.source.programId))

/-- The texts that are emitted are read as what they were printed from. -/
theorem compile_emitted {o : CompileOptions} {name src : Text} {out : CompileOutput}
    (h : compile o name src = .ok out) :
    ∃ r hs s d, resolveSource o name src = .ok r ∧ r.handlers = .ok hs ∧
      Rust.readSource out.rust = some s ∧
      (∀ t, out.interface = some t → Interface.readDescription t = some d) ∧
      EmittedFor r s d ((r.instructions.zip hs).map (.ofPair r.source.programId)) := by
  obtain ⟨r, hs, hResolved, hHandlers, -, hInterface⟩ := compile_ok h
  obtain ⟨r', hs', hResolved', hHandlers', -, hRead⟩ := compile_read h
  obtain rfl : r = r' := Except.ok.inj (hResolved.symm.trans hResolved')
  obtain rfl : hs = hs' := Except.ok.inj (hHandlers.symm.trans hHandlers')
  refine ⟨r, hs, _, .ofProgram r, hResolved, hHandlers, hRead, ?_,
    emittedFor_ofPair (mapM_eq_ok_iff.mp hHandlers).length_eq⟩
  intro t ht
  rw [hInterface t ht]
  exact resolveSource_described hResolved

/-- What is noted of the instructions and their functions in the text can be noted of the handlers
that are printed. -/
theorem map_of_handlers {o : CompileOptions} {name src : Text} {out : CompileOutput}
    (h : compile o name src = .ok out) {r : ResolvedProgram}
    (hResolved : resolveSource o name src = .ok r) {hs : List Handler}
    (hHandlers : r.handlers = .ok hs) {s : Rust.Source} (hRead : Rust.readSource out.rust = some s)
    {d : Interface.Description} {es : List EmittedInstruction} (hEmitted : EmittedFor r s d es)
    {β : Type} (note : ResolvedInstruction → Rust.Function → β) :
    es.map (fun e => note e.instruction e.function) =
      List.zipWith note r.instructions (hs.map .ofHandler) := by
  obtain ⟨r', hs', hResolved', hHandlers', -, hRead'⟩ := compile_read h
  obtain rfl : r = r' := Except.ok.inj (hResolved.symm.trans hResolved')
  obtain rfl : hs = hs' := Except.ok.inj (hHandlers.symm.trans hHandlers')
  obtain rfl : s = _ := Option.some.inj (hRead.symm.trans hRead')
  exact hEmitted.map_eq note

end AnchorScript
