import AnchorScript.Proofs.Handler.Statements
import AnchorScript.Proofs.Program.ValueTypes
import AnchorScript.Proofs.Resolution.SeedList
import AnchorScript.Proofs.Rust.NameCase
import AnchorScript.Proofs.Syntax.DeclaredNames

/-!
# Different declarations, different names

The instructions of a program and the fields of a state type have different names in the source, but
nothing compares the names that the output gives them. Each kind of name in the output is therefore
distinct exactly where the respelling it comes from tells the source names apart. A program whose
names are in camel case, and whose state types are not named like contexts, has only distinct names.
-/

namespace AnchorScript

open Outcome

/-- Two of the names are different, and spelled the same. -/
def SpelledAlike (spell : Text → Text) (names : List Text) : Prop :=
  ∃ m ∈ names, ∃ n ∈ names, m ≠ n ∧ spell m = spell n

section Spelling

variable {spell spell' : Text → Text} {names : List Text}

theorem nodup_map_iff_not_spelledAlike (h : names.Nodup) :
    (names.map spell).Nodup ↔ ¬SpelledAlike spell names := by
  rw [List.nodup_map_iff_inj_on h]
  constructor
  · rintro hInj ⟨m, hm, n, hn, hDifferent, hSame⟩
    exact hDifferent (hInj m hm n hn hSame)
  · intro hNone m hm n hn hSame
    by_contra hDifferent
    exact hNone ⟨m, hm, n, hn, hDifferent, hSame⟩

theorem spelledAlike_congr
    (h : ∀ m ∈ names, ∀ n ∈ names, spell m = spell n ↔ spell' m = spell' n) :
    SpelledAlike spell names ↔ SpelledAlike spell' names := by
  constructor
  · rintro ⟨m, hm, n, hn, hDifferent, hSame⟩
    exact ⟨m, hm, n, hn, hDifferent, (h m hm n hn).mp hSame⟩
  · rintro ⟨m, hm, n, hn, hDifferent, hSame⟩
    exact ⟨m, hm, n, hn, hDifferent, (h m hm n hn).mpr hSame⟩

theorem nodup_idents_iff (h : names.Nodup) (hWords : ∀ n ∈ names, IsWord n) :
    (names.map Rust.ident).Nodup ↔ ¬SpelledAlike Rust.snakeCase names := by
  rw [nodup_map_iff_not_spelledAlike h, spelledAlike_congr]
  exact fun m hm n hn => Rust.ident_eq_iff (hWords m hm) (hWords n hn)

theorem not_spelledAlike_snakeCase (h : ∀ n ∈ names, Rust.isCamelCase n = true) :
    ¬SpelledAlike Rust.snakeCase names := by
  rintro ⟨m, hm, n, hn, hDifferent, hSame⟩
  exact hDifferent (Rust.snakeCase_injOn_isCamelCase (h m hm) (h n hn) hSame)

theorem not_spelledAlike_pascalCase (h : ∀ n ∈ names, Rust.isCamelCase n = true) :
    ¬SpelledAlike Rust.pascalCase names := by
  rintro ⟨m, hm, n, hn, hDifferent, hSame⟩
  exact hDifferent (Rust.pascalCase_injOn_isCamelCase (h m hm) (h n hn) hSame)

end Spelling

def Program.instructionNames (p : Program) : List Text := p.instructions.map (·.name)

def StateType.fieldNames (s : StateType) : List Text := s.fields.map (·.name)

def Instruction.declaredNames (i : Instruction) : List Text :=
  i.name :: i.declarations.map Prod.fst

/-- Every name that the source gives: to the program, to its instructions with their parameters and
variables, and to its state types with their fields. -/
def Program.declaredNames (p : Program) : List Text :=
  p.name :: (p.instructions.flatMap Instruction.declaredNames ++
    p.states.flatMap fun s => s.name :: s.fieldNames)

theorem Program.mem_declaredNames_of_instruction {p : Program} {i : Instruction} {n : Text}
    (hi : i ∈ p.instructions) (hn : n ∈ i.declaredNames) : n ∈ p.declaredNames :=
  List.mem_cons_of_mem _ (List.mem_append_left _ (List.mem_flatMap.mpr ⟨i, hi, hn⟩))

theorem Program.mem_declaredNames_of_state {p : Program} {st : StateType} {n : Text}
    (hst : st ∈ p.states) (hn : n ∈ st.name :: st.fieldNames) : n ∈ p.declaredNames :=
  List.mem_cons_of_mem _ (List.mem_append_right _ (List.mem_flatMap.mpr ⟨st, hst, hn⟩))

/-- Declared names are words, and different among the instructions and among the fields of a state
type. -/
structure Program.NamedApart (p : Program) : Prop where
  instructions : p.instructionNames.Nodup
  instructionWords : ∀ n ∈ p.instructionNames, IsWord n
  fields : ∀ s ∈ p.states, s.fieldNames.Nodup
  fieldWords : ∀ s ∈ p.states, ∀ n ∈ s.fieldNames, IsWord n

namespace Program

variable {file : Text} {s : Settings} {isState : Text → Bool}

theorem stateFields_unseen {stateName : Text} {seen : List Text} {fs : List Syntax.FieldDecl}
    {fields : List StateField} (h : stateFields file s stateName isState seen fs = .ok fields) :
    fields.map (·.name) = fs.map (·.name) ∧ Unseen seen (fields.map (·.name)) := by
  fun_induction stateFields file s stateName isState seen fs generalizing fields with
  | case1 =>
    cases h
    exact ⟨rfl, List.nodup_nil, by simp⟩
  | case2 => cases h
  | case3 seen f fs hSeen type hType ih =>
    simp only [bind_eq_ok_iff, pure_eq_ok_iff] at h
    obtain ⟨rest, hRest, rfl⟩ := h
    obtain ⟨hNames, hUnseen⟩ := ih hRest
    exact ⟨congrArg (f.name :: ·) hNames, hUnseen.cons (by simpa using hSeen)⟩
  | case4 => cases h

theorem fieldNames_of_stateType {d : Syntax.InterfaceDecl} {st : StateType}
    (h : stateType file s isState d = .ok st) :
    st.fieldNames = d.fields.map (·.name) ∧ st.fieldNames.Nodup := by
  simp only [stateType, bind_eq_ok_iff, pure_eq_ok_iff] at h
  obtain ⟨fields, hFields, rfl⟩ := h
  obtain ⟨hNames, hUnseen⟩ := stateFields_unseen hFields
  exact ⟨hNames, hUnseen.1⟩

theorem paramsOf_names {instruction : Text} {seen : List Text} {fs : List Syntax.FieldDecl}
    {params : List Param} (h : paramsOf file s instruction isState seen fs = .ok params) :
    params.map (·.name) = fs.map (·.name) := by
  fun_induction paramsOf file s instruction isState seen fs generalizing params with
  | case1 =>
    cases h
    rfl
  | case2 => cases h
  | case3 seen f fs hSeen type hType ih =>
    simp only [bind_eq_ok_iff, pure_eq_ok_iff] at h
    obtain ⟨rest, hRest, rfl⟩ := h
    exact congrArg (f.name :: ·) (ih hRest)
  | case4 => cases h

theorem declaredNames_of_instructionOf {m : Syntax.MethodDecl} {i : Instruction}
    (h : instructionOf file s isState m = .ok i) : i.declaredNames ⊆ m.names := by
  have hMethod := extractsMethod_of_instructionOf h
  simp only [instructionOf, refused_or_eq_ok_iff, bind_eq_ok_iff, pure_eq_ok_iff] at h
  obtain ⟨_, _, _, params, hParams, body, _, rfl⟩ := h
  refine List.cons_subset_cons _ fun n hn => ?_
  obtain ⟨⟨_, pos⟩, hd, rfl⟩ := List.mem_map.mp hn
  rcases List.mem_append.mp hd with hd | hd
  · obtain ⟨q, hq, hSame⟩ := List.mem_map.mp hd
    cases hSame
    rw [← paramsOf_names hParams]
    exact List.mem_append_left _ (List.mem_map_of_mem hq)
  · obtain ⟨st, hst, hDeclares⟩ := List.mem_filterMap.mp hd
    obtain ⟨source, hSource, hExtracts⟩ := exists_of_mem_right hMethod.body hst
    have hMem := (List.mem_filter.mp hSource).1
    cases hExtracts with
    | bind =>
      cases hDeclares
      exact List.mem_append_right _ (List.mem_filterMap.mpr ⟨_, hMem, rfl⟩)
    | _ => cases hDeclares

theorem declaredNames_of_instructionsOf {seen : List Text} {ms : List Syntax.MethodDecl}
    {is : List Instruction} (h : instructionsOf file s isState seen ms = .ok is) :
    is.flatMap Instruction.declaredNames ⊆ ms.flatMap Syntax.MethodDecl.names := by
  induction ms generalizing seen is with
  | nil =>
    cases h
    exact List.Subset.refl _
  | cons m ms ih =>
    simp only [instructionsOf, refused_or_eq_ok_iff, bind_eq_ok_iff, pure_eq_ok_iff] at h
    obtain ⟨_, i, hi, is', his, rfl⟩ := h
    rw [List.flatMap_cons, List.flatMap_cons]
    intro n hn
    rcases List.mem_append.mp hn with hn | hn
    · exact List.mem_append_left _ (declaredNames_of_instructionOf hi hn)
    · exact List.mem_append_right _ (ih his hn)

end Program

/-- The names that an extracted program declares are identifiers of its source. -/
theorem extractProgram_isName {o : CompileOptions} {name src : Text} {p : Program}
    (h : extractProgram o name src = .ok p) : ∀ n ∈ p.declaredNames, IsName n := by
  obtain ⟨f, hParsed, hFile⟩ := bind_eq_ok_iff.mp h
  have hNames := Syntax.parse_isName hParsed
  simp only [Program.ofFile, bind_eq_ok_iff, pure_eq_ok_iff] at hFile
  obtain ⟨cls, hClass, _, _, states, hStates, _, _, is, his, rfl⟩ := hFile
  have hOfClass {n : Text} (hn : n ∈ cls.names) : IsName n := by
    refine hNames n (List.mem_append_left _ (List.mem_flatMap.mpr ⟨cls, ?_, hn⟩))
    exact Program.mem_of_programClass hClass
  refine List.forall_mem_cons.mpr ⟨hOfClass List.mem_cons_self, ?_⟩
  intro n hn
  rcases List.mem_append.mp hn with hn | hn
  · exact hOfClass (List.mem_cons_of_mem _ (Program.declaredNames_of_instructionsOf his hn))
  · obtain ⟨st, hst, hn⟩ := List.mem_flatMap.mp hn
    obtain ⟨d, hd, hStateType⟩ := exists_of_mem_right (mapM_eq_ok_iff.mp hStates) hst
    refine hNames n (List.mem_append_right _ (List.mem_flatMap.mpr ⟨d, (List.mem_filter.mp hd).1, ?_⟩))
    rw [(Program.fieldNames_of_stateType hStateType).1] at hn
    simp only [Program.stateType, bind_eq_ok_iff, pure_eq_ok_iff] at hStateType
    obtain ⟨_, _, rfl⟩ := hStateType
    exact hn

theorem extractProgram_namedApart {o : CompileOptions} {name src : Text} {p : Program}
    (h : extractProgram o name src = .ok p) : p.NamedApart := by
  have hNames := extractProgram_isName h
  obtain ⟨f, _, hFile⟩ := bind_eq_ok_iff.mp h
  simp only [Program.ofFile, bind_eq_ok_iff, pure_eq_ok_iff] at hFile
  obtain ⟨cls, _, _, _, states, hStates, _, _, is, his, rfl⟩ := hFile
  constructor
  · exact (Program.instructionsOf_unseen his).1
  · intro n hn
    obtain ⟨i, hi, rfl⟩ := List.mem_map.mp hn
    exact (hNames _ (Program.mem_declaredNames_of_instruction hi List.mem_cons_self)).isWord
  · intro st hst
    obtain ⟨d, _, hStateType⟩ := exists_of_mem_right (mapM_eq_ok_iff.mp hStates) hst
    exact (Program.fieldNames_of_stateType hStateType).2
  · intro st hst n hn
    exact (hNames n (Program.mem_declaredNames_of_state hst (List.mem_cons_of_mem _ hn))).isWord

/-- A program is named by a word of its source. -/
theorem isWord_of_compile {o : CompileOptions} {name src : Text} {out : CompileOutput}
    (h : compile o name src = .ok out) : IsWord out.program.name := by
  simp only [compile, bind_eq_ok_iff, pure_eq_ok_iff] at h
  obtain ⟨r, hResolved, _, _, rfl⟩ := h
  obtain ⟨p, hExtracted, hResolve⟩ := bind_eq_ok_iff.mp hResolved
  obtain ⟨rfl, _⟩ := Program.resolve_eq_ok_iff.mp hResolve
  exact (extractProgram_isName hExtracted _ List.mem_cons_self).isWord

/-- Different declarations have different names in the output: handlers, context structs and the
texts that discriminators are made from, fields of a struct, and context structs from state
structs. -/
structure DeclarationsApart (p : Program) (c : Rust.Crate) : Prop where
  handlers : (c.handlers.map (·.name)).Nodup
  contexts : (c.contexts.map (·.name)).Nodup
  preimages : (p.instructionNames.map ("global:" ++ Rust.snakeCase ·)).Nodup
  fields : ∀ t ∈ c.states, (t.fields.map (·.name)).Nodup
  structs : ∀ s ∈ c.contexts, ∀ t ∈ c.states, s.name ≠ t.name

/-- Each of them holds exactly where the spelling it comes from tells the source names apart. -/
structure ApartIffSpelledApart (p : Program) (c : Rust.Crate) : Prop where
  handlers : (c.handlers.map (·.name)).Nodup ↔ ¬SpelledAlike Rust.snakeCase p.instructionNames
  contexts : (c.contexts.map (·.name)).Nodup ↔ ¬SpelledAlike Rust.pascalCase p.instructionNames
  preimages : (p.instructionNames.map ("global:" ++ Rust.snakeCase ·)).Nodup ↔
    ¬SpelledAlike Rust.snakeCase p.instructionNames
  fields : List.Forall₂ (fun s t => (t.fields.map (·.name)).Nodup ↔
    ¬SpelledAlike Rust.snakeCase s.fieldNames) p.states c.states
  structs : (∀ s ∈ c.contexts, ∀ t ∈ c.states, s.name ≠ t.name) ↔
    ∀ n ∈ p.instructionNames, ∀ t ∈ p.states, Rust.pascalCase n ++ "Context" ≠ t.name

/-- Names as they are meant to be written. -/
structure Program.CamelCased (p : Program) : Prop where
  instructions : ∀ n ∈ p.instructionNames, Rust.isCamelCase n = true
  fields : ∀ s ∈ p.states, ∀ n ∈ s.fieldNames, Rust.isCamelCase n = true
  states : ∀ s ∈ p.states, ¬Text.ofString "Context" <:+ s.name

theorem ApartIffSpelledApart.apart {p : Program} {c : Rust.Crate} (h : ApartIffSpelledApart p c)
    (hp : p.CamelCased) : DeclarationsApart p c := by
  constructor
  · exact h.handlers.mpr (not_spelledAlike_snakeCase hp.instructions)
  · exact h.contexts.mpr (not_spelledAlike_pascalCase hp.instructions)
  · exact h.preimages.mpr (not_spelledAlike_snakeCase hp.instructions)
  · intro t ht
    obtain ⟨s, hs, hFields⟩ := exists_of_mem_right h.fields ht
    exact hFields.mpr (not_spelledAlike_snakeCase (hp.fields s hs))
  · refine h.structs.mpr fun n _ t ht hSame => hp.states t ht ?_
    exact ⟨Rust.pascalCase n, hSame⟩

theorem Program.sources_of_resolve {p : Program} {r : ResolvedProgram} (h : p.resolve = .ok r) :
    r.instructions.map (·.source) = p.instructions := by
  obtain ⟨_, hInstructions⟩ := Program.resolve_eq_ok_iff.mp h
  rw [← List.forall₂_eq_eq_eq, List.forall₂_map_left_iff]
  exact hInstructions.flip.imp fun ri i hi => Resolution.source_of_resolveInstruction hi

theorem Program.instructionNames_of_resolve {p : Program} {r : ResolvedProgram}
    (h : p.resolve = .ok r) : r.instructions.map (·.source.name) = p.instructionNames := by
  rw [Program.instructionNames, ← Program.sources_of_resolve h, List.map_map]
  rfl

theorem handlerNames_of_handlers {r : ResolvedProgram} {hs : List Handler}
    (h : r.handlers = .ok hs) :
    hs.map (·.name) = (r.instructions.map (·.source.name)).map Rust.ident := by
  rw [← List.forall₂_eq_eq_eq, List.forall₂_map_left_iff, List.map_map, List.forall₂_map_right_iff]
  exact (mapM_eq_ok_iff.mp h).flip.imp fun t i ht => (Handler.heading_of_ofInstruction ht).1

theorem apartIffSpelledApart_ofProgram {p : Program} {r : ResolvedProgram} {hs : List Handler}
    (hp : p.NamedApart) (h : p.resolve = .ok r) (hHandlers : r.handlers = .ok hs) :
    ApartIffSpelledApart p (.ofProgram r hs) := by
  have hNames := Program.instructionNames_of_resolve h
  obtain ⟨rfl, _⟩ := Program.resolve_eq_ok_iff.mp h
  have hContexts : (Rust.Crate.ofProgram r hs).contexts.map (·.name) =
      r.source.instructionNames.map Rust.contextName := by
    rw [← hNames, Rust.Crate.ofProgram, List.map_map, List.map_map]
    rfl
  constructor
  · change (hs.map (·.name)).Nodup ↔ _
    rw [handlerNames_of_handlers hHandlers, hNames]
    exact nodup_idents_iff hp.instructions hp.instructionWords
  · rw [hContexts, nodup_map_iff_not_spelledAlike hp.instructions, spelledAlike_congr]
    exact fun m _ n _ => List.append_left_inj _
  · rw [nodup_map_iff_not_spelledAlike hp.instructions, spelledAlike_congr]
    exact fun m _ n _ => List.append_right_inj _
  · rw [Rust.Crate.ofProgram, List.forall₂_map_right_iff, List.forall₂_same]
    intro s hs
    have hFields : (Rust.StateStruct.ofState s).fields.map (·.name) =
        s.fieldNames.map Rust.ident := by
      rw [Rust.StateStruct.ofState, StateType.fieldNames, List.map_map, List.map_map]
      rfl
    rw [hFields]
    exact nodup_idents_iff (hp.fields s hs) (hp.fieldWords s hs)
  · have hContext : ∀ P : Text → Prop, (∀ s ∈ (Rust.Crate.ofProgram r hs).contexts, P s.name) ↔
        ∀ n ∈ r.source.instructionNames, P (Rust.contextName n) := by
      intro P
      rw [← List.forall_mem_map (f := Rust.ContextStruct.name), hContexts, List.forall_mem_map]
    rw [hContext fun name => ∀ t ∈ (Rust.Crate.ofProgram r hs).states, name ≠ t.name]
    simp only [Rust.Crate.ofProgram, List.forall_mem_map]
    rfl

/-- The names that a compilation gives to different declarations are different exactly where the
spellings they come from are, and always where the source names are in camel case. -/
theorem compile_names_apart_iff {o : CompileOptions} {name src : Text} {out : CompileOutput}
    (h : compile o name src = .ok out) :
    ∃ r hs, resolveSource o name src = .ok r ∧ r.handlers = .ok hs ∧
      out.rust = (Rust.Crate.ofProgram r hs).text ∧
      ApartIffSpelledApart r.source (.ofProgram r hs) ∧
      (r.source.CamelCased → DeclarationsApart r.source (.ofProgram r hs)) := by
  obtain ⟨r, hs, hResolved, hHandlers, hText, _⟩ := compile_ok h
  obtain ⟨p, hExtracted, hp⟩ := bind_eq_ok_iff.mp hResolved
  have hIff : ApartIffSpelledApart p (.ofProgram r hs) :=
    apartIffSpelledApart_ofProgram (extractProgram_namedApart hExtracted) hp hHandlers
  obtain ⟨rfl, _⟩ := Program.resolve_eq_ok_iff.mp hp
  exact ⟨r, hs, hResolved, hHandlers, hText, hIff, hIff.apart⟩

/-- A program with two spellings of one instruction and of one field, in a state type that has the
name of a context. -/
def respelledSource : Text := Text.join "\n" [
  "export default class P \x7b",
  "static PROGRAM_ID = new Pubkey('11111111111111111111111111111111')",
  "fooBar(p: Signer) \x7b \x7d",
  "foo_bar(p: Signer) \x7b \x7d",
  "\x7d",
  "interface FooBarContext extends Account \x7b aB: u8; a_b: u8 \x7d"]

theorem respelledSource_names_clash : ∃ out r hs,
    compile {} "p.ts" respelledSource = .ok out ∧
      resolveSource {} "p.ts" respelledSource = .ok r ∧ r.handlers = .ok hs ∧
      ¬((Rust.Crate.ofProgram r hs).handlers.map (·.name)).Nodup ∧
      ¬((Rust.Crate.ofProgram r hs).contexts.map (·.name)).Nodup ∧
      ¬(r.source.instructionNames.map ("global:" ++ Rust.snakeCase ·)).Nodup ∧
      (∃ t ∈ (Rust.Crate.ofProgram r hs).states, ¬(t.fields.map (·.name)).Nodup) ∧
      ¬∀ s ∈ (Rust.Crate.ofProgram r hs).contexts, ∀ t ∈ (Rust.Crate.ofProgram r hs).states,
        s.name ≠ t.name := by
  obtain ⟨r, hr, hChecked⟩ := exists_ok_of_any (x := resolveSource {} "p.ts" respelledSource)
    (fun r => r.handlers.toOption.any (fun _ => true) &&
      r.source.instructionNames == [Text.ofString "fooBar", Text.ofString "foo_bar"] &&
      r.source.states.map (fun s => (s.name, s.fieldNames)) ==
        [(Text.ofString "FooBarContext", [Text.ofString "aB", Text.ofString "a_b"])])
    (by
      simp (disch := rfl) only [respelledSource, Text.ofString_literal]
      decide +kernel)
  simp only [Bool.and_eq_true, beq_iff_eq] at hChecked
  obtain ⟨⟨hHandlers, hNames⟩, hStates⟩ := hChecked
  obtain ⟨hs, hHandlers, _⟩ := exists_ok_of_any _ hHandlers
  obtain ⟨out, hOut⟩ := exists_compile_of_handlers hr hHandlers
  obtain ⟨r', hs', hr', hHandlers', _, hIff, _⟩ := compile_names_apart_iff hOut
  obtain rfl : r = r' := Except.ok.inj (hr.symm.trans hr')
  obtain rfl : hs = hs' := Except.ok.inj (hHandlers.symm.trans hHandlers')
  have hSnake : SpelledAlike Rust.snakeCase r.source.instructionNames := by
    rw [hNames]
    exact ⟨"fooBar", by simp, "foo_bar", by simp, by decide, by decide +kernel⟩
  have hPascal : SpelledAlike Rust.pascalCase r.source.instructionNames := by
    rw [hNames]
    exact ⟨"fooBar", by simp, "foo_bar", by simp, by decide, by decide +kernel⟩
  obtain ⟨s, hOnly, hState⟩ := List.map_eq_singleton_iff.mp hStates
  obtain ⟨hName, hFieldNames⟩ := Prod.mk.inj hState
  have hMem : s ∈ r.source.states := by simp [hOnly]
  have hFields : SpelledAlike Rust.snakeCase s.fieldNames := by
    rw [hFieldNames]
    exact ⟨"aB", by simp, "a_b", by simp, by decide, by decide +kernel⟩
  refine ⟨out, r, hs, hOut, hr, hHandlers, fun hNodup => hIff.handlers.mp hNodup hSnake,
    fun hNodup => hIff.contexts.mp hNodup hPascal, fun hNodup => hIff.preimages.mp hNodup hSnake,
    ?_, fun hApart => ?_⟩
  · obtain ⟨t, ht, hIffFields⟩ := exists_of_mem_left hIff.fields hMem
    exact ⟨t, ht, fun hNodup => hIffFields.mp hNodup hFields⟩
  · refine hIff.structs.mp hApart "fooBar" (by simp [hNames]) s hMem ?_
    rw [hName]
    decide +kernel

end AnchorScript
