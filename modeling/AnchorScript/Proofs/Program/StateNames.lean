import AnchorScript.Proofs.Program.Declarations

/-!
# The names of state types

The vocabulary is asked before the state types of a program, so a parameter that is written with the name
of a state type has this type exactly where the vocabulary does not know the name. Extraction refuses
two state types of one name, but none with a name that has a meaning already: a name of the vocabulary,
or of a type that the use lines of a crate bring.
-/

namespace AnchorScript

open Outcome

namespace DataType

/-- The names that stand for a type of the vocabulary, without an argument. -/
def typeNames : List Text :=
  IntType.all.map (·.name) ++ ["boolean", "bool", "string", "Pubkey"].map Text.ofString ++
    Role.fixed.map (·.typeName)

theorem valueType?_eq_none_iff {maxLen : Nat} {n : Text} : valueType? maxLen n = none ↔
    n ∉ IntType.all.map (·.name) ∧ n ∉ ["boolean", "bool", "string", "Pubkey"].map Text.ofString := by
  rw [valueType?]
  cases hInt : IntType.all.find? (·.name = n) with
  | some t =>
    have hName : n ∈ IntType.all.map (·.name) :=
      List.mem_map.mpr ⟨t, List.mem_of_find?_eq_some hInt, by simpa using List.find?_some hInt⟩
    simp [hName]
  | none =>
    have hName : n ∉ IntType.all.map (·.name) := by
      rintro hMem
      obtain ⟨t, ht, hEq⟩ := List.mem_map.mp hMem
      simpa [hEq] using List.find?_eq_none.mp hInt t ht
    simp only [hName, not_false_eq_true, true_and]
    by_cases hBool : n = "boolean" ∨ n = "bool"
    · rw [if_pos (by simpa using hBool)]
      rcases hBool with rfl | rfl <;> simp
    · rw [if_neg (by simpa using hBool)]
      rw [not_or] at hBool
      by_cases hString : n = "string"
      · rw [if_pos hString]
        simp [hString]
      · rw [if_neg hString]
        by_cases hKey : n = "Pubkey"
        · rw [if_pos hKey]
          simp [hKey]
        · rw [if_neg hKey]
          simp [hBool, hString, hKey]

/-- A name means a state type of the program where the vocabulary does not know it. -/
theorem lookup?_eq_state_iff {n : Text} {isState : Text → Bool} {maxLen : Nat} :
    lookup? n none isState maxLen = some (.account (.state n)) ↔
      isState n = true ∧ n ∉ typeNames := by
  have hNames : n ∉ typeNames ↔ valueType? maxLen n = none ∧ n ∉ Role.fixed.map (·.typeName) := by
    rw [typeNames, List.mem_append, List.mem_append, not_or, not_or, valueType?_eq_none_iff]
  rw [hNames, lookup?]
  cases hValue : valueType? maxLen n with
  | some t => simp
  | none =>
    cases hFixed : Role.fixed.find? (·.typeName = n) with
    | some r =>
      have hMem := List.mem_of_find?_eq_some hFixed
      have hName : n ∈ Role.fixed.map (·.typeName) :=
        List.mem_map.mpr ⟨r, hMem, by simpa using List.find?_some hFixed⟩
      have hRole : r ≠ .state n := by
        rintro rfl
        simp [Role.fixed] at hMem
      simp [hName, hRole]
    | none =>
      have hName : n ∉ Role.fixed.map (·.typeName) := by
        rintro hMem
        obtain ⟨r, hr, hEq⟩ := List.mem_map.mp hMem
        simpa [hEq] using List.find?_eq_none.mp hFixed r hr
      simp [hName]

end DataType

/-- The types that the use lines of a crate can bring. -/
def Rust.importedTypes : List Text :=
  ["Mint", "Token", "TokenAccount", "AssociatedToken", "Transfer"].map Text.ofString

/-- The names of the state types that a file declares. -/
def Syntax.File.stateNames (f : Syntax.File) : List Text :=
  (f.interfaces.filter Program.isStateInterface).map (·.name)

namespace Program

/-- The names that have a meaning in every program or in its crate. -/
def reservedNames : List Text :=
  DataType.typeNames ++ Text.ofString "Str" :: Rust.importedTypes

/-- The parameters of methods and of the instructions that they become are related one by one. -/
def ParamsRelated (R : Syntax.FieldDecl → Param → Prop) (ms : List Syntax.MethodDecl)
    (is : List Instruction) : Prop :=
  List.Forall₂ (fun m i => List.Forall₂ R m.params i.params) ms is

theorem ParamsRelated.imp {R S : Syntax.FieldDecl → Param → Prop} {ms : List Syntax.MethodDecl}
    {is : List Instruction} (h : ParamsRelated R ms is) (hImp : ∀ d q, R d q → S d q) :
    ParamsRelated S ms is :=
  List.Forall₂.imp (fun _ _ hParams => hParams.imp hImp) h

variable {file : Text} {s : Settings} {isState : Text → Bool}

theorem lookup?_of_paramsOf {instruction : Text} {seen : List Text} {fs : List Syntax.FieldDecl}
    {params : List Param} (h : paramsOf file s instruction isState seen fs = .ok params) :
    List.Forall₂ (fun d q =>
      DataType.lookup? d.type.name d.type.arg isState s.stringMaxLen = some q.type) fs params := by
  fun_induction paramsOf file s instruction isState seen fs generalizing params with
  | case1 =>
    cases h
    exact .nil
  | case2 => cases h
  | case3 seen f fs hSeen type hType ih =>
    simp only [bind_eq_ok_iff, pure_eq_ok_iff] at h
    obtain ⟨rest, hRest, rfl⟩ := h
    exact .cons hType (ih hRest)
  | case4 => cases h

theorem lookup?_of_instructionsOf {seen : List Text} {ms : List Syntax.MethodDecl}
    {is : List Instruction} (h : instructionsOf file s isState seen ms = .ok is) :
    ParamsRelated (fun d q =>
      DataType.lookup? d.type.name d.type.arg isState s.stringMaxLen = some q.type) ms is := by
  induction ms generalizing seen is with
  | nil =>
    cases h
    exact .nil
  | cons m ms ih =>
    simp only [instructionsOf, instructionOf, refused_or_eq_ok_iff, bind_eq_ok_iff,
      pure_eq_ok_iff] at h
    obtain ⟨_, _, ⟨_, _, _, params, hParams, _, _, rfl⟩, is', his, rfl⟩ := h
    exact .cons (lookup?_of_paramsOf hParams) (ih his)

end Program

/-- The state types of an extracted program are those that its file declares. A parameter that is
written with the name of one has this state type exactly where the vocabulary does not know the name.
So names of state types mean their types everywhere, and clash with nothing, exactly where no declared
state type has a reserved name. -/
theorem extractProgram_stateNames {o : CompileOptions} {name src : Text} {p : Program}
    (h : extractProgram o name src = .ok p) : ∃ f cls, Syntax.parse name src = .ok f ∧
      Program.programClass name f.classes = .ok cls ∧ p.states.map (·.name) = f.stateNames ∧
      Program.ParamsRelated (fun d q => d.type.arg = none → d.type.name ∈ f.stateNames →
        (q.type = .account (.state d.type.name) ↔ d.type.name ∉ DataType.typeNames))
        cls.methods p.instructions ∧
      ((Program.ParamsRelated (fun d q => d.type.arg = none → d.type.name ∈ f.stateNames →
          q.type = .account (.state d.type.name)) cls.methods p.instructions ∧
        ∀ st ∈ p.states, st.name ∉ Program.reservedNames) ↔
          ∀ n ∈ f.stateNames, n ∉ Program.reservedNames) := by
  obtain ⟨f, hParsed, hFile⟩ := bind_eq_ok_iff.mp h
  simp only [Program.ofFile, bind_eq_ok_iff, pure_eq_ok_iff] at hFile
  obtain ⟨cls, hClass, names, hNames, states, hStates, _, _, is, his, rfl⟩ := hFile
  have hSame : states.map (·.name) = f.stateNames := Program.map_name_of_stateType hStates
  have hParams : Program.ParamsRelated (fun d q => d.type.arg = none → d.type.name ∈ f.stateNames →
      (q.type = .account (.state d.type.name) ↔ d.type.name ∉ DataType.typeNames))
      cls.methods is := by
    refine (Program.lookup?_of_instructionsOf his).imp fun d q hLookup hArg hDeclared => ?_
    have hState : names.contains d.type.name = true := by
      rw [List.contains_iff_mem, Program.mem_stateNames_iff hNames]
      exact .inr (List.mem_map.mp hDeclared)
    rw [hArg] at hLookup
    rw [← Option.some.injEq, ← hLookup, DataType.lookup?_eq_state_iff, hState]
    simp
  refine ⟨f, cls, hParsed, hClass, hSame, hParams, ⟨fun hLaw n hn => ?_, fun hFree => ⟨?_, ?_⟩⟩⟩
  · rw [← hSame] at hn
    obtain ⟨st, hst, rfl⟩ := List.mem_map.mp hn
    exact hLaw.2 st hst
  · refine hParams.imp fun d q hIff hArg hDeclared => (hIff hArg hDeclared).mpr fun hKnown => ?_
    exact hFree _ hDeclared (List.mem_append_left _ hKnown)
  · intro st hst
    exact hFree _ (hSame ▸ List.mem_map_of_mem hst)

/-- A state type that is named like the mints of the vocabulary. -/
def mintSource : Text :=
  Text.ofString "export default class P \x7b
static PROGRAM_ID = new Pubkey('11111111111111111111111111111111')
run(p: Signer, m: Mint) \x7b \x7d
\x7d
interface Mint extends Account \x7b n: u64 \x7d"

set_option maxRecDepth 4000 in
theorem mintSource_stateNames : ∃ p f cls, extractProgram {} "p.ts" mintSource = .ok p ∧
    Syntax.parse "p.ts" mintSource = .ok f ∧ Program.programClass "p.ts" f.classes = .ok cls ∧
    f.stateNames = [Text.ofString "Mint"] ∧
    p.instructions.map (·.params.map (·.type)) = [[.account .signer, .account .mint]] ∧
    ¬(Program.ParamsRelated (fun d q => d.type.arg = none → d.type.name ∈ f.stateNames →
        q.type = .account (.state d.type.name)) cls.methods p.instructions ∧
      ∀ st ∈ p.states, st.name ∉ Program.reservedNames) := by
  have hText : mintSource = _ := Text.ofString_literal rfl
  obtain ⟨p, hp, hChecked⟩ := exists_ok_of_any (x := extractProgram {} "p.ts" mintSource)
    (fun p => p.states.map (·.name) == [Text.ofString "Mint"] &&
      p.instructions.map (·.params.map (·.type)) == [[.account .signer, .account .mint]])
    (by rw [hText]; decide +kernel)
  obtain ⟨hStates, hTypes⟩ := Bool.and_eq_true_iff.mp hChecked
  obtain ⟨f, cls, hParsed, hClass, hSame, _, hIff⟩ := extractProgram_stateNames hp
  have hNames : f.stateNames = [Text.ofString "Mint"] := hSame.symm.trans (eq_of_beq hStates)
  refine ⟨p, f, cls, hp, hParsed, hClass, hNames, eq_of_beq hTypes, fun hLaw => ?_⟩
  have hFree := hIff.mp hLaw "Mint" (by simp [hNames])
  exact hFree (List.mem_append_right _ (List.mem_cons_of_mem _ (by decide)))

end AnchorScript
