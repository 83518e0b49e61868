import AnchorScript.Proofs.Compiler.GeneratedNames
import AnchorScript.Proofs.Text.Characters

/-!
# Identifiers of the output

A source name may have dollar signs, may be a lone underscore and may be any word of Rust. Names are
respelled for the output, and only some respellings escape keywords. What a name becomes is an
identifier of Rust exactly where the name is admitted for what it stands for, and a crate has only
such identifiers exactly where every name of its source is admitted.
-/

namespace AnchorScript

open Outcome

namespace Rust

/-- Keywords of the 2021 edition, in use and reserved. -/
def reservedWords : List Text :=
  List.map Text.ofString
    ["as", "async", "await", "break", "const", "continue", "crate", "dyn", "else", "enum", "extern",
      "false", "fn", "for", "if", "impl", "in", "let", "loop", "match", "mod", "move", "mut", "pub",
      "ref", "return", "self", "Self", "static", "struct", "super", "trait", "true", "type",
      "unsafe", "use", "where", "while", "abstract", "become", "box", "do", "final", "macro",
      "override", "priv", "try", "typeof", "unsized", "virtual", "yield"]

/-- Keywords that the mark does not make identifiers. -/
def pathWords : List Text := List.map Text.ofString ["crate", "self", "Self", "super"]

def isNameByte (b : UInt8) : Bool := Text.isLetter b || Text.isDigit b || b = 95

structure IsPlainIdentifier (s : Text) : Prop where
  nonempty : s ≠ []
  bytes : ∀ b ∈ s, isNameByte b = true
  head : ∀ b, s.head? = some b → Text.isDigit b = false
  ne_underscore : s ≠ "_"
  notReserved : s ∉ reservedWords

def IsIdentifier (id : Text) : Prop :=
  IsPlainIdentifier id ∨ ∃ k ∈ reservedWords, k ∉ pathWords ∧ id = marked k

/-- What a name of the source stands for in the output. -/
inductive NameKind where
  | module | struct | context | value

namespace NameKind

def spell : NameKind → Text → Text
  | module, n => snakeCase n
  | struct, n => n
  | context, n => contextName n
  | value, n => ident n

/-- The name can stand there. Only values have their keywords escaped, and a context is named by
what follows the underscores that its instruction begins with. -/
def Admits : NameKind → Text → Prop
  | module, n => 36 ∉ n ∧ snakeCase n ∉ Text.ofString "_" :: reservedWords
  | struct, n => 36 ∉ n ∧ n ∉ Text.ofString "_" :: reservedWords
  | context, n => 36 ∉ n ∧ (n.dropWhile (· = 95)).head?.any Text.isDigit = false
  | value, n => 36 ∉ n ∧ snakeCase n ∉ Text.ofString "_" :: pathWords

instance (k : NameKind) (n : Text) : Decidable (k.Admits n) :=
  match k with
  | module => inferInstanceAs (Decidable (_ ∧ snakeCase n ∉ Text.ofString "_" :: reservedWords))
  | struct => inferInstanceAs (Decidable (_ ∧ n ∉ Text.ofString "_" :: reservedWords))
  | context =>
    inferInstanceAs (Decidable (_ ∧ (n.dropWhile (· = 95)).head?.any Text.isDigit = false))
  | value => inferInstanceAs (Decidable (_ ∧ snakeCase n ∉ Text.ofString "_" :: pathWords))

end NameKind

theorem mem_reservedWords_iff (s : Text) : s ∈ reservedWords ↔ s ∈ keywords ∨ s ∈ pathWords := by
  have hReserved : ∀ k ∈ reservedWords, k ∈ keywords ∨ k ∈ pathWords := by decide +kernel
  have hWords : ∀ k ∈ keywords ++ pathWords, k ∈ reservedWords := by decide +kernel
  exact ⟨hReserved s, fun h => hWords s (List.mem_append.mpr h)⟩

theorem notMem_pathWords_of_mem_keywords {s : Text} (h : s ∈ keywords) : s ∉ pathWords := by
  revert s
  decide

theorem isNameByte_iff {b : UInt8} (h : Lexer.isIdentPart b = true) :
    isNameByte b = true ↔ b ≠ 36 :=
  Text.forall_ascii (P := fun b => Lexer.isIdentPart b = true → (isNameByte b = true ↔ b ≠ 36))
    (by decide) (Lexer.isIdentPart_lt h) h

theorem forall_isNameByte_iff {s : Text} (h : IsWord s) :
    (∀ b ∈ s, isNameByte b = true) ↔ 36 ∉ s := by
  constructor
  · intro hAll hDollar
    exact (isNameByte_iff (h.2 36 hDollar)).mp (hAll 36 hDollar) rfl
  · intro hNone b hb
    apply (isNameByte_iff (h.2 b hb)).mpr
    rintro rfl
    exact hNone hb

theorem isPlainIdentifier_iff {s : Text} (h : IsName s) :
    IsPlainIdentifier s ↔ 36 ∉ s ∧ s ≠ "_" ∧ s ∉ reservedWords := by
  constructor
  · intro hPlain
    exact ⟨(forall_isNameByte_iff h.isWord).mp hPlain.bytes, hPlain.ne_underscore,
      hPlain.notReserved⟩
  · rintro ⟨hDollar, hUnderscore, hReserved⟩
    constructor
    · exact h.isWord.1
    · exact (forall_isNameByte_iff h.isWord).mpr hDollar
    · obtain ⟨c, r, rfl, hc, _⟩ := h
      rintro b ⟨⟩
      exact isDigit_of_isIdentStart hc
    · exact hUnderscore
    · exact hReserved

theorem isIdentifier_iff_of_isWord {s : Text} (h : IsWord s) :
    IsIdentifier s ↔ IsPlainIdentifier s := by
  constructor
  · rintro (hPlain | ⟨k, _, _, rfl⟩)
    · exact hPlain
    · cases h.2 35 (List.mem_cons_of_mem 114 List.mem_cons_self)
  · exact .inl

theorem mem_snakeChars_of_not_upper {previous : Option Char} {cs : List Char} {c : Char}
    (hc : c ∈ cs) (hUpper : Text.isUpperLetter c = false) : c ∈ snakeChars previous cs := by
  fun_induction snakeChars previous cs with
  | case1 => cases hc
  | case2 previous d r hd _ ih =>
    rcases List.mem_cons.mp hc with rfl | hc
    · rw [hUpper] at hd
      cases hd
    · exact List.mem_cons_of_mem _ (List.mem_cons_of_mem _ (ih hc))
  | case3 previous d r hd _ ih =>
    rcases List.mem_cons.mp hc with rfl | hc
    · rw [hUpper] at hd
      cases hd
    · exact List.mem_cons_of_mem _ (ih hc)
  | case4 previous d r _ ih =>
    rcases List.mem_cons.mp hc with rfl | hc
    · exact List.mem_cons_self
    · exact List.mem_cons_of_mem _ (ih hc)

theorem lowerByte_eq_dollar {b : UInt8} (hb : b < 128) (h : Text.lowerByte b = 36) : b = 36 :=
  Text.forall_ascii (P := fun b => Text.lowerByte b = 36 → b = 36) (by decide) hb h

theorem dollar_mem_snakeCase_iff {n : Text} (h : IsWord n) : 36 ∈ snakeCase n ↔ 36 ∈ n := by
  have hAscii := isAscii_of_isWord h
  rw [snakeCase, Text.chars_of_isAscii hAscii, Text.mem_ofChars_iff (by decide)]
  constructor
  · intro hMem
    rcases mem_snakeChars hMem with hUnderscore | ⟨d, hd, hSame⟩
    · cases hUnderscore
    · obtain ⟨b, hb, rfl⟩ := List.mem_map.mp hd
      have hLow := hAscii b hb
      rcases hSame with hSame | hLower
      · rwa [Text.byteChar_injOn (by decide) hLow hSame]
      · rw [Text.toLowerLetter_byteChar hLow] at hLower
        have hDollar := Text.byteChar_injOn (by decide) (Text.lowerByte_ascii hLow) hLower
        rwa [← lowerByte_eq_dollar hLow hDollar.symm]
  · intro hDollar
    exact mem_snakeChars_of_not_upper (List.mem_map_of_mem hDollar) (by decide)

theorem isIdentifier_contextName_iff {n : Text} (h : IsName n) : IsIdentifier (contextName n) ↔
    36 ∉ n ∧ (n.dropWhile (· = 95)).head?.any Text.isDigit = false := by
  have hName := contextName_eq h.isWord
  have hWord : IsWord (pascalBytes true n ++ "Context") := hName ▸ isWord_contextName h.isWord
  -- no keyword ends like the name of a context
  have hNoKeyword : ∀ k ∈ Text.ofString "_" :: reservedWords, ¬Text.ofString "Context" <:+ k := by
    decide
  have hOther : pascalBytes true n ++ "Context" ∉ Text.ofString "_" :: reservedWords := by
    intro hMem
    exact hNoKeyword _ hMem (List.suffix_append _ _)
  have hDollar : 36 ∉ pascalBytes true n ++ "Context" ↔ 36 ∉ n := by
    have hNone : 36 ∉ Text.ofString "Context" := by decide
    rw [List.mem_append, dollar_mem_pascalBytes_iff h.isWord.2, or_iff_left hNone]
  have hHead : (pascalBytes true n ++ "Context").head?.any Text.isDigit =
      (n.dropWhile (· = 95)).head?.any Text.isDigit := by
    rw [← isDigit_head_pascalBytes h.isWord.2]
    cases pascalBytes true n with
    | nil => decide
    | cons => rfl
  rw [hName, isIdentifier_iff_of_isWord hWord, ← hDollar, ← hHead]
  constructor
  · intro hPlain
    constructor
    · exact (forall_isNameByte_iff hWord).mp hPlain.bytes
    · rw [Option.any_eq_false]
      intro b hb
      simp [hPlain.head b hb]
  · rintro ⟨hNone, hNoDigit⟩
    constructor
    · exact hWord.1
    · exact (forall_isNameByte_iff hWord).mpr hNone
    · intro b hb
      simpa [hb] using hNoDigit
    · intro hSame
      exact hOther (hSame ▸ List.mem_cons_self)
    · intro hMem
      exact hOther (List.mem_cons_of_mem _ hMem)

theorem isIdentifier_ident_iff {n : Text} (h : IsName n) : IsIdentifier (ident n) ↔
    36 ∉ n ∧ snakeCase n ∉ Text.ofString "_" :: pathWords := by
  have hSnake := isName_snakeCase h
  rw [List.mem_cons, not_or]
  rcases ident_cases n with ⟨hPlain, hSame⟩ | ⟨hKeyword, hMarked⟩
  · rw [hSame, isIdentifier_iff_of_isWord hSnake.isWord, isPlainIdentifier_iff hSnake,
      dollar_mem_snakeCase_iff h.isWord, mem_reservedWords_iff, or_iff_right hPlain]
  · have hPath := notMem_pathWords_of_mem_keywords hKeyword
    have hReserved := (mem_reservedWords_iff _).mpr (.inl hKeyword)
    rw [hMarked, ← dollar_mem_snakeCase_iff h.isWord]
    have hClean : ∀ k ∈ keywords, 36 ∉ k ∧ k ≠ Text.ofString "_" := by decide
    obtain ⟨hDollar, hUnderscore⟩ := hClean _ hKeyword
    exact iff_of_true (.inr ⟨_, hReserved, hPath, rfl⟩) ⟨hDollar, hUnderscore, hPath⟩

theorem isIdentifier_iff_of_isName {s : Text} (h : IsName s) :
    IsIdentifier s ↔ 36 ∉ s ∧ s ∉ Text.ofString "_" :: reservedWords := by
  rw [isIdentifier_iff_of_isWord h.isWord, isPlainIdentifier_iff h, List.mem_cons, not_or]

namespace NameKind

theorem isIdentifier_spell_iff (k : NameKind) {n : Text} (h : IsName n) :
    IsIdentifier (k.spell n) ↔ k.Admits n := by
  cases k with
  | module =>
    rw [spell, isIdentifier_iff_of_isName (isName_snakeCase h), dollar_mem_snakeCase_iff h.isWord]
    rfl
  | struct => exact isIdentifier_iff_of_isName h
  | context => exact isIdentifier_contextName_iff h
  | value => exact isIdentifier_ident_iff h

end NameKind

theorem isIdentifier_programName (q : ProgramAccount) : IsIdentifier q.name := by
  have hHead : q.name.head?.any Text.isDigit = false := by cases q <;> rfl
  refine .inl ⟨?_, List.all_eq_true.mp ?_, fun b hb => by rwa [hb] at hHead, ?_, ?_⟩
  · cases q <;> decide +kernel
  · cases q <;> rfl
  · cases q <;> decide +kernel
  · cases q <;> decide +kernel

def StateStruct.identifiers (s : StateStruct) : List Text := s.name :: s.fields.map (·.name)

def ContextStruct.identifiers (c : ContextStruct) : List Text := c.name :: c.fields.map (·.name)

end Rust

def Handler.identifiers (t : Handler) : List Text :=
  t.name :: (t.args.map (·.name) ++ t.body.filterMap HandlerStmt.boundName?)

/-- The identifiers that a crate declares, apart from the variables that only handlers need. -/
def Rust.Crate.identifiers (c : Crate) : List Text :=
  c.module :: (c.states.flatMap StateStruct.identifiers ++
    (c.contexts.flatMap ContextStruct.identifiers ++ c.handlers.flatMap Handler.identifiers))

def StateType.namings (s : StateType) : List (Rust.NameKind × Text) :=
  (.struct, s.name) :: s.fieldNames.map (.value, ·)

def Instruction.namings (i : Instruction) : List (Rust.NameKind × Text) :=
  (.context, i.name) :: i.declaredNames.map (.value, ·)

/-- The names of a source with what they stand for. An instruction stands for its handler and for
its context. -/
def Program.namings (p : Program) : List (Rust.NameKind × Text) :=
  (.module, p.name) ::
    (p.states.flatMap StateType.namings ++ p.instructions.flatMap Instruction.namings)

theorem Program.isName_of_mem_namings {p : Program} (hNames : ∀ n ∈ p.declaredNames, IsName n)
    {d : Rust.NameKind × Text} (hd : d ∈ p.namings) : IsName d.2 := by
  rcases List.mem_cons.mp hd with rfl | hd
  · exact hNames _ List.mem_cons_self
  · rcases List.mem_append.mp hd with hd | hd
    · obtain ⟨st, hst, hd⟩ := List.mem_flatMap.mp hd
      refine hNames _ (mem_declaredNames_of_state hst ?_)
      rcases List.mem_cons.mp hd with rfl | hd
      · exact List.mem_cons_self
      · obtain ⟨n, hn, rfl⟩ := List.mem_map.mp hd
        exact List.mem_cons_of_mem _ hn
    · obtain ⟨i, hi, hd⟩ := List.mem_flatMap.mp hd
      refine hNames _ (mem_declaredNames_of_instruction hi ?_)
      rcases List.mem_cons.mp hd with rfl | hd
      · exact List.mem_cons_self
      · obtain ⟨n, hn, rfl⟩ := List.mem_map.mp hd
        exact hn

def Rust.NameKind.spelled (d : NameKind × Text) : Text := d.1.spell d.2

theorem Rust.StateStruct.identifiers_ofState (s : StateType) :
    (StateStruct.ofState s).identifiers = s.namings.map NameKind.spelled := by
  rw [identifiers, ofState, StateType.namings, StateType.fieldNames]
  simp only [List.map_cons, List.map_map]
  rfl

section Instruction

variable {p : Program} {r : ResolvedInstruction} {t : Handler}

theorem Rust.ContextStruct.identifiers_ofInstruction
    (h : Resolution.resolveInstruction p r.source = .ok r) :
    (ContextStruct.ofInstruction r).identifiers = contextName r.source.name ::
      (r.source.accounts.map (ident ·.name) ++ r.programs.map (·.name)) := by
  have hAccounts : r.accounts.map (ident ·.name) = r.source.accounts.map (ident ·.name) := by
    have hNames := congrArg (List.map ident) (Resolution.names_of_resolveInstruction h)
    rwa [List.map_map, List.map_map] at hNames
  rw [identifiers, ofInstruction, ← hAccounts]
  simp only [List.map_append, List.map_map]
  rfl

theorem Handler.identifiers_ofInstruction (h : ofInstruction p r = .ok t) :
    t.identifiers = Rust.ident r.source.name :: (r.source.args.map (Rust.ident ·.name) ++
      (r.source.body.filterMap Statement.declaration?).map (Rust.ident ·.1)) := by
  obtain ⟨hName, _, hArgs⟩ := heading_of_ofInstruction h
  simp only [ofInstruction, bind_eq_ok_iff, pure_eq_ok_iff] at h
  obtain ⟨_, _, names, _, body, hBody, rfl⟩ := h
  rw [identifiers, boundNames_of_stmtsOf hBody, argsOf, List.map_map]
  rfl

theorem mem_identifiers_of_instruction (h : Resolution.resolveInstruction p r.source = .ok r)
    (hHandler : Handler.ofInstruction p r = .ok t) (id : Text) :
    id ∈ (Rust.ContextStruct.ofInstruction r).identifiers ∨ id ∈ t.identifiers ↔
      id ∈ r.source.namings.map Rust.NameKind.spelled ∨ id ∈ r.programs.map (·.name) := by
  have hNamings : r.source.namings.map Rust.NameKind.spelled =
      Rust.contextName r.source.name :: Rust.ident r.source.name ::
        (r.source.params.map (Rust.ident ·.name) ++
          (r.source.body.filterMap Statement.declaration?).map (Rust.ident ·.1)) := by
    rw [Instruction.namings, Instruction.declaredNames, Instruction.declarations]
    simp only [List.map_cons, List.map_append, List.map_map]
    rfl
  have hParams : id ∈ r.source.params.map (Rust.ident ·.name) ↔
      id ∈ r.source.accounts.map (Rust.ident ·.name) ∨
        id ∈ r.source.args.map (Rust.ident ·.name) := by
    rw [Instruction.accounts, Instruction.args, ← List.mem_append, ← List.map_append]
    exact ((List.filter_append_perm _ _).map _).mem_iff.symm
  rw [Rust.ContextStruct.identifiers_ofInstruction h, Handler.identifiers_ofInstruction hHandler,
    hNamings]
  simp only [List.mem_cons, List.mem_append, hParams]
  tauto

end Instruction

theorem mem_identifiers_iff {r : ResolvedProgram} {hs : List Handler}
    (h : r.source.resolve = .ok r) (hHandlers : r.handlers = .ok hs) (id : Text) :
    id ∈ (Rust.Crate.ofProgram r hs).identifiers ↔
      id ∈ r.source.namings.map Rust.NameKind.spelled ∨
        id ∈ r.instructions.flatMap fun i => i.programs.map (·.name) := by
  have hStates : (r.source.states.map Rust.StateStruct.ofState).flatMap
      Rust.StateStruct.identifiers =
        (r.source.states.flatMap StateType.namings).map Rust.NameKind.spelled := by
    rw [List.flatMap_map, List.map_flatMap]
    exact congrArg (r.source.states.flatMap ·) (funext Rust.StateStruct.identifiers_ofState)
  have hInstructions : id ∈ (r.instructions.map Rust.ContextStruct.ofInstruction).flatMap
      Rust.ContextStruct.identifiers ∨ id ∈ hs.flatMap Handler.identifiers ↔
        id ∈ (r.instructions.flatMap (·.source.namings)).map Rust.NameKind.spelled ∨
          id ∈ r.instructions.flatMap fun i => i.programs.map (·.name) := by
    have hMade := forall₂_imp_of_mem (mapM_eq_ok_iff.mp hHandlers) fun i hi t ht =>
      mem_identifiers_of_instruction (Program.resolved_of_mem h hi).2 ht id
    generalize r.instructions = is at hMade
    clear hHandlers
    induction hMade with
    | nil => simp
    | cons hHead _ ih =>
      simp only [List.map_cons, List.flatMap_cons, List.map_append, List.mem_append]
      exact or_or_or_comm.trans ((or_congr hHead ih).trans or_or_or_comm)
  have hNamings : r.source.namings.map Rust.NameKind.spelled =
      r.moduleName :: ((r.source.states.flatMap StateType.namings).map Rust.NameKind.spelled ++
        (r.instructions.flatMap (·.source.namings)).map Rust.NameKind.spelled) := by
    rw [Program.namings, ← Program.sources_of_resolve h, List.flatMap_map, List.map_cons,
      List.map_append]
    rfl
  rw [Rust.Crate.identifiers, hNamings]
  simp only [Rust.Crate.ofProgram, List.mem_cons, List.mem_append, hStates, hInstructions]
  tauto

/-- The identifiers of a compiled crate are its source's names as they are respelled, and the fixed
names of program accounts. Each name becomes an identifier of the language exactly where it is
admitted, and so the crate has no other identifiers exactly where all of its names are. -/
theorem compile_isIdentifier_iff {o : CompileOptions} {name src : Text} {out : CompileOutput}
    (h : compile o name src = .ok out) :
    ∃ r hs, resolveSource o name src = .ok r ∧ r.handlers = .ok hs ∧
      out.rust = (Rust.Crate.ofProgram r hs).text ∧
      (∀ id, id ∈ (Rust.Crate.ofProgram r hs).identifiers ↔
        (∃ d ∈ r.source.namings, d.1.spell d.2 = id) ∨
          ∃ i ∈ r.instructions, ∃ q ∈ i.programs, q.name = id) ∧
      (∀ d ∈ r.source.namings, Rust.IsIdentifier (d.1.spell d.2) ↔ d.1.Admits d.2) ∧
      ((∀ id ∈ (Rust.Crate.ofProgram r hs).identifiers, Rust.IsIdentifier id) ↔
        ∀ d ∈ r.source.namings, d.1.Admits d.2) := by
  obtain ⟨r, hs, hResolved, hHandlers, hText, _⟩ := compile_ok h
  obtain ⟨p, hExtracted, hp⟩ := bind_eq_ok_iff.mp hResolved
  have hNames := extractProgram_isName hExtracted
  obtain ⟨rfl, _⟩ := Program.resolve_eq_ok_iff.mp hp
  have hMem (id : Text) : id ∈ (Rust.Crate.ofProgram r hs).identifiers ↔
      (∃ d ∈ r.source.namings, d.1.spell d.2 = id) ∨
        ∃ i ∈ r.instructions, ∃ q ∈ i.programs, q.name = id := by
    rw [mem_identifiers_iff hp hHandlers, List.mem_map, List.mem_flatMap]
    simp only [List.mem_map]
    rfl
  have hIff (d : Rust.NameKind × Text) (hd : d ∈ r.source.namings) :
      Rust.IsIdentifier (d.1.spell d.2) ↔ d.1.Admits d.2 :=
    d.1.isIdentifier_spell_iff (Program.isName_of_mem_namings hNames hd)
  refine ⟨r, hs, hResolved, hHandlers, hText, hMem, hIff, ?_⟩
  constructor
  · intro hAll d hd
    exact (hIff d hd).mp (hAll _ ((hMem _).mpr (.inl ⟨d, hd, rfl⟩)))
  · intro hAdmitted id hid
    rcases (hMem id).mp hid with ⟨d, hd, rfl⟩ | ⟨i, _, q, _, rfl⟩
    · exact (hIff d hd).mpr (hAdmitted d hd)
    · exact Rust.isIdentifier_programName q

/-- A program with a name of each kind that its place does not admit. -/
def misnamedSource : Text :=
  "export default class Mod \x7b
static PROGRAM_ID = new Pubkey('11111111111111111111111111111111')
_1st(self: Signer, s: type) \x7b const _ = 1; s.match = _ \x7d
$run(p: Signer) \x7b \x7d
\x7d
interface type extends Account \x7b match: u64 \x7d"

set_option maxRecDepth 4000 in
theorem misnamedSource_isIdentifier_iff : ∃ out r hs,
    compile {} "p.ts" misnamedSource = .ok out ∧
      resolveSource {} "p.ts" misnamedSource = .ok r ∧ r.handlers = .ok hs ∧
      (r.source.namings.filter fun d => ¬d.1.Admits d.2).map Rust.NameKind.spelled =
        ["mod", "type", "1stContext", "self", "_", "$runContext", "$run"].map Text.ofString ∧
      ¬∀ id ∈ (Rust.Crate.ofProgram r hs).identifiers, Rust.IsIdentifier id := by
  have hText : misnamedSource = _ := Text.ofString_literal rfl
  obtain ⟨r, hr, hChecked⟩ := exists_ok_of_any (x := resolveSource {} "p.ts" misnamedSource)
    (fun r => r.handlers.toOption.any (fun _ => true) &&
      (r.source.namings.filter fun d => ¬d.1.Admits d.2).map Rust.NameKind.spelled ==
        ["mod", "type", "1stContext", "self", "_", "$runContext", "$run"].map Text.ofString)
    (by rw [hText]; decide +kernel)
  obtain ⟨hHandlers, hMisnamed⟩ := Bool.and_eq_true_iff.mp hChecked
  obtain ⟨hs, hHandlers, _⟩ := exists_ok_of_any _ hHandlers
  obtain ⟨out, hOut⟩ := exists_compile_of_handlers hr hHandlers
  obtain ⟨r', hs', hr', hHandlers', _, _, _, hIff⟩ := compile_isIdentifier_iff hOut
  obtain rfl : r = r' := Except.ok.inj (hr.symm.trans hr')
  obtain rfl : hs = hs' := Except.ok.inj (hHandlers.symm.trans hHandlers')
  have hMisnamed := eq_of_beq hMisnamed
  refine ⟨out, r, hs, hOut, hr, hHandlers, hMisnamed, fun hAll => ?_⟩
  have hNone : (r.source.namings.filter fun d => ¬d.1.Admits d.2) = [] := by
    rw [List.filter_eq_nil_iff]
    intro d hd
    simpa using hIff.mp hAll d hd
  rw [hNone] at hMisnamed
  cases hMisnamed

end AnchorScript
