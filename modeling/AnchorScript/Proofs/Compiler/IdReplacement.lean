import AnchorScript.Proofs.Program.Placement
import AnchorScript.Proofs.Program.ProgramId
import AnchorScript.Proofs.Syntax.StringReplacement

/-!
# Programs with another id

The id of a program is one string of its source. Where the literal that is replaced is this string,
the new source declares the same program with the new id.
-/

namespace AnchorScript

open Outcome

namespace Program

variable {file : Text} {s : Settings}

theorem idDeclaration_ok {c : Syntax.ClassDecl} {found : Option Syntax.PropertyDecl}
    {ps : List Syntax.PropertyDecl} {d : Syntax.PropertyDecl}
    (h : idDeclaration file c found ps = .ok d) :
    found = some d ∧ ps = [] ∨
      found = none ∧ ps = [d] ∧ (d.name != idProperty || !d.isStatic) = false := by
  fun_induction idDeclaration file c found ps with
  | case1 d' =>
    cases h
    exact .inl ⟨rfl, rfl⟩
  | case2 => cases h
  | case3 => cases h
  | case4 => cases h
  | case5 found d' ps hIs hFirst ih =>
    rcases ih h with ⟨hSame, rfl⟩ | ⟨hNone, _⟩
    · cases hSame
      exact .inr ⟨by simpa using hFirst, rfl, by simpa using hIs⟩
    · cases hNone

theorem idDeclaration_singleton {c : Syntax.ClassDecl} {d : Syntax.PropertyDecl}
    (h : (d.name != idProperty || !d.isStatic) = false) :
    idDeclaration file c none [d] = .ok d := by
  simp only [idDeclaration, h]
  rfl

/-- The class that declares its id by the key literal `s` at `place`, in the property `d`. -/
structure DeclaresId (c : Syntax.ClassDecl) (d : Syntax.PropertyDecl) (pos place : SourcePos)
    (s : Text) : Prop where
  properties : c.properties = [d]
  isId : (d.name != idProperty || !d.isStatic) = false
  value : d.value = .construct pos "Pubkey" [.string place s]

theorem declaredId_ok {c : Syntax.ClassDecl} {id : Text} (h : declaredId file c = .ok id) :
    ∃ d pos place text key, DeclaresId c d pos place text ∧ id = Text.trimSpace text ∧
      ProgramId.decode id = .ok key := by
  simp only [declaredId, bind_eq_ok_iff] at h
  obtain ⟨d, hDeclaration, h⟩ := h
  rcases idDeclaration_ok hDeclaration with ⟨hNone, _⟩ | ⟨_, hProperties, hIs⟩
  · cases hNone
  split at h
  · rename_i pos className place text hValue
    simp only [allowed_or_eq_ok_iff] at h
    obtain ⟨rfl, h⟩ := h
    split at h
    · rename_i key hKey
      cases h
      exact ⟨d, pos, place, text, key, ⟨hProperties, hIs, hValue⟩, rfl, hKey⟩
    · cases h
  · cases h

theorem DeclaresId.declaredId {c : Syntax.ClassDecl} {d : Syntax.PropertyDecl}
    {pos place : SourcePos} {id key : Text} (h : DeclaresId c d pos place id)
    (hKey : ProgramId.decode id = .ok key) : Program.declaredId file c = .ok id := by
  have hDeclaration : idDeclaration file c none [d] = .ok d := idDeclaration_singleton h.isId
  rw [Program.declaredId, h.properties, hDeclaration]
  simp only [bind, Except.bind, h.value, ProgramId.trimSpace_id hKey, hKey]
  rfl

end Program

/-- The property with another key literal in it. -/
def Syntax.PropertyDecl.withKey (d : Syntax.PropertyDecl) (pos place : SourcePos) (id : Text) :
    Syntax.PropertyDecl :=
  { d with value := .construct pos "Pubkey" [.string place id] }

namespace Program

variable {file : Text} {s : Settings}

theorem ofFile_withKey {f : Syntax.File} {p : Program} (h : ofFile file s f = .ok p) :
    ∃ c d pos place text key, f.classes = [c] ∧ DeclaresId c d pos place text ∧
      ProgramId.decode (Text.trimSpace text) = .ok key ∧
      ∀ id key', ProgramId.decode id = .ok key' →
        ofFile file s
          { imports := []
            classes := [{ c with properties := [d.withKey pos place id] }]
            interfaces := f.interfaces } = .ok { p with programId := id } := by
  simp only [ofFile, bind_eq_ok_iff, pure_eq_ok_iff] at h
  obtain ⟨c, hClass, names, hNames, states, hStates, id, hId, is, his, rfl⟩ := h
  obtain ⟨hClasses, hDefault⟩ := programClass_ok hClass
  obtain ⟨d, pos, place, text, key, hDeclares, rfl, hKey⟩ := declaredId_ok hId
  refine ⟨c, d, pos, place, text, key, hClasses, hDeclares, hKey, fun id key' hKey' => ?_⟩
  have hDeclares' : DeclaresId { c with properties := [d.withKey pos place id] }
      (d.withKey pos place id) pos place id := ⟨rfl, hDeclares.isId, rfl⟩
  simp only [ofFile, bind_eq_ok_iff, pure_eq_ok_iff]
  exact ⟨_, programClass_singleton hDefault, names, hNames, states, hStates, id,
    hDeclares'.declaredId hKey', is, his, rfl⟩

/-- Files that are the same up to positions declare the same program up to positions. -/
theorem ofFile_of_unplaced_eq {f f' : Syntax.File} {p : Program} (h : ofFile file s f = .ok p)
    (hClasses : f'.unplaced.classes = f.unplaced.classes)
    (hInterfaces : f'.unplaced.interfaces = f.unplaced.interfaces) :
    ∃ p', ofFile file s f' = .ok p' ∧ p'.unplaced = p.unplaced := by
  have hSame : ofFile [] s f'.unplaced = ofFile [] s f.unplaced := by
    rw [ofFile, ofFile, hClasses, hInterfaces]
  have hRight := ofFile_steady file s f'
  rw [hSame] at hRight
  have hAgree := Agree.meet (ofFile_steady file s f) hRight
  rw [h] at hAgree
  generalize ofFile file s f' = x at hAgree ⊢
  cases hAgree with
  | ok hSame =>
    obtain ⟨_, rfl, hUnplaced⟩ := hSame
    exact ⟨_, rfl, hUnplaced.symm⟩

end Program

/-- Where the string of the declared id stands. -/
def Syntax.File.idPlace? (f : Syntax.File) : Option SourcePos := do
  let d ← (← f.classes.head?).properties.head?
  match d.value with
  | .construct _ _ [.string place _] => some place
  | _ => none

def ProgramId.declaredPlace? (name src : Text) : Option SourcePos := do
  (← (Syntax.parse name src).toOption).idPlace?

/-- Where the string stands in which the id of a source is replaced. -/
def ProgramId.literalPlace? (src : Text) : Option SourcePos :=
  match literalBodies 0 src with
  | [body] => some (Location.start.after (src.take (src.length - body.length - 1))).pos
  | _ => none

namespace Program

theorem idPlace?_of_declaresId {f : Syntax.File} {c : Syntax.ClassDecl} {d : Syntax.PropertyDecl}
    {pos place : SourcePos} {text : Text} (hClasses : f.classes = [c])
    (h : DeclaresId c d pos place text) : f.idPlace? = some place := by
  simp [Syntax.File.idPlace?, hClasses, h.properties, h.value]

theorem literalPlace?_of_literalBodies {pre body : Text} {q : UInt8}
    (h : ProgramId.literalBodies 0 (pre ++ q :: body) = [body]) :
    ProgramId.literalPlace? (pre ++ q :: body) = some (Location.start.after pre).pos := by
  have hLength : (pre ++ q :: body).length - body.length - 1 = pre.length := by
    rw [List.length_append, List.length_cons]
    omega
  rw [ProgramId.literalPlace?, h]
  simp only [hLength, List.take_left]

/-- The string of a declared id is a token of the source. -/
theorem exists_token_of_declaresId {name src : Text} {f : Syntax.File} {c : Syntax.ClassDecl}
    {d : Syntax.PropertyDecl} {pos place : SourcePos} {text : Text}
    (h : Syntax.parse name src = .ok f) (hClasses : f.classes = [c])
    (hDeclares : DeclaresId c d pos place text) :
    ∃ t ∈ tokens src, t.pos = place ∧ StringLiteral.value? t.literal = some text := by
  have hExpr : d.value ∈ f.exprs := by
    refine List.mem_flatMap.mpr ⟨c, hClasses ▸ List.mem_singleton_self c, ?_⟩
    refine List.mem_append_left _ (List.mem_map_of_mem ?_)
    rw [hDeclares.properties]
    exact List.mem_singleton_self d
  have hRead := Syntax.parse_read h _ hExpr
  rw [hDeclares.value] at hRead
  obtain ⟨t, ht, _, hPos, hValue⟩ := hRead.exists_string
  exact ⟨t, ht, hPos, hValue⟩

theorem extractProgram_replace {o : CompileOptions} {name src src' id : Text} {p : Program}
    (hProgram : extractProgram o name src = .ok p) (hReplace : ProgramId.replace src id = .ok src')
    (hPlace : ProgramId.declaredPlace? name src = ProgramId.literalPlace? src) :
    ∃ p', extractProgram o name src' = .ok p' ∧ p'.programId = id ∧ p'.name = p.name ∧
      p'.states.map StateType.unplaced = p.states.map StateType.unplaced ∧
      p'.instructions.map Instruction.unplaced = p.instructions.map Instruction.unplaced := by
  obtain ⟨f, hParsed, hFile⟩ := bind_eq_ok_iff.mp hProgram
  obtain ⟨key, body, hKey, hBodies, rfl⟩ := ProgramId.replace_ok hReplace
  obtain ⟨pre, q, rfl, hq, _⟩ := ProgramId.opened_of_mem (hBodies ▸ List.mem_singleton_self body)
  obtain ⟨c, d, pos, place, text, oldKey, hClasses, hDeclares, hOldKey, hNew⟩ :=
    ofFile_withKey hFile
  have hQuote := ProgramId.isQuote_of_isQuote hq
  -- The declared string is the token that the replaced literal opens.
  obtain rfl : place = (Location.start.after pre).pos := by
    rw [ProgramId.declaredPlace?, hParsed, literalPlace?_of_literalBodies hBodies] at hPlace
    exact Option.some.inj ((idPlace?_of_declaresId hClasses hDeclares).symm.trans hPlace)
  obtain ⟨t, ht, hPos, hValue⟩ := exists_token_of_declaresId hParsed hClasses hDeclares
  have hStart : t.start = Location.start.after pre := by
    obtain ⟨before, hBefore, hStart⟩ := Lexer.exists_prefix_of_mem ht
    rw [Token.pos, hStart] at hPos
    rw [hStart, Location.prefix_eq_of_pos_eq hBefore (List.prefix_append pre _) hPos]
  rw [Lexer.literal_of_mem hQuote ht hStart] at hValue
  obtain ⟨old, rest, rfl, hRest, hLength, hOldValue⟩ :=
    ProgramId.exists_of_value? hq hValue hOldKey
  -- So the tokens of the new source are those of the old one with this string rewritten.
  obtain ⟨hNewLength, hNewValue⟩ := ProgramId.literal_id hKey hQuote
  have hTokens := Syntax.tokens_replaced hQuote ⟨t, ht, hStart⟩ hLength (by simp [hOldValue])
    (hNewLength rest) hNewValue
  have hFileTokens := mapError_eq_ok_iff.mp hParsed
  obtain ⟨f', hFile', hClasses', hInterfaces'⟩ := Syntax.file_of_token_eq hTokens hFileTokens
  have hApart := Syntax.Parser.file_apart (nodup_pos_tokens _) hFileTokens c
    (hClasses ▸ List.mem_singleton_self c) d (hDeclares.properties ▸ List.mem_singleton_self d)
  rw [hClasses, List.map_singleton,
    Syntax.ClassDecl.rewritten_single hDeclares.properties hDeclares.value hApart] at hClasses'
  obtain ⟨p', hProgram', hUnplaced⟩ : ∃ p', ofFile name o.settings f' = .ok p' ∧ _ :=
    ofFile_of_unplaced_eq (hNew id key hKey) hClasses' hInterfaces'
  have hText : (pre ++ q :: (old ++ q :: rest)).take
        ((pre ++ q :: (old ++ q :: rest)).length - (old ++ q :: rest).length) ++ id ++
          (old ++ q :: rest).dropWhile (!ProgramId.isQuote ·) =
      pre ++ q :: (id ++ q :: rest) := by
    have hLead : pre ++ q :: (old ++ q :: rest) = pre ++ [q] ++ (old ++ q :: rest) := by simp
    have hLeadLength : (pre ++ [q] ++ (old ++ q :: rest)).length - (old ++ q :: rest).length =
        (pre ++ [q]).length := by
      rw [List.length_append, Nat.add_sub_cancel]
    rw [hRest, hLead, hLeadLength, List.take_left]
    simp
  have hField {β : Type} (field : Program → β) :
      field p'.unplaced = field ({ p with programId := id } : Program).unplaced :=
    congrArg field hUnplaced
  refine ⟨p', ?_, hField (·.programId), hField (·.name), hField (·.states),
    hField (·.instructions)⟩
  rw [hText]
  exact bind_eq_ok_iff.mpr ⟨f', mapError_eq_ok_iff.mpr hFile', hProgram'⟩

end Program

/-- An id that is named in a comment and declared over two lines. -/
def spreadSource : Text := Text.join "\n" [
  "export default class P \x7b // PROGRAM_ID = new Pubkey(`1`)",
  "  static PROGRAM_ID = new",
  "    Pubkey( '11111111111111111111111111111111' /* system */ );",
  "  run(s: S) \x7b s.n = 1; \x7d",
  "\x7d",
  "interface S extends Account \x7b n: u64 \x7d"]

def tokenProgramId : Text := "TokenkegQfeZyiNwAJbNbGKPFXCWuBvf9Ss623VQ5DA"

theorem spreadSource_replaced : ∃ p src' p',
    extractProgram {} "p.ts" spreadSource = .ok p ∧ p.programId ≠ tokenProgramId ∧
      ProgramId.replace spreadSource tokenProgramId = .ok src' ∧
      ProgramId.declaredPlace? "p.ts" spreadSource = ProgramId.literalPlace? spreadSource ∧
      extractProgram {} "p.ts" src' = .ok p' ∧ p'.programId = tokenProgramId ∧
      p'.name = p.name ∧
      p'.states.map StateType.unplaced = p.states.map StateType.unplaced ∧
      p'.instructions.map Instruction.unplaced = p.instructions.map Instruction.unplaced := by
  obtain ⟨p, hProgram, hOld⟩ := exists_ok_of_any (x := extractProgram {} "p.ts" spreadSource)
    (fun p => p.programId != tokenProgramId) (by
      simp (disch := rfl) only [spreadSource, Text.ofString_literal]
      decide +kernel)
  obtain ⟨src', hReplace, _⟩ := exists_ok_of_any
    (x := ProgramId.replace spreadSource tokenProgramId) (fun _ => true) (by
      simp (disch := rfl) only [spreadSource, Text.ofString_literal]
      decide +kernel)
  have hPlace : ProgramId.declaredPlace? "p.ts" spreadSource =
      ProgramId.literalPlace? spreadSource := by
    simp (disch := rfl) only [spreadSource, Text.ofString_literal]
    decide +kernel
  obtain ⟨p', hProgram', hSame⟩ := Program.extractProgram_replace hProgram hReplace hPlace
  exact ⟨p, src', p', hProgram, bne_iff_ne.mp hOld, hReplace, hPlace, hProgram', hSame⟩

/-- A comment that reads like the declaration, which stands between quotes of another kind. -/
def decoySource : Text := Text.join "\n" [
  "export default class P \x7b // PROGRAM_ID = new Pubkey('')",
  "  static PROGRAM_ID = new Pubkey(`11111111111111111111111111111111`);",
  "\x7d"]

/-- The literal that is found need not be the declared one. -/
example : ProgramId.declaredPlace? "p.ts" decoySource ≠ ProgramId.literalPlace? decoySource := by
  simp (disch := rfl) only [decoySource, Text.ofString_literal]
  decide +kernel

end AnchorScript
