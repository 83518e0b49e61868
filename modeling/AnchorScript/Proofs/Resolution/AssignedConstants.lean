import AnchorScript.Proofs.Resolution.ConstantArithmetic
import AnchorScript.Proofs.Resolution.Replacement

/-!
# Constants that are assigned to fields

Which constants an accepted program may assign to a field in the place of what it assigns. An
integer literal has to fit the type of the field. Under a minus sign it has to fit without the sign
too, so the least number of a signed type cannot be written. A string literal has to fit the
reservation of the field, but only where it stands alone: in parentheses, or behind a variable, it
is accepted at any length.
-/

namespace AnchorScript

open Outcome

/-- What decides whether a value can be assigned to a field of an accepted program. -/
theorem Program.Assignment.exists_scope_of_fieldType? {o : CompileOptions} {name src : Text}
    {p : Program} (hp : extractProgram o name src = .ok p) (h : p.Resolves) (a : p.Assignment)
    {type : ValueType} (hField : p.fieldType? a.instruction a.account a.field = some type) :
    ∃ sc, Scope.Run ⟨p, a.instruction⟩ 0 (.initial a.instruction) a.before sc ∧
      ∀ v, (a.put v).Resolves ↔ ∃ source,
        sc.typeOf ⟨p, a.instruction⟩ a.account v = .ok source ∧ type.accepts source = true ∧
        sc.checkInt ⟨p, a.instruction⟩ type a.account v = .ok () ∧
        Scope.resolveAssign.checkLength ⟨p, a.instruction⟩ ⟨a.account, a.field, v⟩ type =
          .ok () := by
  obtain ⟨sc, target, hBefore, hTarget, hPut⟩ := a.exists_scope h
  have hRun := Scope.run_of_resolveBody hBefore
  have hRoles := hRun.hasRolesOf
    (.initial (extractProgram_distinctParams hp _ a.mem_instructions))
  obtain rfl : target.type = type :=
    Option.some.inj ((Scope.stateField_ok hRoles hTarget).symm.trans hField)
  exact ⟨sc, hRun, hPut⟩

/-- The assignment that ends the only instruction of a program. -/
def Program.lastAssignment? (p : Program) : Option p.Assignment :=
  match hInstructions : p.instructions with
  | [i] =>
    match hLast : i.body.getLast? with
    | some (.assign pos a) =>
      some {
        front := [], instruction := i, back := [], before := i.body.dropLast, pos
        account := a.account, field := a.field, value := a.value, after := []
        instructions_eq := hInstructions
        body_eq := (List.dropLast_append_getLast? _ hLast).symm }
    | _ => none
  | _ => none

namespace IntType

/-- The opposite of a natural number in range is in range, and the least number is no such
opposite. -/
theorem fits_and_fits_neg_iff {t : IntType} (h : t.signed = true) (n : Nat) :
    t.fits n = true ∧ t.fits (-n) = true ↔ t.fits (-n) = true ∧ (-n : Int) ≠ t.least := by
  simp only [fits, least, limit, h, ↓reduceIte, Bool.and_eq_true, decide_eq_true_eq]
  omega

end IntType

namespace Scope

variable {sc : Scope} {env : Surroundings} {about : Text} {t : IntType}

theorem checkRange_eq_ok_iff {v : Value} {n : Int} (h : sc.constValue v = some n) :
    sc.checkRange env t about v = .ok () ↔ t.fits n = true := by
  rw [checkRange, h]
  simp only [allowed_or_eq_ok_iff, and_true]

theorem checkInt_eq_checkIntExpr {type : ValueType} (hKind : type.kind = .int t)
    (hTyped : type ≠ .intLiteral) (v : Value) :
    sc.checkInt env type about v = sc.checkIntExpr env t about v := by
  rw [checkInt, hKind]
  exact if_neg hTyped

variable {lit : Text} {n : Nat} (hn : IntLiteral.value? lit = some n) (pos pos' : SourcePos)
include hn

theorem checkIntExpr_int_iff :
    sc.checkIntExpr env t about (.int pos lit) = .ok () ↔ t.fits n = true := by
  have hValue : sc.constValue (.int pos lit) = some (n : Int) := by
    rw [constValue, hn]
    rfl
  simp only [checkIntExpr, checkRange_eq_ok_iff hValue]

/-- Under a minus sign the literal is checked twice, without the sign and with it. -/
theorem checkIntExpr_neg_int_iff :
    sc.checkIntExpr env t about (.neg pos (.int pos' lit)) = .ok () ↔
      t.signed = true ∧ t.fits (-n) = true ∧ (-n : Int) ≠ t.least := by
  have hValue : sc.constValue (.neg pos (.int pos' lit)) = some (-n : Int) := by
    rw [constValue, constValue, hn]
    rfl
  rw [checkIntExpr, allowed_or_eq_ok_iff, bind_eq_ok_iff]
  simp only [checkRange_eq_ok_iff hValue, checkIntExpr_int_iff hn]
  constructor
  · rintro ⟨hSigned, _, hBoth⟩
    exact ⟨hSigned, (IntType.fits_and_fits_neg_iff hSigned n).mp hBoth⟩
  · rintro ⟨hSigned, hBoth⟩
    exact ⟨hSigned, (), (IntType.fits_and_fits_neg_iff hSigned n).mpr hBoth⟩

end Scope

/-- An integer literal can be assigned exactly if it fits the type of the field, and its opposite
exactly if the type is signed and the opposite fits it and is not the least number of the type. -/
theorem literal_assignable_iff {o : CompileOptions} {name src : Text} {p : Program}
    (hp : extractProgram o name src = .ok p) (h : p.Resolves) (a : p.Assignment) {type : ValueType}
    (hField : p.fieldType? a.instruction a.account a.field = some type) {t : IntType}
    (hInt : type.kind = .int t) {lit : Text} (hLit : IntLiteral.isValid lit = true)
    (pos pos' : SourcePos) :
    ∃ n : Nat, IntLiteral.value? lit = some n ∧
      ((a.put (.int pos lit)).Resolves ↔ t.fits n = true) ∧
      ((a.put (.neg pos (.int pos' lit))).Resolves ↔
        t.signed = true ∧ t.fits (-n) = true ∧ (-n : Int) ≠ t.least) := by
  obtain ⟨n, hn⟩ := IntLiteral.value?_of_isValid hLit
  obtain ⟨sc, _, hPut⟩ := a.exists_scope_of_fieldType? hp h hField
  have hTyped := ((extractProgram_typable hp).2 _ a.mem_instructions).fields _ _ _ hField
  have hAccepts : type.accepts .intLiteral = true := by
    simp [ValueType.accepts, hInt, ValueType.intLiteral]
  refine ⟨n, hn, ?_, ?_⟩
  · rw [hPut, Scope.checkInt_eq_checkIntExpr hInt hTyped, Scope.checkIntExpr_int_iff hn]
    constructor
    · rintro ⟨_, _, _, hFits, _⟩
      exact hFits
    · intro hFits
      exact ⟨.intLiteral, rfl, hAccepts, hFits, rfl⟩
  · rw [hPut, Scope.checkInt_eq_checkIntExpr hInt hTyped, Scope.checkIntExpr_neg_int_iff hn]
    constructor
    · rintro ⟨_, _, _, hOpposite, _⟩
      exact hOpposite
    · intro hOpposite
      exact ⟨.intLiteral, rfl, hAccepts, hOpposite, rfl⟩

/-- A program that assigns to an `i8`. -/
def byteSource : Text := Text.join "\n" [
  "export default class P \x7b",
  "static PROGRAM_ID = new Pubkey('11111111111111111111111111111111')",
  "f(s: S) \x7b s.a = 1 \x7d \x7d",
  "interface S extends Account \x7b a: i8 \x7d"]

theorem byteSource_literals_assignable : ∃ p, ∃ a : p.Assignment,
    extractProgram {} "p.ts" byteSource = .ok p ∧ p.Resolves ∧
      p.fieldType? a.instruction a.account a.field = some (.ofInt ⟨.w8, true⟩) ∧
      (a.put (.neg ⟨1, 1⟩ (.int ⟨1, 2⟩ "127"))).Resolves ∧
      IntType.fits ⟨.w8, true⟩ (-128) = true ∧
      ¬(a.put (.neg ⟨1, 1⟩ (.int ⟨1, 2⟩ "0x80"))).Resolves := by
  obtain ⟨p, hp, hChecked⟩ := exists_ok_of_any (x := extractProgram {} "p.ts" byteSource)
    (fun p => p.resolve.toOption.isSome && p.lastAssignment?.any fun a =>
      p.fieldType? a.instruction a.account a.field == some (.ofInt ⟨.w8, true⟩))
    (by
      simp (disch := rfl) only [byteSource, Text.ofString_literal]
      decide +kernel)
  rw [Bool.and_eq_true, Option.any_eq_true] at hChecked
  obtain ⟨hResolves, a, _, hField⟩ := hChecked
  have hResolves := Program.resolves_of_isSome hResolves
  have hField := eq_of_beq hField
  refine ⟨p, a, hp, hResolves, hField, ?_, by decide, ?_⟩
  · have hLit : IntLiteral.isValid "127" = true := by decide
    obtain ⟨n, hn, _, hOpposite⟩ :=
      literal_assignable_iff hp hResolves a hField rfl hLit ⟨1, 1⟩ ⟨1, 2⟩
    obtain rfl : 127 = n := Option.some.inj ((by decide : _ = some 127).symm.trans hn)
    exact hOpposite.mpr (by decide)
  · have hLit : IntLiteral.isValid "0x80" = true := by decide
    obtain ⟨n, hn, _, hOpposite⟩ :=
      literal_assignable_iff hp hResolves a hField rfl hLit ⟨1, 1⟩ ⟨1, 2⟩
    obtain rfl : 128 = n := Option.some.inj ((by decide : _ = some 128).symm.trans hn)
    rw [hOpposite]
    decide

/-- The value is this text: a literal in any number of parentheses, or a variable that one of the
statements before binds to such a value. -/
inductive ConstantText : List Statement → Value → Text → Prop
  | literal {before : List Statement} {pos : SourcePos} {text : Text} :
      ConstantText before (.string pos text) text
  | paren {before : List Statement} {pos : SourcePos} {v : Value} {text : Text}
      (h : ConstantText before v text) : ConstantText before (.paren pos v) text
  | var {earlier later : List Statement} {pos pos' : SourcePos} {l : LocalBinding} {text : Text}
      (h : ConstantText earlier l.value text) :
      ConstantText (earlier ++ .bind pos' l :: later) (.var pos l.name false) text

theorem ConstantText.eq_of_string {before : List Statement} {pos : SourcePos} {s text : Text}
    (h : ConstantText before (.string pos s) text) : s = text := by
  cases h
  rfl

/-- A variable with the kind of its value has the kind of a text. -/
theorem ValueType.exists_string_of_accepts {t source : ValueType} {n : Nat}
    (h : t.accepts source = true) (hSource : source.kind = .string n) :
    ∃ m, t.kind = .string m := by
  unfold accepts at h
  cases hKind : t.kind with
  | string m => exact ⟨m, rfl⟩
  | _ => simp [hKind, hSource, ValueKind.assignableFrom] at h

theorem ConstantText.exists_typeOf {env : Surroundings} {before : List Statement} {v : Value}
    {text : Text} (h : ConstantText before v text) {sc : Scope}
    (hRun : Scope.Run env 0 (.initial env.instruction) before sc)
    (hNodup : (sc.locals.map Prod.fst).Nodup) (about : Text) :
    ∃ t n, sc.typeOf env about v = .ok t ∧ t.kind = .string n := by
  induction h generalizing sc about with
  | literal => exact ⟨_, _, rfl, rfl⟩
  | paren _ ih => exact ih hRun hNodup about
  | @var earlier later pos pos' l text _ ih =>
    obtain ⟨sc₁, sc₂, hEarlier, hStep, hLater⟩ := hRun.split
    have hKept := (Scope.Run.cons hStep hLater).locals_suffix
    obtain ⟨source, n, hSource, hKind⟩ :=
      ih hEarlier (hNodup.sublist (hKept.sublist.map _)) []
    cases hStep with
    | @bind _ _ found t constants hFound hType =>
      obtain rfl : found = source := Except.ok.inj (hFound.symm.trans hSource)
      have hText : ∃ m, t.kind = .string m := by
        rcases hType with ⟨_, rfl⟩ | ⟨_, _, hAccepts, rfl⟩
        · exact ⟨n, hKind⟩
        · exact ValueType.exists_string_of_accepts hAccepts hKind
      obtain ⟨m, hm⟩ := hText
      have hVar : sc.varType? l.name = some t :=
        lookup_of_suffix hNodup hLater.locals_suffix List.lookup_cons_self
      exact ⟨t, m, by simp [Scope.typeOf, hVar], hm⟩

/-- A string of the vocabulary has room for something. -/
theorem DataType.pos_of_valueType?_string {name : Text} {maxLen n : Nat} {t : ValueType}
    (hMax : 0 < maxLen) (h : valueType? maxLen name = some t) (hKind : t.kind = .string n) :
    0 < n := by
  unfold valueType? at h
  split at h
  · cases h
    cases hKind
  · split at h
    · cases h
      cases hKind
    · split at h
      · cases h
        cases hKind
        exact hMax
      · split at h
        · cases h
          cases hKind
        · cases h

theorem DataType.pos_of_lookup?_string {name : Text} {arg : Option Text} {isState : Text → Bool}
    {maxLen n : Nat} {t : ValueType} (hMax : 0 < maxLen)
    (h : lookup? name arg isState maxLen = some (.value t)) (hKind : t.kind = .string n) :
    0 < n := by
  unfold lookup? at h
  split at h
  · simp only [Option.ite_none_right_eq_some, Option.map_eq_some_iff] at h
    obtain ⟨_, m, hArg, hValue⟩ := h
    cases hValue
    cases hKind
    unfold maxLenOfArg? at hArg
    split at hArg
    · simp only [Option.ite_none_right_eq_some, Option.some.injEq] at hArg
      omega
    · cases hArg
  · split at h
    · rename_i u hFound
      cases h
      exact pos_of_valueType?_string hMax hFound hKind
    · split at h
      · cases h
      · split at h <;> cases h

theorem CompileOptions.stringMaxLen_pos (o : CompileOptions) : 0 < o.settings.stringMaxLen := by
  rw [CompileOptions.settings, Program.Settings.ofMaxLen]
  dsimp only
  split
  · decide
  · omega

theorem extractProgram_reservation_pos {o : CompileOptions} {name src : Text} {p : Program}
    (h : extractProgram o name src = .ok p) {i : Instruction} {account field : Text}
    {type : ValueType} (hField : p.fieldType? i account field = some type) {maxLen : Nat}
    (hKind : type.kind = .string maxLen) : 0 < maxLen := by
  obtain ⟨_, _, _, _, _, st, hst, f, hf, _, rfl⟩ := Program.exists_param_of_fieldType? hField
  obtain ⟨_, _, _, hLookup⟩ := extractProgram_fields h hst hf
  exact DataType.pos_of_lookup?_string o.stringMaxLen_pos hLookup hKind

/-- A constant text can be assigned exactly if it fits the reservation of the field or does not
stand there as a bare literal. -/
theorem text_assignable_iff {o : CompileOptions} {name src : Text} {p : Program}
    (hp : extractProgram o name src = .ok p) (h : p.Resolves) (a : p.Assignment)
    {type : ValueType} (hField : p.fieldType? a.instruction a.account a.field = some type)
    {maxLen : Nat} (hKind : type.kind = .string maxLen) {v : Value} {text : Text}
    (hText : ConstantText a.before v text) :
    (a.put v).Resolves ↔ ((∃ pos, v = .string pos text) → text.length ≤ maxLen) := by
  obtain ⟨sc, hRun, hPut⟩ := a.exists_scope_of_fieldType? hp h hField
  have hRoom := extractProgram_reservation_pos hp hField hKind
  have hApart := ((extractProgram_typable hp).2 _ a.mem_instructions).apart
  have hNodup := hRun.nodup_locals a.body_eq hApart
  obtain ⟨source, n, hSource, hSourceKind⟩ := hText.exists_typeOf hRun hNodup a.account
  have hAccepts : type.accepts source = true := by
    simp [ValueType.accepts, hKind, hSourceKind, ValueKind.assignableFrom]
  have hInt : sc.checkInt ⟨p, a.instruction⟩ type a.account v = .ok () := by
    rw [Scope.checkInt, hKind]
  rw [hPut]
  constructor
  · rintro ⟨_, _, _, _, hLength⟩ ⟨pos, rfl⟩
    simpa [Scope.resolveAssign.checkLength, hKind, hRoom] using hLength
  · intro hFits
    refine ⟨source, hSource, hAccepts, hInt, ?_⟩
    cases v with
    | string pos s =>
      obtain rfl := hText.eq_of_string
      simpa [Scope.resolveAssign.checkLength, hKind, hRoom] using hFits
    | _ => rfl

/-- A program that assigns eight bytes, bound to a variable, to a field with room for four. -/
def tagSource : Text := Text.join "\n" [
  "export default class P \x7b",
  "static PROGRAM_ID = new Pubkey('11111111111111111111111111111111')",
  "f(s: S) \x7b const x = 'abcdefgh'; s.tag = (x) \x7d \x7d",
  "interface S extends Account \x7b tag: Str<4> \x7d"]

/-- The only statement before the assignment binds this text to a variable, and the assignment reads
the variable in parentheses. -/
def Program.Assignment.readsBound {p : Program} (a : p.Assignment) (text : Text) : Bool :=
  match a.before, a.value with
  | [.bind _ l], .paren _ (.var _ x false) =>
    l.name == x && match l.value with
      | .string _ s => s == text
      | _ => false
  | _, _ => false

theorem Program.Assignment.constantText_of_readsBound {p : Program} {a : p.Assignment} {text : Text}
    (h : a.readsBound text = true) : ConstantText a.before a.value text := by
  unfold readsBound at h
  split at h
  · rename_i l pos pos' x hBefore hValue
    rw [Bool.and_eq_true, beq_iff_eq] at h
    obtain ⟨rfl, h⟩ := h
    split at h
    · rename_i s hString
      rw [hBefore, hValue]
      have hLiteral : ConstantText [] l.value text := by
        rw [hString, eq_of_beq h]
        exact .literal
      exact .paren (.var hLiteral)
    · cases h
  · cases h

theorem tagSource_texts_assignable : ∃ p, ∃ a : p.Assignment, ∃ type,
    extractProgram {} "p.ts" tagSource = .ok p ∧ p.Resolves ∧
      p.fieldType? a.instruction a.account a.field = some type ∧ type.kind = .string 4 ∧
      ConstantText a.before a.value "abcdefgh" ∧
      (a.put (.paren ⟨1, 1⟩ (.string ⟨1, 2⟩ "abcdefgh"))).Resolves ∧
      ¬(a.put (.string ⟨1, 1⟩ "abcdefgh")).Resolves := by
  obtain ⟨p, hp, hChecked⟩ := exists_ok_of_any (x := extractProgram {} "p.ts" tagSource)
    (fun p => p.resolve.toOption.isSome && p.lastAssignment?.any fun a =>
      (p.fieldType? a.instruction a.account a.field).any (·.kind == .string 4) &&
        a.readsBound "abcdefgh") (by
      simp (disch := rfl) only [tagSource, Text.ofString_literal]
      decide +kernel)
  simp only [Bool.and_eq_true, Option.any_eq_true] at hChecked
  obtain ⟨hResolves, a, _, ⟨type, hField, hKind⟩, hReads⟩ := hChecked
  have hResolves := Program.resolves_of_isSome hResolves
  have hKind := eq_of_beq hKind
  refine ⟨p, a, type, hp, hResolves, hField, hKind, a.constantText_of_readsBound hReads, ?_, ?_⟩
  · refine (text_assignable_iff hp hResolves a hField hKind (.paren .literal)).mpr ?_
    rintro ⟨_, ⟨⟩⟩
  · rw [text_assignable_iff hp hResolves a hField hKind .literal]
    intro hFits
    exact absurd (hFits ⟨_, rfl⟩) (by decide)

end AnchorScript
