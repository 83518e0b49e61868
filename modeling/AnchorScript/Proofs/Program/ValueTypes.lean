import AnchorScript.Proofs.Handler.Naming
import AnchorScript.Proofs.Program.Declarations
import AnchorScript.Proofs.Text.Characters

/-!
# Types and literals of an extracted program

No type of the vocabulary is the type of a bare literal, so in an extracted program only literals
and variables bound to them have it. Every literal is a number, and the same number as Rust writes
it. The variables of a body are named apart from each other and from the parameters.
-/

namespace AnchorScript

open Outcome

namespace IntLiteral

theorem split_cases (s : Text) :
    (∃ letter base r, s = 48 :: letter :: r ∧
      (letter, base) ∈ ([(120, 16), (98, 2), (111, 8)] : List (UInt8 × Nat)) ∧
      split s = (base, r)) ∨ split s = (10, s) := by
  fun_cases split s <;> simp

theorem split_base (s : Text) : (split s).1 ∈ [2, 8, 10, 16] := by
  rcases split_cases s with ⟨letter, base, r, rfl, hLetter, hSplit⟩ | hSplit
  · rw [hSplit]
    exact (show ∀ l ∈ ([(120, 16), (98, 2), (111, 8)] : List (UInt8 × Nat)),
      l.2 ∈ [2, 8, 10, 16] by decide) _ hLetter
  · simp [hSplit]

theorem readDigits_cons (base n : Nat) (b : UInt8) (bs : Text) :
    readDigits base n (b :: bs) =
      match digit? base b with
      | some d => readDigits base (base * n + d) bs
      | none => none := rfl

theorem digit?_of_mem_digitSet {base : Nat} (hBase : base ∈ [2, 8, 10, 16]) {b : UInt8}
    (hb : b ∈ digitSet base) : ∃ d, digit? base b = some d := by
  have hAll : ∀ base ∈ [2, 8, 10, 16],
      (digitSet base).all (fun b => (digit? base b).isSome) = true := by
    decide +kernel
  exact Option.isSome_iff_exists.mp (List.all_eq_true.mp (hAll base hBase) b hb)

theorem readDigits_of_forall {base : Nat} {ds : Text} (h : ∀ b ∈ ds, ∃ d, digit? base b = some d)
    (n : Nat) : ∃ m, readDigits base n ds = some m := by
  induction ds generalizing n with
  | nil => exact ⟨n, rfl⟩
  | cons b bs ih =>
    obtain ⟨⟨d, hDigit⟩, hRest⟩ := List.forall_mem_cons.mp h
    rw [readDigits_cons, hDigit]
    exact ih hRest (base * n + d)

theorem value?_of_isValid {lit : Text} (h : isValid lit = true) : ∃ n, value? lit = some n := by
  simp only [isValid, Bool.and_eq_true, Bool.not_eq_true'] at h
  obtain ⟨hSome, hDigits⟩ := h
  have hRead : ∀ b ∈ (split (bare lit)).2, ∃ d, digit? (split (bare lit)).1 b = some d := by
    intro b hb
    have hMem := List.all_eq_true.mp hDigits b hb
    exact digit?_of_mem_digitSet (split_base _) (by simpa using hMem)
  obtain ⟨n, hn⟩ := readDigits_of_forall hRead 0
  refine ⟨n, ?_⟩
  simp only [value?, hSome, Bool.false_eq_true, ↓reduceIte]
  exact hn

theorem lowerByte_lowerByte (b : UInt8) : Text.lowerByte (Text.lowerByte b) = Text.lowerByte b := by
  rcases Text.lowerByte_eq_or_ascii b with hSame | hAscii
  · rw [hSame, hSame]
  · exact Text.forall_ascii (P := fun b => Text.lowerByte (Text.lowerByte b) = Text.lowerByte b)
      (by decide) hAscii

theorem isAscii_of_lowerByte {b : UInt8} (h : Text.lowerByte b < 128) : b < 128 := by
  rcases Text.lowerByte_eq_or_ascii b with hSame | hAscii
  · rwa [hSame] at h
  · exact hAscii

/-- A digit is ASCII, and so is what stands before the digits. -/
theorem isAscii_of_split {s : Text} (h : ∀ b ∈ (split s).2, b ∈ digitSet (split s).1) :
    Text.IsAscii s := by
  have hDigit : ∀ base ∈ [2, 8, 10, 16], Text.IsAscii (digitSet base) := by decide +kernel
  have hDigits : Text.IsAscii (split s).2 := fun b hb => hDigit _ (split_base s) b (h b hb)
  rcases split_cases s with ⟨letter, base, r, rfl, hLetter, hSplit⟩ | hSplit
  · rw [hSplit] at hDigits
    have hLow : letter < 128 :=
      (show ∀ l ∈ ([(120, 16), (98, 2), (111, 8)] : List (UInt8 × Nat)), l.1 < 128 by decide)
        _ hLetter
    exact List.forall_mem_cons.mpr ⟨by decide, List.forall_mem_cons.mpr ⟨hLow, hDigits⟩⟩
  · rw [hSplit] at hDigits
    exact hDigits

theorem isAscii_of_isValid {lit : Text} (h : isValid lit = true) : Text.IsAscii lit := by
  simp only [isValid, Bool.and_eq_true] at h
  have hBare : Text.IsAscii (bare lit) := isAscii_of_split fun b hb => by
    simpa using List.all_eq_true.mp h.2 b hb
  intro b hb
  by_cases hLine : Text.lowerByte b = 95
  · exact isAscii_of_lowerByte (by rw [hLine]; decide)
  · refine isAscii_of_lowerByte (hBare _ (List.mem_filter.mpr ⟨List.mem_map_of_mem hb, ?_⟩))
    simpa using hLine

/-- The literal that Rust reads is the literal that was written. -/
theorem value?_rust {lit : Text} (h : isValid lit = true) : value? (rust lit) = value? lit := by
  have hBare : bare (lit.map Text.lowerByte) = bare lit := by
    rw [bare, bare, List.map_map]
    congr 1
    exact List.map_congr_left fun b _ => lowerByte_lowerByte b
  rw [rust, Text.toLower_of_isAscii (isAscii_of_isValid h), value?, value?, hBare]

end IntLiteral

theorem DataType.valueType?_ne_intLiteral {maxLen : Nat} {name : Text} {t : ValueType}
    (h : valueType? maxLen name = some t) : t ≠ .intLiteral := by
  have hInts : ∀ u ∈ IntType.all, ValueType.ofInt u ≠ .intLiteral := by decide +kernel
  unfold valueType? at h
  split at h
  · rename_i u hFound
    cases h
    exact hInts u (List.mem_of_find?_eq_some hFound)
  · rintro rfl
    split at h
    · cases h
    · split at h
      · cases h
      · split at h <;> cases h

theorem DataType.lookup?_ne_intLiteral {name : Text} {arg : Option Text} {isState : Text → Bool}
    {maxLen : Nat} {t : ValueType} (h : lookup? name arg isState maxLen = some (.value t)) :
    t ≠ .intLiteral := by
  unfold lookup? at h
  split at h
  · split at h
    · obtain ⟨n, _, hValue⟩ := Option.map_eq_some_iff.mp h
      cases hValue
      intro hSame
      cases congrArg ValueType.kind hSame
    · cases h
  · split at h
    · rename_i u hFound
      cases h
      exact valueType?_ne_intLiteral hFound
    · split at h
      · cases h
      · split at h <;> cases h

theorem DataType.eq_value_of_value? {d : DataType} {t : ValueType} (h : d.value? = some t) :
    d = .value t := by
  cases d with
  | account => cases h
  | value => exact congrArg DataType.value (Option.some.inj h)

/-- The names of the variables of a body, in order. -/
def Instruction.varNames (i : Instruction) : List Text :=
  (i.body.filterMap Statement.declaration?).map Prod.fst

namespace Program

/-- What extraction settles about the types and the literals of an instruction. -/
structure Typable (p : Program) (i : Instruction) : Prop where
  literals : ∀ s ∈ i.body, ∀ pos lit, Value.int pos lit ∈ s.reads → IntLiteral.isValid lit = true
  args : ∀ name t, i.argType? name = some t → t ≠ .intLiteral
  fields : ∀ account field t, p.fieldType? i account field = some t → t ≠ .intLiteral
  declared : ∀ pos l, .bind pos l ∈ i.body → ∀ t, l.declared = some (.value t) → t ≠ .intLiteral
  apart : i.varNames.Nodup
  fresh : ∀ name ∈ i.varNames, i.param? name = none

section Extraction

variable {file : Text} {s : Settings} {isState : Text → Bool} {c : BodyContext}

theorem StandsFor.isValid_of_int {e : Syntax.Expr} {v : Value} (h : StandsFor c e v)
    {pos : SourcePos} {lit : Text} (hInt : Value.int pos lit ∈ v.leaves) :
    IntLiteral.isValid lit = true := by
  induction h with
  | int hValid =>
    cases List.mem_singleton.mp hInt
    exact hValid
  | @toBytes object _ v w _ hBytes =>
    cases v with
    | arg | var | key | field =>
      cases hBytes
      cases List.mem_singleton.mp hInt
    | _ => cases hBytes
  | paren _ ih => exact ih hInt
  | neg _ ih => exact ih hInt
  | binary _ _ _ ihLeft ihRight =>
    rcases List.mem_append.mp hInt with hInt | hInt
    · exact ihLeft hInt
    · exact ihRight hInt
  | _ => cases List.mem_singleton.mp hInt

theorem variables_unseen {declared : List Text} {ss : List Syntax.Statement}
    {body : List Statement} (h : bodyOf c declared ss = .ok body) :
    Unseen declared ((body.filterMap Statement.declaration?).map Prod.fst) := by
  fun_induction bodyOf c declared ss generalizing body with
  | case1 =>
    cases h
    exact ⟨List.nodup_nil, by simp⟩
  | case2 => cases h
  | case3 =>
    cases h
    exact ⟨List.nodup_nil, by simp⟩
  | case4 declared pos kind name type value rest ih =>
    simp only [bindStatement, refused_or_eq_ok_iff, bind_eq_ok_iff, pure_eq_ok_iff] at h
    obtain ⟨_, ⟨hFresh, _, _, _, _, rfl⟩, body', hBody, rfl⟩ := h
    simp only [Bool.or_eq_true, not_or, Bool.not_eq_true] at hFresh
    exact Unseen.cons hFresh.2 (ih hBody)
  | case5 declared pos target value rest ih =>
    simp only [bind_eq_ok_iff, pure_eq_ok_iff] at h
    obtain ⟨st, hst, body', hBody, rfl⟩ := h
    have hNone : st.declaration? = none := by
      cases extracts_of_assignStatement hst
      rfl
    rw [List.filterMap_cons_none hNone]
    exact ih hBody
  | case6 declared pos callee args rest ih =>
    simp only [bind_eq_ok_iff, pure_eq_ok_iff] at h
    obtain ⟨st, hst, body', hBody, rfl⟩ := h
    have hExtracts : Extracts c (.expr pos (.call callee args)) st := extracts_of_callStatement hst
    have hNone : st.declaration? = none := by
      cases hExtracts <;> rfl
    rw [List.filterMap_cons_none hNone]
    exact ih hBody
  | case7 => cases h

theorem paramType_ne_intLiteral {instruction : Text} {seen : List Text}
    {fs : List Syntax.FieldDecl} {params : List Param}
    (h : paramsOf file s instruction isState seen fs = .ok params) :
    ∀ q ∈ params, ∀ t, q.type = .value t → t ≠ .intLiteral := by
  fun_induction paramsOf file s instruction isState seen fs generalizing params with
  | case1 =>
    cases h
    simp
  | case2 => cases h
  | case3 seen f fs hSeen type hType ih =>
    simp only [bind_eq_ok_iff, pure_eq_ok_iff] at h
    obtain ⟨rest, hRest, rfl⟩ := h
    refine List.forall_mem_cons.mpr ⟨?_, ih hRest⟩
    rintro t rfl
    exact DataType.lookup?_ne_intLiteral hType
  | case4 => cases h

/-- Every field has a type of the vocabulary. -/
theorem exists_lookup_of_mem {stateName : Text} {seen : List Text} {fs : List Syntax.FieldDecl}
    {fields : List StateField} (h : stateFields file s stateName isState seen fs = .ok fields) :
    ∀ f ∈ fields, ∃ name arg,
      DataType.lookup? name arg isState s.stringMaxLen = some (.value f.type) := by
  fun_induction stateFields file s stateName isState seen fs generalizing fields with
  | case1 =>
    cases h
    simp
  | case2 => cases h
  | case3 seen f fs hSeen type hType ih =>
    simp only [bind_eq_ok_iff, pure_eq_ok_iff] at h
    obtain ⟨rest, hRest, rfl⟩ := h
    exact List.forall_mem_cons.mpr ⟨⟨_, _, hType⟩, ih hRest⟩
  | case4 => cases h

theorem declaredType_ne_intLiteral {name : Text} {type : Option Syntax.TypeRef} {t : ValueType}
    (h : declaredType c name type = .ok (some (.value t))) : t ≠ .intLiteral := by
  unfold declaredType at h
  split at h
  · cases h
  · split at h
    · rename_i hType
      cases h
      exact DataType.lookup?_ne_intLiteral hType
    · cases h

theorem exists_method_of_mem {seen : List Text} {ms : List Syntax.MethodDecl}
    {is : List Instruction} (h : instructionsOf file s isState seen ms = .ok is) {i : Instruction}
    (hi : i ∈ is) : ∃ m, instructionOf file s isState m = .ok i := by
  induction ms generalizing seen is with
  | nil =>
    cases h
    cases hi
  | cons m ms ih =>
    simp only [instructionsOf, refused_or_eq_ok_iff, bind_eq_ok_iff, pure_eq_ok_iff] at h
    obtain ⟨_, first, hFirst, rest, hRest, rfl⟩ := h
    rcases List.mem_cons.mp hi with rfl | hi
    · exact ⟨m, hFirst⟩
    · exact ih hRest hi

theorem stateNames_unseen {seen names : List Text} {is : List Syntax.InterfaceDecl}
    (h : stateNames file seen is = .ok names) : Unseen seen (is.map (·.name)) := by
  induction is generalizing seen with
  | nil => exact ⟨List.nodup_nil, by simp⟩
  | cons d is ih =>
    simp only [stateNames, refused_or_eq_ok_iff] at h
    exact Unseen.cons (by simpa using h.1) (ih h.2)

end Extraction

/-- The type of a field that is found is declared with a field of a state type. -/
theorem exists_param_of_fieldType? {p : Program} {i : Instruction} {account field : Text}
    {t : ValueType} (h : p.fieldType? i account field = some t) :
    ∃ q ∈ i.params, ∃ n, q.name = account ∧ q.type = .account (.state n) ∧
      ∃ st ∈ p.states, ∃ f ∈ st.fields, f.name = field ∧ f.type = t := by
  unfold fieldType? at h
  split at h
  · rename_i n hRole
    obtain ⟨q, hq, hType⟩ := Option.bind_eq_some_iff.mp hRole
    obtain ⟨f, hf, rfl⟩ := Option.map_eq_some_iff.mp h
    obtain ⟨st, hst, hf⟩ := Option.bind_eq_some_iff.mp hf
    refine ⟨q, List.mem_of_find?_eq_some hq, n, by simpa using List.find?_some hq, ?_, st,
      List.mem_of_find?_eq_some hst, f, List.mem_of_find?_eq_some hf,
      by simpa using List.find?_some hf, rfl⟩
    cases hSame : q.type with
    | account role =>
      rw [hSame] at hType
      exact congrArg DataType.account (Option.some.inj hType)
    | value =>
      rw [hSame] at hType
      cases hType
  · cases h

theorem typable_of_instructionOf {file : Text} {s : Settings} {isState : Text → Bool}
    {p : Program} {m : Syntax.MethodDecl} {i : Instruction}
    (hFields : ∀ st ∈ p.states, ∀ f ∈ st.fields, f.type ≠ .intLiteral)
    (h : instructionOf file s isState m = .ok i) : p.Typable i := by
  have hMethod := extractsMethod_of_instructionOf h
  simp only [instructionOf, refused_or_eq_ok_iff, bind_eq_ok_iff, pure_eq_ok_iff] at h
  obtain ⟨_, returns, _, params, hParams, body, hBody, rfl⟩ := h
  constructor
  · intro st hst pos lit hInt
    obtain ⟨v, hv, hInt⟩ := List.mem_flatMap.mp hInt
    obtain ⟨_, _, hExtracts⟩ := exists_of_mem_right hMethod.body hst
    obtain ⟨e, hStands⟩ := standsFor_of_extracts hExtracts v hv
    exact hStands.isValid_of_int hInt
  · intro name t hArg
    obtain ⟨q, hq, hValue⟩ := Option.bind_eq_some_iff.mp hArg
    exact paramType_ne_intLiteral hParams q (List.mem_of_find?_eq_some hq) t
      (DataType.eq_value_of_value? hValue)
  · intro account field t hType
    obtain ⟨_, _, _, _, _, st, hst, f, hf, _, rfl⟩ := exists_param_of_fieldType? hType
    exact hFields st hst f hf
  · intro pos l hl t hDeclared
    obtain ⟨_, _, hExtracts⟩ := exists_of_mem_right hMethod.body hl
    cases hExtracts with
    | bind _ _ hType =>
      cases hDeclared
      exact declaredType_ne_intLiteral hType
  · exact (variables_unseen hBody).1
  · intro name hName
    obtain ⟨_, hDeclaration, rfl⟩ := List.mem_map.mp hName
    obtain ⟨st, hst, hDeclares⟩ := List.mem_filterMap.mp hDeclaration
    obtain ⟨_, _, hExtracts⟩ := exists_of_mem_right hMethod.body hst
    cases hExtracts with
    | bind hFresh =>
      cases hDeclares
      exact hFresh
    | _ => cases hDeclares

end Program

/-- The types of the fields that a program declares are those of the vocabulary. -/
theorem extractProgram_fields {o : CompileOptions} {name src : Text} {p : Program}
    (h : extractProgram o name src = .ok p) {st : StateType} (hst : st ∈ p.states)
    {f : StateField} (hf : f ∈ st.fields) : ∃ name arg isState,
      DataType.lookup? name arg isState o.settings.stringMaxLen = some (.value f.type) := by
  obtain ⟨file, _, hFile⟩ := bind_eq_ok_iff.mp h
  simp only [Program.ofFile, bind_eq_ok_iff, pure_eq_ok_iff] at hFile
  obtain ⟨_, _, names, _, states, hStates, _, _, _, _, rfl⟩ := hFile
  obtain ⟨d, _, hState⟩ := exists_of_mem_right (mapM_eq_ok_iff.mp hStates) hst
  simp only [Program.stateType, bind_eq_ok_iff, pure_eq_ok_iff] at hState
  obtain ⟨fields, hFields, rfl⟩ := hState
  obtain ⟨name, arg, hLookup⟩ := Program.exists_lookup_of_mem hFields f hf
  exact ⟨name, arg, _, hLookup⟩

theorem extractProgram_typable {o : CompileOptions} {name src : Text} {p : Program}
    (h : extractProgram o name src = .ok p) :
    (p.states.map (·.name)).Nodup ∧ ∀ i ∈ p.instructions, p.Typable i := by
  have hTypes : ∀ st ∈ p.states, ∀ f ∈ st.fields, f.type ≠ .intLiteral := by
    intro st hst f hf
    obtain ⟨_, _, _, hLookup⟩ := extractProgram_fields h hst hf
    exact DataType.lookup?_ne_intLiteral hLookup
  obtain ⟨f, _, hFile⟩ := bind_eq_ok_iff.mp h
  simp only [Program.ofFile, bind_eq_ok_iff, pure_eq_ok_iff] at hFile
  obtain ⟨_, _, names, hNames, states, hStates, _, _, is, his, rfl⟩ := hFile
  constructor
  · dsimp only
    rw [Program.map_name_of_stateType hStates]
    exact (Program.stateNames_unseen hNames).1
  · intro i hi
    obtain ⟨m, hMethod⟩ := Program.exists_method_of_mem his hi
    exact Program.typable_of_instructionOf hTypes hMethod

end AnchorScript
