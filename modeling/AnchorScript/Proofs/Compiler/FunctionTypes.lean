import AnchorScript.Proofs.Compiler.HandlerTypes
import AnchorScript.Proofs.Compiler.Linkage
import AnchorScript.Proofs.Compiler.PrintedDescription

/-!
# Types of emitted functions

A function that is read in the emitted text has types, with each variable looked up as Rust does,
exactly if its statements have types for themselves and no value reads a name of the source that was
bound again, to Rust, under another spelling. Nothing is captured where no state account is named by
a keyword.
-/

namespace AnchorScript

open Outcome

/-- With these types of the names that the source gives, the function is well typed. A variable that
is bound to bare literals and used at no type has the type that is taken by default. -/
structure Rust.Function.TypedBy (f : Rust.Function) (c : Rust.ContextStruct)
    (states : List Rust.StateStruct) (p : Program) (r : ResolvedInstruction) (τ : Text → Text) :
    Prop where
  args : ∀ a ∈ f.args, τ a.name = a.type
  values : ∀ x ∈ r.source.identifiers, ∃ k : ValueKind, τ x = k.rust
  body : Rust.BodyTyped (c.HasFieldType states) r.source.identifiers τ
    (f.args.map fun a => (Rust.bare a.name, some a.type)) f.body
  unused : ∀ x, r.IsLiteral x → (∀ u, ¬r.UsedAt p x u) →
    τ (Rust.ident x) = ResolvedInstruction.defaultInt.name

/-- No value of the function reads a name of the source that was bound again under another
spelling. -/
def Rust.Function.Uncaptured (f : Rust.Function) (own : List Text) : Prop :=
  Rust.Uncaptured own (f.args.map (·.name)) f.body

instance (f : Rust.Function) (own : List Text) : Decidable (f.Uncaptured own) :=
  inferInstanceAs (Decidable (Rust.Uncaptured own (f.args.map (·.name)) f.body))

namespace Rust

section Capture

variable {states : List StateStruct} {c : ContextStruct} {own names : List Text}

/-- A value reads variables that are in scope, and the context. -/
theorem Expr.OfValues.mem_of_inScope {e : Expr} (hValues : e.OfValues own)
    (h : e.InScope states c names) {n : Text} (hn : n ∈ e.vars) (hContext : n ≠ "ctx") :
    n ∈ names := by
  induction hValues with
  | int | bool | string => cases hn
  | @var x =>
    cases List.mem_singleton.mp hn
    have hPath := h [n] List.mem_cons_self
    generalize hSingle : [n] = path at hPath
    cases hPath with
    | var hVar => exact List.head_eq_of_cons_eq hSingle ▸ hVar
    | _ => cases hSingle
  | field | bump | key => exact absurd (List.mem_singleton.mp hn) hContext
  | call _ ih | paren _ ih | neg _ ih => exact ih h hn
  | binary _ _ ihLeft ihRight =>
    rcases List.mem_append.mp hn with hn | hn
    · exact ihLeft (fun path hPath => h path (List.mem_append_left _ hPath)) hn
    · exact ihRight (fun path hPath => h path (List.mem_append_right _ hPath)) hn

variable (hApart : ∀ g ∈ own, ∀ g' ∈ own, bare g = bare g' → g = g')

include hApart

theorem binder?_of_apart (hNames : ∀ g ∈ names, g ∉ own → ∀ u ∈ own, bare g ≠ bare u) {n : Text}
    (hn : n ∈ names) (hOwn : n ∈ own) : binder? names n = some n := by
  cases hFound : binder? names n with
  | none => exact absurd (List.find?_eq_none.mp hFound n hn) (by simp)
  | some g =>
    have hSame : bare g = bare n := by simpa using List.find?_some hFound
    by_cases hg : g ∈ own
    · rw [hApart g hg n hOwn hSame]
    · exact absurd hSame (hNames g (List.mem_of_find?_eq_some hFound) hg n hOwn)

/-- Values of a scoped body capture nothing if no other name is, to Rust, one of the source, by
induction on the statements. -/
theorem uncaptured_of_scoped (hContext : Text.ofString "ctx" ∉ own) {body : List Stmt}
    (hScoped : Scoped states c names body) (hShape : ∀ s ∈ body, s.Shape own)
    (hBound : ∀ s ∈ body, ∀ g, s.bound? = some g → g ∉ own → ∀ u ∈ own, bare g ≠ bare u)
    (hNames : ∀ g ∈ names, g ∉ own → ∀ u ∈ own, bare g ≠ bare u) :
    Rust.Uncaptured own names body := by
  induction hScoped with
  | nil => trivial
  | @cons names s rest hReads _ _ ih =>
    obtain ⟨hHere, hRest⟩ := List.forall_mem_cons.mp hShape
    obtain ⟨hBoundHere, hBoundRest⟩ := List.forall_mem_cons.mp hBound
    refine ⟨fun e he n hn hOwn => binder?_of_apart hApart hNames ?_ hOwn, ih hRest hBoundRest ?_⟩
    · have hOther : n ≠ "ctx" := fun hSame => hContext (hSame ▸ hOwn)
      exact (hHere.ofValues e he).mem_of_inScope (hReads e (s.values_subset he)) hn hOther
    · refine List.forall_mem_append.mpr ⟨fun g hg => hBoundHere g (Option.mem_toList.mp hg), hNames⟩

end Capture

end Rust

namespace Handler

variable {p : Program} {r : ResolvedInstruction} {t : Handler} {τ : Text → Text}

theorem shape_of_sourced (h : Made p r t) {s : Rust.Stmt} (hs : Sourced p r s) :
    s.Shape r.source.identifiers := by
  cases hs with
  | body hMem hBecomes =>
    cases hBecomes with
    | write hExpr => exact .assign (ofValues_of_expresses h.resolved hMem List.mem_cons_self hExpr)
    | bind hExpr =>
      exact .bind (Instruction.mem_identifiers_of_bind hMem)
        (ofValues_of_expresses h.resolved hMem List.mem_cons_self hExpr)
    | call hExpr => exact .invoke (ofValues_of_expresses h.resolved hMem List.mem_cons_self hExpr)
  | buffer hName hSource =>
    cases hSource with
    | argument hType =>
      exact .buffer hName (.var (Instruction.mem_identifiers_of_argType? hType))
    | field => exact .buffer hName .field
  | handle hHandle hBound hName => exact .handle hHandle hBound hName

namespace Made

theorem exists_declaration {x : Text} (hx : x ∈ r.source.identifiers) :
    ∃ d ∈ r.source.declarations, Rust.ident d.1 = x := by
  obtain ⟨n, hn, rfl⟩ := List.mem_map.mp hx
  rcases List.mem_append.mp hn with hn | hn
  · obtain ⟨q, hq, rfl⟩ := List.mem_map.mp hn
    exact ⟨_, Instruction.mem_declarations_of_param (List.mem_filter.mp hq).1, rfl⟩
  · obtain ⟨d, hd, rfl⟩ := List.mem_map.mp hn
    exact ⟨d, List.mem_append_right _ hd, rfl⟩

theorem context (h : Made p r t) : contextParam ∉ r.source.identifiers := by
  obtain ⟨names, hNames⟩ := h.declareAll
  intro hMem
  obtain ⟨d, hd, hSame⟩ := exists_declaration hMem
  exact ((lookup_of_declareAll hNames).1 d hd).1 hSame

theorem apart (h : Made p r t) : ∀ g ∈ r.source.identifiers, ∀ g' ∈ r.source.identifiers,
    Rust.bare g = Rust.bare g' → g = g' := by
  intro g hg g' hg' hSame
  obtain ⟨d, hd, rfl⟩ := exists_declaration hg
  obtain ⟨d', hd', rfl⟩ := exists_declaration hg'
  have hWord {d : Text × SourcePos} (hd : d ∈ r.source.declarations) : IsWord d.1 :=
    (h.names _ (Program.mem_declaredNames_of_instruction h.declared
      (List.mem_cons_of_mem _ (List.mem_map_of_mem hd)))).isWord
  rw [Rust.bare_ident (hWord hd), Rust.bare_ident (hWord hd')] at hSame
  rw [Rust.ident, Rust.ident, hSame]

theorem assigns (h : Made p r t) (hValues : ∀ x ∈ r.source.identifiers, ∃ k : ValueKind, τ x = k.rust) :
    Rust.Assigns ((Rust.ContextStruct.ofInstruction r).HasFieldType (p.states.map .ofState))
      r.source.identifiers τ := by
  refine ⟨h.apart, h.context, hValues, ?_⟩
  rintro account f type ⟨_, _, st, hst, _, _, hField⟩
  obtain ⟨st, _, rfl⟩ := List.mem_map.mp hst
  obtain ⟨field, _, hSame⟩ := List.mem_map.mp hField
  exact ⟨field.type.kind, (congrArg Rust.StructField.type hSame).symm⟩

theorem shape (h : Made p r t) : ∀ s ∈ Rust.printed t.body, s.Shape r.source.identifiers :=
  fun s hs => shape_of_sourced h (h.sourced s hs)

theorem mem_identifiers_of_arg (h : Made p r t) {a : HandlerArg} (ha : a ∈ t.args) :
    a.name ∈ r.source.identifiers := by
  rw [(heading_of_ofInstruction h.translated).2.2] at ha
  obtain ⟨q, hq, rfl⟩ := List.mem_map.mp ha
  exact List.mem_map_of_mem (List.mem_append_left _ (List.mem_map_of_mem hq))

/-- The function that is printed for a handler has types exactly if the statements have them for
themselves and nothing is captured. -/
theorem typedBy_iff (h : Made p r t) :
    (Rust.Function.ofHandler t).TypedBy (.ofInstruction r) (p.states.map .ofState) p r τ ↔
      (∀ x ∈ r.source.identifiers, ∃ k : ValueKind, τ x = k.rust) ∧ t.TypedBy p r τ ∧
        (Rust.Function.ofHandler t).Uncaptured r.source.identifiers := by
  have hTracked (hArgs : ∀ a ∈ t.args, τ a.name = a.type) :
      List.Forall₂ (Rust.Tracked r.source.identifiers τ) (t.args.map (·.name))
        (t.args.map fun a => (Rust.bare a.name, some a.type)) := by
    rw [List.forall₂_map_left_iff, List.forall₂_map_right_iff, List.forall₂_same]
    intro a ha
    exact ⟨rfl, fun _ => congrArg some (hArgs a ha).symm,
      fun hNot => absurd (h.mem_identifiers_of_arg ha) hNot⟩
  constructor
  · rintro ⟨hArgs, hValues, hBody, hUnused⟩
    obtain ⟨hUncaptured, hTyped⟩ :=
      (Rust.bodyTyped_iff (h.assigns hValues) h.shape (hTracked hArgs)).mp hBody
    exact ⟨hValues, ⟨hArgs, hTyped, hUnused⟩, hUncaptured⟩
  · rintro ⟨hValues, ⟨hArgs, hTyped, hUnused⟩, hUncaptured⟩
    exact ⟨hArgs, hValues, (Rust.bodyTyped_iff (h.assigns hValues) h.shape (hTracked hArgs)).mpr
      ⟨hUncaptured, hTyped⟩, hUnused⟩

theorem values_of_typesNames (h : Made p r t) (hNames : TypesNames p r τ) :
    ∀ x ∈ r.source.identifiers, ∃ k : ValueKind, τ x = k.rust := by
  intro x hx
  obtain ⟨n, hn, rfl⟩ := List.mem_map.mp hx
  rcases List.mem_append.mp hn with hn | hn
  · obtain ⟨q, hq, rfl⟩ := List.mem_map.mp hn
    obtain ⟨hParam, hValue⟩ := List.mem_filter.mp hq
    cases hType : q.type with
    | account => simp [hType, DataType.isAccount] at hValue
    | value ty =>
      refine ⟨ty.kind, (hNames q.name).arg ty ?_⟩
      rw [Instruction.argType?, Instruction.param?_of_mem h.params hParam, Option.bind_some, hType]
      rfl
  · obtain ⟨ty, hVar⟩ := Resolution.exists_local h.resolved hn
    by_cases hLiteral : ty = .intLiteral
    · obtain ⟨u, _, hType⟩ := (hNames n).literal (hVar.trans (congrArg some hLiteral))
      exact ⟨.int u, hType⟩
    · exact ⟨ty.kind, (hNames n).var ty hVar hLiteral⟩

theorem uncaptured (h : Made p r t) (hStates : r.source.PlainStates) :
    (Rust.Function.ofHandler t).Uncaptured r.source.identifiers := by
  have hLinked := linked_of_ofInstruction h.declared h.names h.params h.resolved h.translated
  have hApart := namesApart_of_ofInstruction h.declared h.names h.params h.resolved h.translated
  have hHygienic := hygienic_printed (sourceNames_eq h.translated) hApart (hApart.hygienic hStates)
  refine Rust.uncaptured_of_scoped h.apart h.context hLinked.body h.shape ?_ ?_
  · exact fun s hs g hg hNot u hu => hHygienic.apart s hs g hg hNot u (List.mem_cons_of_mem _ hu)
  · refine List.forall_mem_map.mpr fun a ha hNot => ?_
    exact absurd (h.mem_identifiers_of_arg ha) hNot

end Made

end Handler

/-- The function of an instruction is read with the struct of its context, and has types exactly
where its bare literals agree and nothing is captured. That they agree is forced only if the fields
of each state struct are distinct. -/
structure EmittedInstruction.TypedWhenAgreed (e : EmittedInstruction) (p : Program)
    (states : List Rust.StateStruct) : Prop where
  typed : e.instruction.LiteralsAgree p → e.function.Uncaptured e.instruction.source.identifiers →
    ∃ τ, e.function.TypedBy e.context states p e.instruction τ
  agrees : p.FieldsApart → (∃ τ, e.function.TypedBy e.context states p e.instruction τ) →
    e.instruction.LiteralsAgree p ∧ e.function.Uncaptured e.instruction.source.identifiers
  uncaptured : e.instruction.source.PlainStates →
    e.function.Uncaptured e.instruction.source.identifiers

theorem Handler.Made.typedWhenAgreed {p : Program} {r : ResolvedInstruction} {t : Handler}
    (h : Made p r t) :
    (EmittedInstruction.ofPair p.programId (r, t)).TypedWhenAgreed p (p.states.map .ofState) := by
  constructor
  · intro hAgree hUncaptured
    obtain ⟨τ, hNames⟩ := exists_typesNames h
    exact ⟨τ, h.typedBy_iff.mpr ⟨h.values_of_typesNames hNames,
      typedBy_of_literalsAgree h hAgree hNames, hUncaptured⟩⟩
  · rintro hFields ⟨τ, hTyped⟩
    obtain ⟨_, hHandler, hUncaptured⟩ := h.typedBy_iff.mp hTyped
    exact ⟨hHandler.literalsAgree h hFields, hUncaptured⟩
  · exact h.uncaptured

/-- The functions that stand in the emitted text of an accepted source are well typed where the
variables that are bound to bare literals agree with themselves and no value reads a captured name,
and only there if the fields of each state struct are distinct. -/
theorem handler_typed_iff {o : CompileOptions} {name src : Text} {out : CompileOutput}
    (h : compile o name src = .ok out) :
    ∃ r s d es, resolveSource o name src = .ok r ∧ Rust.readSource out.rust = some s ∧
      EmittedFor r s d es ∧ ∀ e ∈ es, e.TypedWhenAgreed r.source s.states := by
  obtain ⟨r, hs, s, d, hResolved, hHandlers, hRead, -, hEmitted⟩ := compile_emitted h
  obtain ⟨p, hExtracted, hp⟩ := bind_eq_ok_iff.mp hResolved
  obtain ⟨rfl, _⟩ := Program.resolve_eq_ok_iff.mp hp
  obtain ⟨hStates, hTypable⟩ := extractProgram_typable hExtracted
  refine ⟨r, s, d, _, hResolved, hRead, hEmitted, List.forall_mem_map.mpr ?_⟩
  rintro ⟨i, t⟩ hit
  have hi := (List.of_mem_zip hit).1
  obtain ⟨hDeclared, _⟩ := Program.resolved_of_mem hp hi
  obtain ⟨hParams, hInstruction⟩ := resolveSource_of_mem hResolved hi
  have hMade : Handler.Made r.source i t :=
    ⟨hStates, extractProgram_isName hExtracted, hDeclared, hParams, hTypable _ hDeclared,
      hInstruction, (List.forall₂_iff_zip.mp (mapM_eq_ok_iff.mp hHandlers)).2 hit⟩
  rw [hEmitted.states]
  exact hMade.typedWhenAgreed

/-- A program that stores one variable without a declared type in fields of two types, declares a
variable that is stored in one of them, and pays an argument whose name a buffer takes. -/
def sharedLiteralSource : Text := Text.join "\n" [
  "export default class P \x7b",
  "static PROGRAM_ID = new Pubkey('11111111111111111111111111111111')",
  "open(s: S) \x7b const x = 5; s.a = x; s.b = x \x7d",
  "declared(s: S) \x7b const x: u8 = 5; s.a = x + 1 \x7d",
  "captured(type: S, v: SystemAccount, type_b_bytes: u64) \x7b",
  "v.derive(['v', type.b])",
  "SystemProgram.transfer(v, v, type_b_bytes, ['v', type.b, v.getBump()])",
  "\x7d\x7d",
  "interface S extends Account \x7b a: u8; b: u64 \x7d"]

/-- Some statement reads the variable in a value that it uses at the type. -/
def ResolvedInstruction.usesAt (i : ResolvedInstruction) (p : Program) (x : Text) (t : IntType) :
    Bool :=
  i.source.body.any fun s => (i.intUse? p s).any fun q => q.1.vars.contains x && q.2 == t

theorem ResolvedInstruction.usedAt_of_usesAt {i : ResolvedInstruction} {p : Program} {x : Text}
    {t : IntType} (h : i.usesAt p x t = true) : i.UsedAt p x t := by
  obtain ⟨s, hs, hUses⟩ := List.any_eq_true.mp h
  obtain ⟨⟨v, u⟩, hUse, hRead⟩ := (Option.any_eq_true _ _).mp hUses
  simp only [Bool.and_eq_true, List.contains_iff_mem, beq_iff_eq] at hRead
  obtain ⟨hx, rfl⟩ := hRead
  exact .use hs hUse hx

/-- The variable is bound to bare literals, and used at two types. -/
def ResolvedInstruction.disagreesOn (i : ResolvedInstruction) (p : Program) (x : Text)
    (t u : IntType) : Bool :=
  i.locals.lookup x = some .intLiteral && i.usesAt p x t && i.usesAt p x u && t != u

theorem ResolvedInstruction.not_agree_of_disagreesOn {i : ResolvedInstruction} {p : Program}
    {x : Text} {t u : IntType} (h : i.disagreesOn p x t u = true) : ¬i.LiteralsAgree p := by
  simp only [disagreesOn, Bool.and_eq_true, decide_eq_true_eq, bne_iff_ne] at h
  obtain ⟨⟨⟨hLiteral, hFirst⟩, hSecond⟩, hOther⟩ := h
  exact fun hAgree => hOther
    (hAgree.unique _ _ _ hLiteral (usedAt_of_usesAt hFirst) (usedAt_of_usesAt hSecond))

theorem ResolvedInstruction.LiteralsAgree.of_all {i : ResolvedInstruction} {p : Program}
    (h : (i.locals.all fun q => q.2 != .intLiteral) = true) : i.LiteralsAgree p := by
  refine .of_typed fun x hLiteral => ?_
  obtain ⟨front, back, hSplit, _⟩ := List.lookup_eq_some_iff.mp hLiteral
  have hTyped := List.all_eq_true.mp h (x, .intLiteral) (by simp [hSplit])
  simp at hTyped

/-- Whether `x` is used at two types, all variables have types of their own, and nothing is
captured. -/
def typeNotes (p : Program) (i : ResolvedInstruction) (f : Rust.Function) : Bool × Bool × Bool :=
  (i.disagreesOn p "x" ⟨.w8, false⟩ ⟨.w64, false⟩, i.locals.all fun q => q.2 != .intLiteral,
    f.Uncaptured i.source.identifiers)

theorem sharedLiteralSource_typed : ∃ out, compile {} "p.ts" sharedLiteralSource = .ok out ∧
    ∃ r s d opened declared captured, resolveSource {} "p.ts" sharedLiteralSource = .ok r ∧
      Rust.readSource out.rust = some s ∧ EmittedFor r s d [opened, declared, captured] ∧
      (¬∃ τ, opened.function.TypedBy opened.context s.states r.source opened.instruction τ) ∧
      (∃ τ, declared.function.TypedBy declared.context s.states r.source declared.instruction τ) ∧
      ¬∃ τ, captured.function.TypedBy captured.context s.states r.source captured.instruction τ := by
  obtain ⟨out, hOut, _⟩ := exists_ok_of_any (x := compile {} "p.ts" sharedLiteralSource)
    (fun out => !out.rust.isEmpty) (by
      simp (disch := rfl) only [sharedLiteralSource, Text.ofString_literal]
      decide +kernel)
  obtain ⟨r', hr', hChecked⟩ := exists_ok_of_any
    (x := resolveSource {} "p.ts" sharedLiteralSource) (fun r =>
      (r.source.states.map Rust.StateStruct.ofState).all
          (fun s => decide (s.fields.map Rust.StructField.name).Nodup) &&
        r.handlers.toOption.any fun hs => List.zipWith (typeNotes r.source) r.instructions
          (hs.map .ofHandler) == [(true, false, true), (false, true, true), (false, true, false)]) (by
      simp (disch := rfl) only [sharedLiteralSource, Text.ofString_literal]
      decide +kernel)
  obtain ⟨hFields, hNotes⟩ := Bool.and_eq_true_iff.mp hChecked
  obtain ⟨hs, hHandlers, hNotes⟩ := exists_ok_of_any _ hNotes
  obtain ⟨r, s, d, es, hr, hRead, hEmitted, hTyped⟩ := handler_typed_iff hOut
  obtain rfl : r' = r := Except.ok.inj (hr'.symm.trans hr)
  have hApart : r'.source.FieldsApart :=
    fun s hs => of_decide_eq_true (List.all_eq_true.mp hFields s hs)
  have hEach := (map_of_handlers hOut hr hHandlers hRead hEmitted (typeNotes r'.source)).trans
    (beq_iff_eq.mp hNotes)
  obtain ⟨opened, rest, rfl, hOpened, hRest⟩ := List.map_eq_cons_iff.mp hEach
  obtain ⟨declared, rest, rfl, hDeclared, hRest⟩ := List.map_eq_cons_iff.mp hRest
  obtain ⟨captured, rest, rfl, hCaptured, hRest⟩ := List.map_eq_cons_iff.mp hRest
  obtain rfl := List.map_eq_nil_iff.mp hRest
  obtain ⟨hOpenedTyped, hRest⟩ := List.forall_mem_cons.mp hTyped
  obtain ⟨hDeclaredTyped, hRest⟩ := List.forall_mem_cons.mp hRest
  have hCapturedTyped := List.forall_mem_singleton.mp hRest
  obtain ⟨hDisagrees, -⟩ := Prod.mk.inj hOpened
  obtain ⟨hLiterals, hUncaptured⟩ := Prod.mk.inj (Prod.mk.inj hDeclared).2
  obtain ⟨-, hCaptures⟩ := Prod.mk.inj (Prod.mk.inj hCaptured).2
  refine ⟨out, hOut, r', s, d, opened, declared, captured, hr, hRead, hEmitted, ?_, ?_, ?_⟩
  · exact fun h => ResolvedInstruction.not_agree_of_disagreesOn hDisagrees
      (hOpenedTyped.agrees hApart h).1
  · exact hDeclaredTyped.typed (.of_all hLiterals) (of_decide_eq_true hUncaptured)
  · exact fun h => of_decide_eq_false hCaptures (hCapturedTyped.agrees hApart h).2

end AnchorScript
