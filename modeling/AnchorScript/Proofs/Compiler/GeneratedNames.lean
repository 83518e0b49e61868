import AnchorScript.Proofs.Compiler.DistinctNames
import AnchorScript.Proofs.Handler.BodyScope
import AnchorScript.Proofs.Handler.Statements

/-!
# Generated names

The variables that only a handler needs take no name of its arguments and of its other variables,
and no two buffers share a name. So far as Rust compares identifiers, without the mark `r#`, there
is one exception: a buffer for a field of a state account whose name is a keyword begins with the
mark, and without it the buffer may be named like a variable of the source or like another buffer.
-/

namespace AnchorScript

open Outcome

/-- The variables that a call introduces. -/
def Invocation.generatedNames (i : Invocation) : List Text :=
  i.accountsName :: i.contextName :: ((i.signer.map (·.name)).toList ++ i.bufferNames)

def HandlerStmt.boundName? : HandlerStmt → Option Text
  | .bind name _ _ _ => some name
  | _ => none

namespace Handler

def invocations (t : Handler) : List Invocation := t.body.filterMap HandlerStmt.invocation?

def generatedNames (t : Handler) : List Text := t.invocations.flatMap Invocation.generatedNames

def bufferNames (t : Handler) : List Text := t.invocations.flatMap Invocation.bufferNames

/-- The context, the arguments and the variables of the source. -/
def sourceNames (t : Handler) : List Text :=
  contextParam :: (t.args.map (·.name) ++ t.body.filterMap HandlerStmt.boundName?)

/-- No generated variable is, to Rust, a name of the source or the buffer of another seed. -/
structure Hygienic (t : Handler) : Prop where
  apart : ∀ g ∈ t.generatedNames, ∀ u ∈ t.sourceNames, Rust.bare g ≠ Rust.bare u
  buffers : (t.bufferNames.map Rust.bare).Nodup

end Handler

/-- What the buffer for a field of an account is named after, given the account's identifier. -/
def Handler.fieldBuffer (id field : Text) : Text := id ++ "_" ++ Rust.snakeCase field ++ "_bytes"

/-- A name that a buffer gets because a state account of the instruction is named by a keyword. -/
def Instruction.MarkedBuffer (i : Instruction) (g : Text) : Prop :=
  ∃ q ∈ i.params, ∃ n field, q.type = .account (.state n) ∧ Rust.snakeCase q.name ∈ Rust.keywords ∧
    Handler.fieldBuffer (Rust.marked (Rust.snakeCase q.name)) field <+: g

/-- No state account of the instruction is named by a keyword. -/
def Instruction.PlainStates (i : Instruction) : Prop :=
  ∀ q ∈ i.params, ∀ n, q.type = .account (.state n) → Rust.snakeCase q.name ∉ Rust.keywords

/-- Generated names are apart as they are written, and apart to Rust but for marked buffers. -/
structure NamesApart (i : Instruction) (t : Handler) : Prop where
  spelled : ∀ g ∈ t.generatedNames, g ∉ t.sourceNames
  buffers : t.bufferNames.Nodup
  captured : ∀ g ∈ t.generatedNames, ∀ u ∈ t.sourceNames, Rust.bare g = Rust.bare u →
    g = Rust.marked u ∧ i.MarkedBuffer g
  shared : ∀ g ∈ t.bufferNames, ∀ g' ∈ t.bufferNames, Rust.bare g = Rust.bare g' → g ≠ g' →
    i.MarkedBuffer g ∨ i.MarkedBuffer g'

namespace Handler

/-- What the buffer of a seed is named after, where the seed may need one. -/
def bufferBase? : SeedSource → Option Text
  | .stateField ref _ => some (fieldBuffer (Rust.ident ref.account) ref.field)
  | .argument name _ => some (Rust.snakeCase name ++ "_bytes")
  | _ => none

theorem signerSeed_buffer {used : List Text} {s : SeedSource} {b : SeedBuffer}
    (h : (signerSeed used s).2 = some b) :
    ∃ base, bufferBase? s = some base ∧ b.name = FreshName.avoid used base := by
  have hBorrow {source : Rust.Expr} {base : Text} {t : ValueType}
      (h : (borrow used source base t).2 = some b) :
      b.name = FreshName.avoid used (base ++ "_bytes") := by
    unfold borrow at h
    split at h
    · cases h
    · cases h
      rfl
  cases s with
  | literal | accountKey | bump => cases h
  | stateField ref t => exact ⟨_, rfl, hBorrow h⟩
  | argument name t => exact ⟨_, rfl, hBorrow h⟩

theorem signerSeedList_buffers {used : List Text} {ss : List Seed} :
    ∀ b ∈ (signerSeedList used ss).1, ∃ s ∈ ss, ∃ base used', bufferBase? s.source = some base ∧
      b.name = FreshName.avoid used' base := by
  induction ss generalizing used with
  | nil =>
    intro b hb
    cases hb
  | cons s rest ih =>
    intro b hb
    rw [signerSeedList] at hb
    rcases List.mem_append.mp hb with hb | hb
    · obtain ⟨base, hBase, hName⟩ := signerSeed_buffer (Option.mem_toList.mp hb)
      exact ⟨s, List.mem_cons_self, base, used, hBase, hName⟩
    · obtain ⟨s', hs', hBuffer⟩ := ih b hb
      exact ⟨s', List.mem_cons_of_mem s hs', hBuffer⟩

/-- Each buffer avoids those before it. -/
theorem nodup_signerSeedList {used : List Text} {ss : List Seed} :
    ((signerSeedList used ss).1.map (·.name)).Nodup := by
  induction ss generalizing used with
  | nil => exact List.nodup_nil
  | cons s rest ih =>
    rw [signerSeedList, List.map_append]
    cases hBuffer : (signerSeed used s.source).2 with
    | none => exact ih
    | some b =>
      refine List.nodup_cons.mpr ⟨fun hMem => ?_, ih⟩
      obtain ⟨b', hb', hName⟩ := List.mem_map.mp hMem
      refine (bufferNames_fresh b' hb').1 ?_
      rw [hName]
      exact List.mem_cons_self

theorem bufferNames_of_invocation {fr : Frame} {names : Names} {generated bound : List Text}
    {index : Nat} {c : CrossProgramCall} {inv : Invocation}
    (h : invocation fr names generated bound index c = .ok inv) :
    inv.bufferNames = [] ∨ c.signerSeeds.isSome = true ∧ inv.bufferNames =
      (signerSeedList (generated ++ names.map Prod.fst)
        ((fr.instruction.seedsAt? index).getD [])).1.map (·.name) := by
  rw [Invocation.bufferNames, signer_of_invocation h]
  cases c.signerSeeds with
  | none => exact .inl rfl
  | some => exact .inr ⟨rfl, rfl⟩

/-- The buffers of a whole body are apart, by induction on the body: those of a call avoid those of
the calls before it. -/
theorem nodup_bufferNames {fr : Frame} {names : Names} {generated bound : List Text} {index : Nat}
    {body : List Statement} {ts : List HandlerStmt}
    (h : stmtsOf fr names generated bound index body = .ok ts) :
    ((ts.filterMap HandlerStmt.invocation?).flatMap Invocation.bufferNames).Nodup ∧
      ∀ g ∈ (ts.filterMap HandlerStmt.invocation?).flatMap Invocation.bufferNames,
        g ∉ generated := by
  induction body generalizing generated bound index ts with
  | nil =>
    cases h
    exact ⟨List.nodup_nil, by simp⟩
  | cons s rest ih =>
    cases s with
    | assign pos a =>
      simp only [stmtsOf, bind_eq_ok_iff, pure_eq_ok_iff] at h
      obtain ⟨_, _, ts, hRest, rfl⟩ := h
      have hLater := ih hRest
      exact hLater
    | bind pos l =>
      simp only [stmtsOf, bind_eq_ok_iff, pure_eq_ok_iff] at h
      obtain ⟨_, _, ts, hRest, rfl⟩ := h
      have hLater := ih hRest
      exact hLater
    | derive pos d => exact ih h
    | close pos c => exact ih h
    | call pos c =>
      simp only [stmtsOf, bind_eq_ok_iff, pure_eq_ok_iff] at h
      obtain ⟨inv, hInvocation, ts, hRest, rfl⟩ := h
      obtain ⟨hNodup, hApart⟩ := ih hRest
      have hHere : inv.bufferNames.Nodup ∧ ∀ g ∈ inv.bufferNames, g ∉ generated := by
        rcases bufferNames_of_invocation hInvocation with hNone | ⟨_, hNames⟩
        · rw [hNone]
          exact ⟨List.nodup_nil, by simp⟩
        · rw [hNames]
          refine ⟨nodup_signerSeedList, List.forall_mem_map.mpr fun b hb hUsed => ?_⟩
          exact (bufferNames_fresh b hb).1 (List.mem_append_left _ hUsed)
      constructor
      · refine List.nodup_append'.mpr ⟨hHere.1, hNodup, fun g hg hLater => ?_⟩
        exact hApart g hLater (List.mem_append_left _ hg)
      · refine List.forall_mem_append.mpr ⟨hHere.2, fun g hg hUsed => ?_⟩
        exact hApart g hg (List.mem_append_right _ hUsed)

/-- What the variables of a call are named after, apart from its buffers. -/
def fixedBases : List Text :=
  List.map Text.ofString
    ["transfer_accounts", "mint_to_accounts", "burn_accounts", "cpi_ctx", "signer_seeds"]

theorem fixedBases_spec {base : Text} (h : base ∈ fixedBases) :
    IsWord base ∧ 5 < base.length ∧ 95 ∈ base := by
  have hAll : ∀ base ∈ fixedBases, (base ≠ [] ∧ (base.all Lexer.isIdentPart = true)) ∧
      5 < base.length ∧ 95 ∈ base := by
    decide +kernel
  obtain ⟨⟨hNonempty, hParts⟩, hRest⟩ := hAll base h
  exact ⟨⟨hNonempty, List.all_eq_true.mp hParts⟩, hRest⟩

/-- A generated name is free and is numbered from its base. -/
structure Generated (r : ResolvedInstruction) (names : Names) (index : Nat) (c : CrossProgramCall)
    (inv : Invocation) (g : Text) : Prop where
  free : g ∉ names.map Prod.fst
  ne_context : Rust.bare g ≠ contextParam
  base : (∃ base ∈ fixedBases, base <+: g) ∨ g ∈ inv.bufferNames ∧ c.signerSeeds.isSome = true ∧
    ∃ s ∈ (r.seedsAt? index).getD [], ∃ base, bufferBase? s.source = some base ∧ base <+: g

theorem fixedNames_of_invocation {fr : Frame} {names : Names} {generated bound : List Text}
    {index : Nat} {c : CrossProgramCall} {inv : Invocation}
    (h : invocation fr names generated bound index c = .ok inv) :
    ∀ g ∈ inv.accountsName :: inv.contextName :: (inv.signer.map (·.name)).toList,
      ∃ base ∈ fixedBases, g = FreshName.avoid (names.map Prod.fst) base := by
  have hAccounts : c.action.baseName ++ "_accounts" ∈ fixedBases := by
    cases c.action <;> (simp only [CallAction.baseName]; decide)
  simp only [invocation, bind_eq_ok_iff, pure_eq_ok_iff] at h
  obtain ⟨_, _, rfl⟩ := h
  intro g hg
  rcases List.mem_cons.mp hg with rfl | hg
  · exact ⟨_, hAccounts, rfl⟩
  · rcases List.mem_cons.mp hg with rfl | hg
    · exact ⟨"cpi_ctx", by decide, rfl⟩
    · obtain ⟨s, hs, rfl⟩ := Option.map_eq_some_iff.mp (Option.mem_toList.mp hg)
      obtain ⟨_, _, rfl⟩ := Option.map_eq_some_iff.mp hs
      exact ⟨"signer_seeds", by decide, rfl⟩

theorem generated_of_invocation {p : Program} {r : ResolvedInstruction} {names : Names}
    {generated bound : List Text} {index : Nat} {c : CrossProgramCall} {inv : Invocation}
    (h : invocation ⟨p, r⟩ names generated bound index c = .ok inv) :
    ∀ g ∈ inv.generatedNames, Generated r names index c inv g := by
  intro g hg
  rw [Invocation.generatedNames, ← List.cons_append, ← List.cons_append] at hg
  rcases List.mem_append.mp hg with hg | hg
  · obtain ⟨base, hBase, rfl⟩ := fixedNames_of_invocation h g hg
    exact ⟨FreshName.avoid_not_mem _ _, bare_avoid_ne_contextParam _ (fixedBases_spec hBase).2.1,
      .inl ⟨base, hBase, FreshName.prefix_avoid _ _⟩⟩
  · rcases bufferNames_of_invocation h with hNone | ⟨hSigned, hNames⟩
    · rw [hNone] at hg
      cases hg
    · have hMem := hg
      rw [hNames] at hMem
      obtain ⟨b, hb, rfl⟩ := List.mem_map.mp hMem
      obtain ⟨hFree, hContext⟩ := bufferNames_fresh b hb
      obtain ⟨s, hs, base, used, hBase, hName⟩ := signerSeedList_buffers b hb
      refine ⟨fun hTaken => hFree (List.mem_append_right _ hTaken), hContext,
        .inr ⟨hg, hSigned, s, hs, base, hBase, ?_⟩⟩
      rw [hName]
      exact FreshName.prefix_avoid used base

theorem boundNames_of_stmtsOf {fr : Frame} {names : Names} {generated bound : List Text}
    {index : Nat} {body : List Statement} {ts : List HandlerStmt}
    (h : stmtsOf fr names generated bound index body = .ok ts) :
    ts.filterMap HandlerStmt.boundName? =
      (body.filterMap Statement.declaration?).map (Rust.ident ·.1) := by
  induction body generalizing generated bound index ts with
  | nil =>
    cases h
    rfl
  | cons s rest ih =>
    cases s with
    | assign =>
      simp only [stmtsOf, bind_eq_ok_iff, pure_eq_ok_iff] at h
      obtain ⟨_, _, ts, hRest, rfl⟩ := h
      have hLater := ih hRest
      exact hLater
    | bind pos l =>
      simp only [stmtsOf, bind_eq_ok_iff, pure_eq_ok_iff] at h
      obtain ⟨_, _, ts, hRest, rfl⟩ := h
      exact congrArg (Rust.ident l.name :: ·) (ih hRest)
    | call =>
      simp only [stmtsOf, bind_eq_ok_iff, pure_eq_ok_iff] at h
      obtain ⟨_, _, ts, hRest, rfl⟩ := h
      have hLater := ih hRest
      exact hLater
    | derive => exact ih h
    | close => exact ih h

section Instruction

variable {p : Program} {r : ResolvedInstruction} {names : Names}

/-- The base of a buffer is a word, or it has the mark of a state account. -/
theorem bufferBase_of_isSeed (hi : r.source ∈ p.instructions)
    (hNames : ∀ n ∈ p.declaredNames, IsName n) {v : Value} {s : SeedSource}
    (hSeed : IsSeed p r.source v s) {base : Text} (hBase : bufferBase? s = some base) :
    95 ∈ base ∧ (IsWord base ∧ 2 ≤ base.length ∨ r.source.MarkedBuffer base) := by
  have hBytes : IsWord (Text.ofString "_bytes") := isWord_of_all rfl (by decide)
  have hLength : (Text.ofString "_bytes").length = 6 := by decide
  have hUnderscore (s : Text) : 95 ∈ s ++ Text.ofString "_bytes" :=
    List.mem_append_right s (by decide)
  have hParam {q : Param} (hq : q ∈ r.source.params) : IsWord (Rust.snakeCase q.name) := by
    refine Rust.isWord_snakeCase
      (hNames _ (Program.mem_declaredNames_of_instruction hi ?_)).isWord
    exact List.mem_cons_of_mem _ (List.mem_map_of_mem (Instruction.mem_declarations_of_param hq))
  cases hSeed with
  | literal | key => cases hBase
  | @field _ account field _ t hType =>
    cases hBase
    obtain ⟨q, hq, n, rfl, hState, st, hst, f, hf, rfl, _⟩ := Program.exists_param_of_fieldType? hType
    have hField : IsWord (Rust.snakeCase f.name) := by
      refine Rust.isWord_snakeCase (hNames _ (Program.mem_declaredNames_of_state hst ?_)).isWord
      exact List.mem_cons_of_mem _ (List.mem_map_of_mem hf)
    refine ⟨hUnderscore _, ?_⟩
    rcases Rust.ident_cases q.name with ⟨-, hPlain⟩ | ⟨hKeyword, hMarked⟩
    · left
      rw [hPlain, fieldBuffer]
      constructor
      · exact (((hParam hq).append (isWord_of_all rfl rfl)).append hField).append hBytes
      · rw [List.length_append]
        omega
    · rw [hMarked]
      exact .inr ⟨q, hq, n, f.name, hState, hKeyword, List.prefix_rfl⟩
  | @argument _ name _ t hType =>
    cases hBase
    obtain ⟨q, hq, _⟩ := Option.bind_eq_some_iff.mp hType
    have hWord := hParam (List.mem_of_find?_eq_some hq)
    rw [show q.name = name by simpa using List.find?_some hq] at hWord
    refine ⟨hUnderscore _, .inl ⟨hWord.append hBytes, ?_⟩⟩
    rw [List.length_append]
    omega

/-- A generated name has an underscore, and the mark of a keyword only if it is a marked buffer. -/
theorem Generated.bare_or_marked (hi : r.source ∈ p.instructions)
    (hNames : ∀ n ∈ p.declaredNames, IsName n) (hDistinct : r.source.DistinctParams)
    (hResolved : Resolution.resolveInstruction p r.source = .ok r) {index : Nat} {pos : SourcePos}
    {c : CrossProgramCall} {inv : Invocation} {g : Text}
    (hIndex : r.source.body[index]? = some (.call pos c)) (h : Generated r names index c inv g) :
    95 ∈ g ∧ (Rust.bare g = g ∨ g ∈ inv.bufferNames ∧ r.source.MarkedBuffer g) := by
  rcases h.base with ⟨base, hBase, hPrefix⟩ | ⟨hBuffer, hSigned, s, hs, base, hBase, hPrefix⟩
  · obtain ⟨hWord, hLength, hUnderscore⟩ := fixedBases_spec hBase
    exact ⟨hPrefix.subset hUnderscore,
      .inl (Rust.bare_of_isWord_prefix hWord (by omega) hPrefix)⟩
  · obtain ⟨vs, hvs⟩ := Option.isSome_iff_exists.mp hSigned
    obtain ⟨_, ss, hss, front, last, fronts, b, _, hSources, hFront, _⟩ :=
      Resolution.signerSeeds_of_getElem? hDistinct hResolved hIndex hvs
    rw [hss, Option.getD_some] at hs
    have hMem := List.mem_map_of_mem (f := Seed.source) hs
    rw [hSources] at hMem
    rcases List.mem_append.mp hMem with hMem | hMem
    · obtain ⟨v, _, hSeed⟩ := exists_of_mem_right hFront hMem
      obtain ⟨hUnderscore, hWord⟩ := bufferBase_of_isSeed hi hNames hSeed hBase
      refine ⟨hPrefix.subset hUnderscore, ?_⟩
      rcases hWord with ⟨hWord, hLength⟩ | ⟨q, hq, n, field, hState, hKeyword, hMark⟩
      · exact .inl (Rust.bare_of_isWord_prefix hWord hLength hPrefix)
      · exact .inr ⟨hBuffer, q, hq, n, field, hState, hKeyword, hMark.trans hPrefix⟩
    · rw [List.mem_singleton.mp hMem] at hBase
      cases hBase

theorem exists_call_of_invocation {ts : List HandlerStmt}
    (h : stmtsOf ⟨p, r⟩ names [] [] 0 r.source.body = .ok ts) {inv : Invocation}
    (hInv : inv ∈ ts.filterMap HandlerStmt.invocation?) :
    ∃ index pos c generated bound, r.source.body[index]? = some (.call pos c) ∧
      invocation ⟨p, r⟩ names generated bound index c = .ok inv := by
  obtain ⟨t, ht, hInvocation⟩ := List.mem_filterMap.mp hInv
  obtain ⟨⟨s, index⟩, hs, hTranslates⟩ := exists_of_mem_right (translates_of_stmtsOf h) ht
  have hIndex := List.mem_zipIdx_iff_getElem?.mp (List.mem_filter.mp hs).1
  cases hTranslates with
  | write => cases hInvocation
  | bind => cases hInvocation
  | @invoke generated bound pos c =>
    cases hInvocation
    exact ⟨index, pos, c, generated, bound, hIndex, ‹_›⟩

/-- The names of the source in a handler are identifiers that generated names avoid. -/
theorem sourceName_cases {t : Handler} (hi : r.source ∈ p.instructions)
    (hNames : ∀ n ∈ p.declaredNames, IsName n) {before : Names} {body : List HandlerStmt}
    (hParams : declareParams ⟨p, r⟩ [] r.source.params = .ok before)
    (hVariables : declareVariables ⟨p, r⟩ before r.source.body = .ok names)
    (hBody : stmtsOf ⟨p, r⟩ names [] [] 0 r.source.body = .ok body)
    (hArgs : t.args = argsOf r.source) (hSame : t.body = body) {u : Text}
    (hu : u ∈ t.sourceNames) :
    u = contextParam ∨ ∃ n, IsWord n ∧ u = Rust.ident n ∧ u ∈ names.map Prod.fst := by
  obtain ⟨_, hParamsTaken⟩ := declareParams_ok hParams
  obtain ⟨hKept, hVariablesTaken⟩ := declareVariables_ok hVariables
  have hWord {d : Text × SourcePos} (hd : d ∈ r.source.declarations) : IsWord d.1 :=
    (hNames _ (Program.mem_declaredNames_of_instruction hi
      (List.mem_cons_of_mem _ (List.mem_map_of_mem hd)))).isWord
  rcases List.mem_cons.mp hu with rfl | hu
  · exact .inl rfl
  · right
    rcases List.mem_append.mp hu with hu | hu
    · rw [hArgs, argsOf, List.map_map] at hu
      obtain ⟨q, hq, rfl⟩ := List.mem_map.mp hu
      have hMem := (List.mem_filter.mp hq).1
      exact ⟨q.name, hWord (Instruction.mem_declarations_of_param hMem), rfl,
        hKept (hParamsTaken q hMem)⟩
    · rw [hSame, boundNames_of_stmtsOf hBody] at hu
      obtain ⟨d, hd, rfl⟩ := List.mem_map.mp hu
      obtain ⟨s, hs, hDeclares⟩ := List.mem_filterMap.mp hd
      cases s with
      | bind pos l =>
        cases hDeclares
        exact ⟨l.name, hWord (List.mem_append_right _ hd), rfl, hVariablesTaken pos l hs⟩
      | assign | derive | call | close => cases hDeclares

theorem bufferNames_subset (t : Handler) : t.bufferNames ⊆ t.generatedNames := by
  intro g hg
  obtain ⟨inv, hInv, hg⟩ := List.mem_flatMap.mp hg
  refine List.mem_flatMap.mpr ⟨inv, hInv, ?_⟩
  exact List.mem_cons_of_mem _ (List.mem_cons_of_mem _ (List.mem_append_right _ hg))

theorem namesApart_of_ofInstruction {t : Handler} (hi : r.source ∈ p.instructions)
    (hNames : ∀ n ∈ p.declaredNames, IsName n) (hDistinct : r.source.DistinctParams)
    (hResolved : Resolution.resolveInstruction p r.source = .ok r)
    (hHandler : ofInstruction p r = .ok t) : NamesApart r.source t := by
  simp only [ofInstruction, bind_eq_ok_iff, pure_eq_ok_iff] at hHandler
  obtain ⟨before, hParams, names, hVariables, body, hBody, hSame⟩ := hHandler
  have hSource {u : Text} (hu : u ∈ t.sourceNames) :
      u = contextParam ∨ ∃ n, IsWord n ∧ u = Rust.ident n ∧ u ∈ names.map Prod.fst :=
    sourceName_cases hi hNames hParams hVariables hBody (by rw [← hSame]) (by rw [← hSame]) hu
  have hGenerated {g : Text} (hg : g ∈ t.generatedNames) :
      g ∉ names.map Prod.fst ∧ Rust.bare g ≠ contextParam ∧ 95 ∈ g ∧
        (Rust.bare g = g ∨ r.source.MarkedBuffer g) := by
    obtain ⟨inv, hInv, hg⟩ := List.mem_flatMap.mp hg
    rw [invocations, ← hSame] at hInv
    obtain ⟨index, pos, c, generated, bound, hIndex, hInvocation⟩ :=
      exists_call_of_invocation hBody hInv
    have hSpec := generated_of_invocation hInvocation g hg
    obtain ⟨hUnderscore, hBare⟩ := hSpec.bare_or_marked hi hNames hDistinct hResolved hIndex
    exact ⟨hSpec.free, hSpec.ne_context, hUnderscore, hBare.imp_right And.right⟩
  have hSpelled : ∀ g ∈ t.generatedNames, g ∉ t.sourceNames := by
    intro g hg hu
    obtain ⟨hFree, hContext, _⟩ := hGenerated hg
    rcases hSource hu with hSame | ⟨_, _, _, hTaken⟩
    · exact hContext (by rw [hSame]; rfl)
    · exact hFree hTaken
  constructor
  · exact hSpelled
  · rw [bufferNames, invocations, ← hSame]
    exact (nodup_bufferNames hBody).1
  · intro g hg u hu hClash
    obtain ⟨_, hContext, hUnderscore, hBare⟩ := hGenerated hg
    have hMarked : g = Rust.marked u := by
      rcases hSource hu with rfl | ⟨n, hWord, rfl, _⟩
      · exact absurd hClash hContext
      · exact Rust.eq_marked_of_bare_eq hWord hUnderscore (fun h => hSpelled g hg (h ▸ hu)) hClash
    refine ⟨hMarked, hBare.resolve_left fun hPlain => hSpelled g hg ?_⟩
    -- without its mark the name would be the name of the source
    rw [hMarked, Rust.bare_marked] at hPlain
    rwa [hMarked, ← hPlain]
  · intro g hg g' hg' hClash hOther
    obtain ⟨_, _, _, hBare⟩ := hGenerated (bufferNames_subset t hg)
    obtain ⟨_, _, _, hBare'⟩ := hGenerated (bufferNames_subset t hg')
    rcases hBare with hPlain | hMarked
    · exact .inr (hBare'.resolve_left fun hPlain' => hOther (by rw [← hPlain, hClash, hPlain']))
    · exact .inl hMarked

end Instruction

end Handler

theorem NamesApart.hygienic {i : Instruction} {t : Handler} (h : NamesApart i t)
    (hStates : i.PlainStates) : t.Hygienic := by
  have hNone (g : Text) : ¬i.MarkedBuffer g := by
    rintro ⟨q, hq, n, _, hState, hKeyword, _⟩
    exact hStates q hq n hState hKeyword
  constructor
  · intro g hg u hu hClash
    exact hNone g (h.captured g hg u hu hClash).2
  · refine List.Nodup.map_on (fun g hg g' hg' hClash => ?_) h.buffers
    by_contra hOther
    rcases h.shared g hg g' hg' hClash hOther with hMarked | hMarked
    · exact hNone g hMarked
    · exact hNone g' hMarked

/-- No variable that a handler needs for itself captures a name of the source, where no state
account is named by a keyword; where one is, only a buffer for its fields may. -/
theorem handlers_names_apart {o : CompileOptions} {name src : Text} {r : ResolvedProgram}
    {hs : List Handler} (h : resolveSource o name src = .ok r) (hHandlers : r.handlers = .ok hs) :
    List.Forall₂ (fun i t => NamesApart i.source t ∧ (i.source.PlainStates → t.Hygienic))
      r.instructions hs := by
  obtain ⟨p, hExtracted, hp⟩ := bind_eq_ok_iff.mp h
  obtain ⟨rfl, _⟩ := Program.resolve_eq_ok_iff.mp hp
  have hNames := extractProgram_isName hExtracted
  refine forall₂_imp_of_mem (mapM_eq_ok_iff.mp hHandlers) ?_
  intro i hi t hHandler
  obtain ⟨hDistinct, hResolved⟩ := resolveSource_of_mem h hi
  obtain ⟨hSource, _⟩ := Program.resolved_of_mem hp hi
  have hApart := Handler.namesApart_of_ofInstruction hSource hNames hDistinct hResolved hHandler
  exact ⟨hApart, hApart.hygienic⟩

/-- Two calls that sign with a field, once of a state account that is named by a keyword. -/
def markedBufferSource : Text :=
  "export default class P \x7b
static PROGRAM_ID = new Pubkey('11111111111111111111111111111111')
plain(state: S, v: SystemAccount, state_amount_bytes: u64) \x7b
v.derive([state.amount])
SystemProgram.transfer(v, v, state_amount_bytes, [state.amount, v.getBump()])
\x7d
marked(type: S, v: SystemAccount, type_amount_bytes: u64) \x7b
v.derive([type.amount])
SystemProgram.transfer(v, v, type_amount_bytes, [type.amount, v.getBump()])
\x7d\x7d
interface S extends Account \x7b amount: u64 \x7d"

set_option maxRecDepth 4000 in
theorem markedBufferSource_names_apart : ∃ r hs,
    resolveSource {} "p.ts" markedBufferSource = .ok r ∧ r.handlers = .ok hs ∧
    hs.map (·.bufferNames) = [[Text.ofString "state_amount_bytes2"],
      [Rust.marked "type_amount_bytes"]] ∧
    hs.all (fun t => t.sourceNames.length = 2) = true ∧
    List.Forall₂ (fun i t => NamesApart i.source t ∧ (i.source.PlainStates → t.Hygienic))
      r.instructions hs := by
  have hText : markedBufferSource = _ := Text.ofString_literal rfl
  obtain ⟨r, hr, hCheck⟩ := exists_ok_of_any (x := resolveSource {} "p.ts" markedBufferSource)
    (fun r => r.handlers.toOption.any fun hs =>
      hs.map (·.bufferNames) = [[Text.ofString "state_amount_bytes2"],
        [Rust.marked "type_amount_bytes"]] ∧
      hs.all (fun t => t.sourceNames.length = 2) = true) (by rw [hText]; decide +kernel)
  obtain ⟨hs, hHandlers, hNames⟩ := exists_ok_of_any _ hCheck
  obtain ⟨hBuffers, hSources⟩ := of_decide_eq_true hNames
  exact ⟨r, hs, hr, hHandlers, hBuffers, hSources, handlers_names_apart hr hHandlers⟩

end AnchorScript
