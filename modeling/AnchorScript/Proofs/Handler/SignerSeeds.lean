import AnchorScript.Rust.Crate
import AnchorScript.Handler.OfInstruction
import AnchorScript.Proofs.Resolution.SeedList
import AnchorScript.Proofs.Handler.FreshName
import AnchorScript.Proofs.Rust.Running

/-!
# Buffers of signer seeds

An integer among the signer seeds is borrowed from a buffer that a variable of its own holds. Where
the buffers are, to Rust, apart from the variables that the seeds read and from each other, the
seeds mean what they would mean if each were read in place.
-/

namespace AnchorScript

open Outcome

/-- The variables that the signer seeds are read from, bound one after the other. -/
def SeedBuffer.stmts (bs : List SeedBuffer) : List Rust.Stmt :=
  bs.map fun b => .bind b.name false none b.value

namespace Rust

variable {V : Type} {M : Nat → Semantics V} {q : Nat × (Text → V)}

theorem stateAfter_buffers_time (bs : List SeedBuffer) :
    (stateAfter M q (SeedBuffer.stmts bs)).1 = q.1 := by
  induction bs generalizing q with
  | nil => rfl
  | cons b bs ih => exact ih

theorem stateAfter_buffers_of_ne {bs : List SeedBuffer} {u : Text}
    (h : ∀ b ∈ bs, bare b.name ≠ bare u) :
    (stateAfter M q (SeedBuffer.stmts bs)).2 (bare u) = q.2 (bare u) := by
  induction bs generalizing q with
  | nil => rfl
  | cons b bs ih =>
    obtain ⟨hHere, hLater⟩ := List.forall_mem_cons.mp h
    exact (ih hLater).trans (if_neg hHere.symm)

end Rust

def HandlerStmt.invocation? : HandlerStmt → Option Invocation
  | .invoke i => some i
  | _ => none

namespace Handler

def contextParam : Text := "ctx"

/-- A signer seed read in place, without a buffer. -/
def seedRead : SeedSource → Rust.Expr
  | .literal s => .bytes s
  | .accountKey a => ((Rust.Expr.accountInfo (Rust.ident a)).member "key").call "as_ref"
  | .stateField ref t =>
    Rust.Constraint.bytesOf
      (.contextField (Rust.ident ref.account) (Rust.ident ref.field)) t.kind
  | .argument name t => Rust.Constraint.bytesOf (.var (Rust.ident name)) t.kind
  | .bump b => bumpExpr b

/-- A name that is longer than the context's, even with a mark, is another one. -/
theorem bare_avoid_ne_contextParam (taken : List Text) {base : Text} (h : 5 < base.length) :
    Rust.bare (FreshName.avoid taken base) ≠ contextParam := by
  intro hSame
  have hLength := (FreshName.prefix_avoid taken base).length_le
  have hContext : contextParam.length = 3 ∧ (Rust.marked contextParam).length = 5 := by decide
  rcases Rust.bare_cases (FreshName.avoid taken base) with hPlain | hMarked
  · rw [hPlain] at hSame
    rw [hSame] at hLength
    omega
  · rw [hSame] at hMarked
    rw [hMarked] at hLength
    omega

theorem bare_bytes_ne_contextParam (used : List Text) (base : Text) :
    Rust.bare (FreshName.avoid used (base ++ "_bytes")) ≠ contextParam := by
  refine bare_avoid_ne_contextParam used ?_
  have hBytes : (Text.ofString "_bytes").length = 6 := by decide
  rw [List.length_append]
  omega

theorem borrow_cases (used : List Text) (source : Rust.Expr) (base : Text) (t : ValueType) :
    borrow used source base t = (Rust.Constraint.bytesOf source t.kind, none) ∨
      ∃ name, name ∉ used ∧ Rust.bare name ≠ contextParam ∧
        Rust.Constraint.bytesOf source t.kind =
          (source.call "to_le_bytes").call "as_ref" ∧
        borrow used source base t =
          ((Rust.Expr.var name).call "as_ref", some ⟨name, source.call "to_le_bytes"⟩) := by
  unfold borrow
  cases t.kind with
  | string | pubkey => exact .inl rfl
  | int | bool =>
    exact .inr ⟨_, FreshName.avoid_not_mem _ _, bare_bytes_ne_contextParam _ _, rfl, rfl⟩

theorem signerSeed_cases (used : List Text) (s : SeedSource) :
    signerSeed used s = (seedRead s, none) ∨
      ∃ name source, name ∉ used ∧ Rust.bare name ≠ contextParam ∧
        seedRead s = (source.call "as_ref") ∧
        signerSeed used s = ((Rust.Expr.var name).call "as_ref", some ⟨name, source⟩) := by
  have hBorrow : ∀ source base t, seedRead s = Rust.Constraint.bytesOf source t.kind →
      signerSeed used s = borrow used source base t →
      signerSeed used s = (seedRead s, none) ∨
        ∃ name source, name ∉ used ∧ Rust.bare name ≠ contextParam ∧
          seedRead s = (source.call "as_ref") ∧
          signerSeed used s = ((Rust.Expr.var name).call "as_ref", some ⟨name, source⟩) := by
    intro source base t hRead hSeed
    rw [hRead, hSeed]
    rcases borrow_cases used source base t with hPlain | ⟨name, hFree, hNot, hBytes, hBuffer⟩
    · exact .inl hPlain
    · exact .inr ⟨name, source.call "to_le_bytes", hFree, hNot, hBytes, hBuffer⟩
  cases s with
  | literal | accountKey | bump => exact .inl rfl
  | stateField ref t => exact hBorrow _ _ t rfl rfl
  | argument name t => exact hBorrow _ _ t rfl rfl

/-- No buffer takes a name that is used, nor the name of the context. -/
theorem bufferNames_fresh {used : List Text} {ss : List Seed} :
    ∀ b ∈ (signerSeedList used ss).1, b.name ∉ used ∧ Rust.bare b.name ≠ contextParam := by
  induction ss generalizing used with
  | nil => simp [signerSeedList]
  | cons s rest ih =>
    intro b hb
    rcases signerSeed_cases used s.source with hPlain | ⟨name, source, hFree, hNot, _, hBuffer⟩
    · simp only [signerSeedList, hPlain] at hb
      exact ih b hb
    · simp only [signerSeedList, hBuffer] at hb
      rcases List.mem_cons.mp hb with rfl | hb
      · exact ⟨hFree, hNot⟩
      · obtain ⟨hUnused, hContext⟩ := ih b hb
        exact ⟨fun hUsed => hUnused (List.mem_cons_of_mem name hUsed), hContext⟩

/-- After the buffers are bound, the seeds have the values they would have if read in place. -/
theorem eval_signerSeedList {V : Type} (M : Nat → Rust.Semantics V) {names used : List Text}
    {ss : List Seed} (hReads : ∀ s ∈ ss, (seedRead s.source).ReadsOnly names)
    (hApart : ∀ b ∈ (signerSeedList used ss).1, ∀ u ∈ names, Rust.bare b.name ≠ Rust.bare u)
    (hNodup : ((signerSeedList used ss).1.map fun b => Rust.bare b.name).Nodup)
    (q : Nat × (Text → V)) :
    (signerSeedList used ss).2.map
        (Rust.Expr.eval (M q.1) (Rust.stateAfter M q (SeedBuffer.stmts (signerSeedList used ss).1)).2) =
      ss.map fun s => (seedRead s.source).eval (M q.1) q.2 := by
  induction ss generalizing used q with
  | nil => rfl
  | cons s rest ih =>
    obtain ⟨hHere, hRest⟩ := List.forall_mem_cons.mp hReads
    rcases signerSeed_cases used s.source with hPlain | ⟨name, source, _, _, hRead, hBuffer⟩
    · simp only [signerSeedList, hPlain, Option.toList_none, List.map_nil, List.nil_append,
        List.map_cons] at hApart hNodup ⊢
      refine congrArg₂ List.cons ?_ (ih hRest hApart hNodup q)
      exact Rust.Expr.eval_congr hHere fun n hn =>
        Rust.stateAfter_buffers_of_ne fun b hb => hApart b hb n hn
    · simp only [signerSeedList, hBuffer, Option.toList_some, List.map_cons, List.map_nil,
        List.singleton_append, List.nodup_cons] at hApart hNodup ⊢
      obtain ⟨hName, hLater⟩ := List.forall_mem_cons.mp hApart
      refine congrArg₂ List.cons ?_ ((ih hRest hLater hNodup.2
        (q.1, Rust.rebind q.2 name (source.eval (M q.1) q.2))).trans ?_)
      · -- the buffer still holds what it was bound to
        have hKept : ∀ b ∈ (signerSeedList (name :: used) rest).1,
            Rust.bare b.name ≠ Rust.bare name :=
          fun b hb hSame => hNodup.1 (List.mem_map.mpr ⟨b, hb, hSame⟩)
        rw [hRead, Rust.Expr.eval, Rust.Expr.eval, Rust.Expr.eval]
        exact congrArg (fun v => (M q.1).call v "as_ref")
          ((Rust.stateAfter_buffers_of_ne hKept).trans (if_pos rfl))
      · refine List.map_congr_left fun s' hs' => ?_
        exact Rust.Expr.eval_congr (hRest s' hs') fun n hn => if_neg (hName n hn).symm

theorem declare_ok {fr : Frame} {names names' : Names} {name : Text} {pos : SourcePos}
    (h : declare fr names name pos = .ok names') :
    names.map Prod.fst ⊆ names'.map Prod.fst ∧ Rust.ident name ∈ names'.map Prod.fst := by
  simp only [declare, refused_or_eq_ok_iff] at h
  obtain ⟨_, h⟩ := h
  split at h
  · rename_i previous hLookup
    simp only [allowed_or_eq_ok_iff, Except.ok.injEq] at h
    obtain ⟨_, rfl⟩ := h
    obtain ⟨before, after, hNames, _⟩ := List.lookup_eq_some_iff.mp hLookup
    refine ⟨List.Subset.refl _, ?_⟩
    rw [hNames]
    simp
  · cases h
    exact ⟨List.subset_cons_self _ _, List.mem_cons_self⟩

theorem declareParams_ok {fr : Frame} {names names' : Names} {ps : List Param}
    (h : declareParams fr names ps = .ok names') :
    names.map Prod.fst ⊆ names'.map Prod.fst ∧
      ∀ q ∈ ps, Rust.ident q.name ∈ names'.map Prod.fst := by
  induction ps generalizing names with
  | nil =>
    cases h
    exact ⟨List.Subset.refl _, by simp⟩
  | cons q ps ih =>
    simp only [declareParams, bind_eq_ok_iff] at h
    obtain ⟨mid, hMid, hRest⟩ := h
    obtain ⟨hKept, hHere⟩ := declare_ok hMid
    obtain ⟨hLater, hParams⟩ := ih hRest
    refine ⟨List.Subset.trans hKept hLater, fun q' hq' => ?_⟩
    rcases List.mem_cons.mp hq' with rfl | hq'
    · exact hLater hHere
    · exact hParams q' hq'

theorem declareVariables_ok {fr : Frame} {names names' : Names} {body : List Statement}
    (h : declareVariables fr names body = .ok names') :
    names.map Prod.fst ⊆ names'.map Prod.fst ∧
      ∀ pos l, Statement.bind pos l ∈ body → Rust.ident l.name ∈ names'.map Prod.fst := by
  fun_induction declareVariables fr names body with
  | case1 =>
    cases h
    exact ⟨List.Subset.refl _, by simp⟩
  | case2 names pos l rest ih =>
    simp only [bind_eq_ok_iff] at h
    obtain ⟨mid, hMid, hRest⟩ := h
    obtain ⟨hKept, hHere⟩ := declare_ok hMid
    obtain ⟨hLater, hVariables⟩ := ih mid hRest
    refine ⟨List.Subset.trans hKept hLater, fun pos' l' hl' => ?_⟩
    rcases List.mem_cons.mp hl' with hSame | hl'
    · cases hSame
      exact hLater hHere
    · exact hVariables pos' l' hl'
  | case3 names s rest hOther ih =>
    obtain ⟨hLater, hVariables⟩ := ih h
    refine ⟨hLater, fun pos l hl => ?_⟩
    rcases List.mem_cons.mp hl with hSame | hl
    · exact absurd hSame.symm (hOther pos l)
    · exact hVariables pos l hl

theorem readsOnly_of_isSeed {p : Program} {i : Instruction} {names : List Text} {v : Value}
    {s : SeedSource} (hContext : contextParam ∈ names)
    (hArgs : ∀ name t, i.argType? name = some t → Rust.ident name ∈ names) (h : IsSeed p i v s) :
    (seedRead s).ReadsOnly names := by
  cases h with
  | literal => trivial
  | key => exact hContext
  | field => exact Rust.Expr.readsOnly_bytesOf.mpr hContext
  | argument hType => exact Rust.Expr.readsOnly_bytesOf.mpr (hArgs _ _ hType)

theorem readsOnly_of_isBump {p : Program} {i : Instruction} {locals : List (Text × ValueType)}
    {names : List Text} {v : Value} {b : BumpSource} (hContext : contextParam ∈ names)
    (hLocals : ∀ l ∈ locals, Rust.ident l.1 ∈ names) (h : IsBump p i locals v b) :
    (seedRead (.bump b)).ReadsOnly names := by
  cases h with
  | stored => exact hContext
  | computed => exact hContext
  | ofVar hVar => exact hLocals _ hVar

/-- The seeds have the values of what they are read from, at that time and without the buffers. -/
theorem values_signerSeedList {V : Type} (M : Nat → Rust.Semantics V) (env : Text → V)
    {own used : List Text} {before : List Rust.Stmt} {ss : List Seed}
    (hBefore : ∀ s ∈ before, s.Respects own)
    (hReads : ∀ s ∈ ss, (seedRead s.source).ReadsOnly (contextParam :: own))
    (hOther : ∀ b ∈ (signerSeedList used ss).1, b.name ∉ own)
    (hApart : ∀ b ∈ (signerSeedList used ss).1, ∀ u ∈ contextParam :: own,
      Rust.bare b.name ≠ Rust.bare u)
    (hNodup : ((signerSeedList used ss).1.map fun b => Rust.bare b.name).Nodup) :
    Rust.values M env (before ++ SeedBuffer.stmts (signerSeedList used ss).1)
        (signerSeedList used ss).2 =
      Rust.values M env
        ((before ++ SeedBuffer.stmts (signerSeedList used ss).1).filter (·.isOwn own))
        (ss.map (seedRead ·.source)) := by
  have hNone : (SeedBuffer.stmts (signerSeedList used ss).1).filter (·.isOwn own) = [] := by
    refine List.filter_eq_nil_iff.mpr (List.forall_mem_map.mpr fun b hb => ?_)
    simpa [Rust.Stmt.isOwn, Rust.Stmt.bound?] using hOther b hb
  obtain ⟨hTime, hSame⟩ := Rust.agree_stateAfter (M := M) (q := (0, env)) hBefore ⟨rfl, fun _ _ => rfl⟩
  simp only [Rust.values, Rust.stateAfter_append, Rust.stateAfter_buffers_time, List.filter_append,
    hNone, List.append_nil]
  rw [eval_signerSeedList M hReads hApart hNodup, List.map_map, ← hTime]
  refine List.map_congr_left fun s hs => ?_
  exact Rust.Expr.eval_congr (hReads s hs) hSame

theorem signer_of_invocation {fr : Frame} {names : Names} {generated bound : List Text}
    {index : Nat} {c : CrossProgramCall} {inv : Invocation}
    (h : invocation fr names generated bound index c = .ok inv) :
    inv.signer = c.signerSeeds.map fun _ =>
      let list := signerSeedList (generated ++ names.map Prod.fst)
        ((fr.instruction.seedsAt? index).getD [])
      ⟨FreshName.avoid (names.map Prod.fst) "signer_seeds", list.1, list.2⟩ := by
  simp only [invocation, bind_eq_ok_iff, pure_eq_ok_iff] at h
  obtain ⟨amount, _, rfl⟩ := h
  rfl

end Handler

end AnchorScript
