import AnchorScript.Proofs.Resolution.Step
import Mathlib.Data.List.Nodup

/-!
# Whole bodies

A body is resolved statement by statement, so what every step keeps holds at the end. Before the
steps, the derivations are counted: each account has at most one, and it is a parameter.
-/

namespace AnchorScript

open Outcome

namespace Scope

theorem resolveBody_cons_eq_ok_iff {sc sc' : Scope} {env : Surroundings} {index : Nat}
    {s : Statement} {rest : List Statement} :
    sc.resolveBody env index (s :: rest) = .ok sc' ↔
      ∃ mid, sc.resolveStatement env index s = .ok mid ∧
        mid.resolveBody env (index + 1) rest = .ok sc' := by
  rw [resolveBody, bind_eq_ok_iff]

theorem resolveBody_append (sc : Scope) (env : Surroundings) (index : Nat)
    (before after : List Statement) :
    sc.resolveBody env index (before ++ after) = sc.resolveBody env index before >>=
      fun mid => mid.resolveBody env (index + before.length) after := by
  induction before generalizing sc index with
  | nil => rfl
  | cons s before ih =>
    have hIndex : index + 1 + before.length = index + (s :: before).length := by
      rw [List.length_cons]
      omega
    simp only [List.cons_append, resolveBody, ih, hIndex, bind_assoc]

theorem resolveBody_append_cons_eq_ok {sc sc' : Scope} {env : Surroundings} {index : Nat}
    {s : Statement} {before after : List Statement}
    (h : sc.resolveBody env index (before ++ s :: after) = .ok sc') :
    ∃ mid next, sc.resolveBody env index before = .ok mid ∧
      mid.resolveStatement env (index + before.length) s = .ok next ∧
      next.resolveBody env (index + before.length + 1) after = .ok sc' := by
  rw [resolveBody_append] at h
  obtain ⟨mid, hMid, hRest⟩ := bind_eq_ok_iff.mp h
  obtain ⟨next, hNext, hAfter⟩ := resolveBody_cons_eq_ok_iff.mp hRest
  exact ⟨mid, next, hMid, hNext, hAfter⟩

/-- The statements, the first of which has this index, are accepted one after the other. -/
inductive Run (env : Surroundings) : Nat → Scope → List Statement → Scope → Prop
  | nil {index : Nat} {sc : Scope} : Run env index sc [] sc
  | cons {index : Nat} {sc mid sc' : Scope} {s : Statement} {rest : List Statement}
      (hStep : Step env index sc s mid) (hRest : Run env (index + 1) mid rest sc') :
      Run env index sc (s :: rest) sc'

theorem run_of_resolveBody {sc sc' : Scope} {env : Surroundings} {index : Nat}
    {body : List Statement} (h : sc.resolveBody env index body = .ok sc') :
    Run env index sc body sc' := by
  induction body generalizing sc index with
  | nil =>
    cases h
    exact .nil
  | cons s rest ih =>
    obtain ⟨mid, hMid, hRest⟩ := resolveBody_cons_eq_ok_iff.mp h
    exact .cons (step_of_resolveStatement hMid) (ih hRest)

/-- A property of the statements done and the scope they leave, kept by every step of a run, holds
after the run. -/
theorem Run.induction {env : Surroundings} {index : Nat} {sc sc' : Scope} {body : List Statement}
    {P : List Statement → Scope → Prop} (h : Run env index sc body sc') (hStart : P [] sc)
    (hStep : ∀ before s after index sc₁ sc₂, body = before ++ s :: after → P before sc₁ →
      Step env index sc₁ s sc₂ → P (before ++ [s]) sc₂) : P body sc' := by
  induction h generalizing P with
  | nil => exact hStart
  | @cons _ sc mid _ s rest hFirst _ ih =>
    -- the rest of the run has the first statement before all that it does
    refine ih (P := fun done sc => P (s :: done) sc) (hStep [] s rest _ sc mid rfl hStart hFirst) ?_
    intro before t after index sc₁ sc₂ hRest
    exact hStep (s :: before) t after index sc₁ sc₂ (congrArg (s :: ·) hRest)

theorem Run.split {env : Surroundings} {index : Nat} {sc sc' : Scope} {s : Statement}
    {before after : List Statement} (h : Run env index sc (before ++ s :: after) sc') :
    ∃ sc₁ sc₂, Run env index sc before sc₁ ∧ Step env (index + before.length) sc₁ s sc₂ ∧
      Run env (index + before.length + 1) sc₂ after sc' := by
  induction before generalizing index sc with
  | nil =>
    cases h with
    | cons hStep hRest => exact ⟨sc, _, .nil, hStep, hRest⟩
  | cons t before ih =>
    cases h with
    | cons hStep hRest =>
      obtain ⟨sc₁, sc₂, hBefore, hHere, hAfter⟩ := ih hRest
      have hIndex : index + 1 + before.length = index + (t :: before).length := by
        rw [List.length_cons]
        omega
      rw [hIndex] at hHere hAfter
      exact ⟨sc₁, sc₂, .cons hStep hBefore, hHere, hAfter⟩

theorem Run.locals_suffix {env : Surroundings} {index : Nat} {sc sc' : Scope}
    {body : List Statement} (h : Run env index sc body sc') : sc.locals <:+ sc'.locals := by
  induction h with
  | nil => exact List.suffix_rfl
  | cons hStep _ ih =>
    refine List.IsSuffix.trans ?_ ih
    cases hStep with
    | bind => exact List.suffix_cons _ _
    | _ => exact List.suffix_rfl

end Scope

def Statement.derivation? : Statement → Option Derive
  | .derive _ d => some d
  | _ => none

def derivations (body : List Statement) : List Derive := body.filterMap Statement.derivation?

theorem mem_derivations {body : List Statement} {d : Derive} :
    d ∈ derivations body ↔ ∃ pos, Statement.derive pos d ∈ body := by
  rw [derivations, List.mem_filterMap]
  constructor
  · rintro ⟨s, hs, hd⟩
    cases s <;> simp only [Statement.derivation?, Option.some.injEq, reduceCtorEq] at hd
    subst hd
    exact ⟨_, hs⟩
  · rintro ⟨pos, hs⟩
    exact ⟨_, hs, rfl⟩

namespace Resolution

theorem checkDerivations_ok {env : Surroundings} {sc : Scope} {earlier : List (Text × SourcePos)}
    {body : List Statement} (h : checkDerivations env sc earlier body = .ok ()) :
    ((derivations body).map (·.account)).Nodup ∧
      ∀ d ∈ derivations body, earlier.lookup d.account = none := by
  fun_induction checkDerivations env sc earlier body with
  | case1 => exact ⟨List.nodup_nil, by simp [derivations]⟩
  | case2 => cases h
  | case3 => cases h
  | case4 earlier pos d rest hParam hFresh ih =>
    obtain ⟨hNodup, hLater⟩ := ih h
    have hApart : ∀ d' ∈ derivations rest, d'.account ≠ d.account ∧
        earlier.lookup d'.account = none := by
      intro d' hd'
      have hLookup := hLater d' hd'
      rw [List.lookup_cons] at hLookup
      by_cases hSame : d'.account = d.account
      · simp [hSame] at hLookup
      · simp only [beq_false_of_ne hSame] at hLookup
        exact ⟨hSame, hLookup⟩
    refine ⟨?_, ?_⟩
    · change (d.account :: (derivations rest).map (·.account)).Nodup
      refine List.nodup_cons.mpr ⟨?_, hNodup⟩
      rintro hMem
      obtain ⟨d', hd', hSame⟩ := List.mem_map.mp hMem
      exact (hApart d' hd').1 hSame
    · intro d' hd'
      change d' ∈ d :: derivations rest at hd'
      rcases List.mem_cons.mp hd' with rfl | hd'
      · exact hFresh
      · exact (hApart d' hd').2
  | case5 earlier s rest hOther ih =>
    have hRest : derivations (s :: rest) = derivations rest := by
      cases s with
      | derive pos d => exact absurd rfl (hOther pos d)
      | _ => rfl
    rw [hRest]
    exact ih h

theorem resolveInstruction_eq_ok_iff {p : Program} {i : Instruction} {r : ResolvedInstruction} :
    resolveInstruction p i = .ok r ↔ checkDerivations ⟨p, i⟩ (Scope.initial i) [] i.body = .ok () ∧
      ∃ sc, (Scope.initial i).resolveBody ⟨p, i⟩ 0 i.body = .ok sc ∧ finish i sc = r := by
  simp only [resolveInstruction, bind_eq_ok_iff, pure_eq_ok_iff]
  constructor
  · rintro ⟨_, hOnce, hBody⟩
    exact ⟨hOnce, hBody⟩
  · rintro ⟨hOnce, hBody⟩
    exact ⟨(), hOnce, hBody⟩

/-- Two derivations of one account are the same. -/
theorem derivation_unique {p : Program} {i : Instruction} {r : ResolvedInstruction}
    (h : resolveInstruction p i = .ok r) {d d' : Derive} (hd : d ∈ derivations i.body)
    (hd' : d' ∈ derivations i.body) (hSame : d.account = d'.account) : d = d' := by
  have hNodup := (checkDerivations_ok (resolveInstruction_eq_ok_iff.mp h).1).1
  exact List.inj_on_of_nodup_map hNodup hd hd' hSame

end Resolution

theorem Program.resolve_eq_ok_iff {p : Program} {r : ResolvedProgram} :
    p.resolve = .ok r ↔ r.source = p ∧ List.Forall₂
      (fun i ri => Resolution.resolveInstruction p i = .ok ri) p.instructions r.instructions := by
  rw [resolve, bind_eq_ok_iff]
  simp only [mapM_eq_ok_iff, pure_eq_ok_iff]
  constructor
  · rintro ⟨is, his, rfl⟩
    exact ⟨rfl, his⟩
  · rintro ⟨rfl, his⟩
    exact ⟨_, his, rfl⟩

theorem Program.resolved_of_mem {p : Program} {r : ResolvedProgram} (h : p.resolve = .ok r)
    {i : ResolvedInstruction} (hi : i ∈ r.instructions) :
    i.source ∈ p.instructions ∧ Resolution.resolveInstruction p i.source = .ok i := by
  obtain ⟨_, hInstructions⟩ := Program.resolve_eq_ok_iff.mp h
  obtain ⟨source, hSource, hResolved⟩ := exists_of_mem_right hInstructions hi
  obtain ⟨_, sc, _, rfl⟩ := Resolution.resolveInstruction_eq_ok_iff.mp hResolved
  exact ⟨hSource, hResolved⟩

end AnchorScript
