import AnchorScript.Proofs.Compiler.PrintedCrate

/-!
# No reference dangles

Context structs, constraints and handlers are written independently of each other, from the records
of one resolved instruction. So that nothing is taken from how they are printed, they are read back
from the text that is emitted: the program that stands there refers to nothing that it does not
declare.
-/

namespace AnchorScript

open Outcome

namespace Rust

namespace Expr

@[simp] theorem path?_shown (e : Expr) : e.shown.path? = e.path? := by
  induction e with
  | member e n ih => rw [shown, path?, ih, path?]
  | _ => rfl

/-- Strings are no paths, so it does not matter how they are shown. -/
@[simp] theorem paths_shown (e : Expr) : e.shown.paths = e.paths := by
  induction e with
  | member e n ih => rw [shown, paths, path?_shown, ih, paths]
  | call e m ih | slice e ih | neg e ih | paren e ih => exact ih
  | binary op l r ihLeft ihRight => rw [shown, paths, ihLeft, ihRight, paths]
  | _ => rfl

theorem InScope.shown {states : List StateStruct} {c : ContextStruct} {vars : List Text} {e : Expr}
    (h : e.InScope states c vars) : e.shown.InScope states c vars := by
  rwa [InScope, paths_shown]

end Expr

theorem Scoped.shown {states : List StateStruct} {c : ContextStruct} {vars : List Text}
    {body : List Stmt} (h : Scoped states c vars body) :
    Scoped states c vars (body.map Stmt.shown) := by
  induction h with
  | nil => exact .nil
  | @cons vars s rest hReads hBound _ ih =>
    have hSame : s.shown.bound? = s.bound? := by cases s <;> rfl
    refine .cons ?_ (by rwa [hSame]) (by rwa [hSame])
    cases s with
    | assign place value =>
      obtain ⟨hPlace, hValue⟩ := List.forall_mem_cons.mp hReads
      exact List.forall_mem_cons.mpr ⟨hPlace, List.forall_mem_singleton.mpr
        (List.forall_mem_singleton.mp hValue).shown⟩
    | bind name isMutable type value =>
      exact List.forall_mem_singleton.mpr (List.forall_mem_singleton.mp hReads).shown
    | invoke function target amount =>
      obtain ⟨hTarget, hAmount⟩ := List.forall_mem_cons.mp hReads
      exact List.forall_mem_cons.mpr ⟨hTarget, List.forall_mem_singleton.mpr
        (List.forall_mem_singleton.mp hAmount).shown⟩
    | record | seeds | context => exact hReads

/-- A function and the struct of its context refer only to what the two and the state structs
declare. A list of arguments in the struct is that of the function. -/
structure Linked (states : List StateStruct) (c : ContextStruct) (f : Function) : Prop where
  context : f.context = c.name
  args : ∀ as, c.args = some as → as = f.args
  constraints : ∀ g ∈ c.fields, ∀ k ∈ g.constraints, k.InScope states c
  params : ∀ a ∈ f.args, bare a.name ≠ "ctx"
  body : Scoped states c (f.args.map (·.name)) f.body

/-- Context structs and functions belong together one to one, and no reference dangles. -/
def Source.Linked (s : Source) : Prop := List.Forall₂ (Rust.Linked s.states) s.contexts s.functions

end Rust

theorem bare_ident_ne_contextParam {n : Text} (h : IsWord n)
    (hOther : Rust.ident n ≠ Handler.contextParam) :
    Rust.bare (Rust.ident n) ≠ Handler.contextParam := by
  rw [Rust.bare_ident h]
  rcases Rust.ident_cases n with ⟨_, hPlain⟩ | ⟨hKeyword, _⟩
  · rwa [← hPlain]
  · rintro hSame
    rw [hSame] at hKeyword
    exact absurd hKeyword (by decide)

theorem linked_of_ofInstruction {p : Program} {r : ResolvedInstruction} {t : Handler}
    (hi : r.source ∈ p.instructions) (hNames : ∀ n ∈ p.declaredNames, IsName n)
    (hDistinct : r.source.DistinctParams) (h : Resolution.resolveInstruction p r.source = .ok r)
    (hHandler : Handler.ofInstruction p r = .ok t) :
    Rust.Linked (p.states.map .ofState) (.ofInstruction r) (.ofHandler t) := by
  simp only [Handler.ofInstruction_eq, bind_eq_ok_iff, pure_eq_ok_iff] at hHandler
  obtain ⟨names, hDeclare, body, hBody, rfl⟩ := hHandler
  obtain ⟨hDeclared, _⟩ := Handler.lookup_of_declareAll hDeclare
  have hOther (n : Text) (pos : SourcePos) (hd : (n, pos) ∈ r.source.declarations) :
      Rust.bare (Rust.ident n) ≠ Handler.contextParam := by
    refine bare_ident_ne_contextParam (hNames _ ?_).isWord (hDeclared _ hd).1
    exact Program.mem_declaredNames_of_instruction hi
      (List.mem_cons_of_mem _ (List.mem_map_of_mem hd))
  constructor
  · rfl
  · intro as has
    simp only [Rust.ContextStruct.ofInstruction] at has
    split at has
    · exact (Option.some.inj has).symm
    · cases has
  · refine List.forall_mem_append.mpr ⟨?_, ?_⟩
    · intro f hf
      obtain ⟨a, ha, rfl⟩ := List.mem_map.mp hf
      exact constraints_inScope hDistinct h ha
    · intro f hf k hk
      obtain ⟨q, _, rfl⟩ := List.mem_map.mp hf
      cases hk
  · refine List.forall_mem_map.mpr fun q hq => ?_
    exact hOther q.name _ (Instruction.mem_declarations_of_param (List.mem_filter.mp hq).1)
  · refine Rust.Scoped.shown
      (Handler.scoped_stmtsOf hDistinct h ?_ (List.nil_append _).symm ?_ .nil (by simp) hBody)
    · intro pos l hl
      exact hOther l.name pos (List.mem_append_right _ (List.mem_filterMap.mpr ⟨_, hl, rfl⟩))
    · intro name type hType
      obtain ⟨arg, hArg, hName⟩ := exists_arg_of_argType? hType
      exact List.mem_map.mpr ⟨arg, hArg, hName⟩

/-- The emitted text is a program in which every context struct and its function refer only to what
the program declares, with a function for each instruction. -/
theorem compile_linked {o : CompileOptions} {name src : Text} {out : CompileOutput}
    (h : compile o name src = .ok out) :
    ∃ s, Rust.readSource out.rust = some s ∧
      s.functions.map (·.name) = out.program.instructions.map (Rust.ident ·.name) ∧ s.Linked := by
  obtain ⟨r, hs, hResolved, hHandlers, hProgram, hRead⟩ := compile_read h
  obtain ⟨p, hExtracted, hp⟩ := bind_eq_ok_iff.mp hResolved
  obtain ⟨rfl, _⟩ := Program.resolve_eq_ok_iff.mp hp
  refine ⟨_, hRead, hProgram ▸ functionNames_of_handlers hResolved hHandlers, ?_⟩
  refine List.forall₂_map_left_iff.mpr (List.forall₂_map_right_iff.mpr
    (forall₂_imp_of_mem (mapM_eq_ok_iff.mp hHandlers) fun i hi t ht => ?_))
  obtain ⟨hDistinct, hInstruction⟩ := resolveSource_of_mem hResolved hi
  exact linked_of_ofInstruction (Program.resolved_of_mem hp hi).1
    (extractProgram_isName hExtracted) hDistinct hInstruction ht

/-- A program that creates a state account, stores an amount in it and pays it out of a vault whose
address depends on an argument. -/
def payoutSource : Text := Text.join "\n" [
  "export default class P \x7b",
  "static PROGRAM_ID = new Pubkey('11111111111111111111111111111111')",
  "run(o: Signer, s: S, v: SystemAccount, n: u64) \x7b",
  "s.derive(['s', o.key]).init()",
  "v.derive(['v', n])",
  "s.n = n",
  "let b = v.getBump()",
  "SystemProgram.transfer(v, o, s.n, ['v', n, b])",
  "\x7d\x7d",
  "interface S extends Account \x7b n: u64 \x7d"]

theorem payoutSource_linked : ∃ out, compile {} "p.ts" payoutSource = .ok out ∧
    out.program.instructions.length = 1 ∧ ∃ s, Rust.readSource out.rust = some s ∧
      s.functions.map (·.name) = out.program.instructions.map (Rust.ident ·.name) ∧ s.Linked := by
  obtain ⟨out, hOut, hLength⟩ := exists_ok_of_any (x := compile {} "p.ts" payoutSource)
    (fun out => out.program.instructions.length == 1) (by
      simp (disch := rfl) only [payoutSource, Text.ofString_literal]
      decide +kernel)
  exact ⟨out, hOut, by simpa using hLength, compile_linked hOut⟩

end AnchorScript
