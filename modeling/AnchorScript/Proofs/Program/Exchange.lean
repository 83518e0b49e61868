import AnchorScript.Proofs.Program.Extraction

/-!
# Programs with neighbouring derivations exchanged

Two derivations stand next to each other in the body of a method. With the two exchanged the file
declares the same program, but for the order of the two statements that they become.
-/

namespace AnchorScript

open Outcome

/-- Two neighbours with the property change places. -/
inductive Swapped {α : Type} (P : α → Prop) : List α → List α → Prop
  | here {a b : α} {rest : List α} (ha : P a) (hb : P b) :
      Swapped P (a :: b :: rest) (b :: a :: rest)
  | there {a : α} {as bs : List α} (h : Swapped P as bs) : Swapped P (a :: as) (a :: bs)

theorem Swapped.perm {α : Type} {P : α → Prop} {as bs : List α} (h : Swapped P as bs) :
    as.Perm bs := by
  induction h with
  | here => exact .swap _ _ _
  | there _ ih => exact ih.cons _

/-- One element is replaced by one that is related to it. -/
inductive Replaced {α : Type} (R : α → α → Prop) : List α → List α → Prop
  | here {a b : α} {rest : List α} (h : R a b) : Replaced R (a :: rest) (b :: rest)
  | there {a : α} {as bs : List α} (h : Replaced R as bs) : Replaced R (a :: as) (a :: bs)

theorem Replaced.map_eq {α β : Type} {R : α → α → Prop} {as bs : List α} (h : Replaced R as bs)
    {f : α → β} (hf : ∀ a b, R a b → f b = f a) : bs.map f = as.map f := by
  induction h with
  | here h => rw [List.map_cons, List.map_cons, hf _ _ h]
  | there _ ih => rw [List.map_cons, List.map_cons, ih]

theorem Replaced.any_eq {α : Type} {R : α → α → Prop} {as bs : List α} (h : Replaced R as bs)
    {f : α → Bool} (hf : ∀ a b, R a b → f b = f a) : bs.any f = as.any f := by
  induction h with
  | here h => rw [List.any_cons, List.any_cons, hf _ _ h]
  | there _ ih => rw [List.any_cons, List.any_cons, ih]

theorem Replaced.exists_of_mem {α : Type} {R : α → α → Prop} {as bs : List α}
    (h : Replaced R as bs) {b : α} (hb : b ∈ bs) : ∃ a ∈ as, R a b ∨ a = b := by
  induction h with
  | @here a _ rest h =>
    rcases List.mem_cons.mp hb with rfl | hb
    · exact ⟨a, List.mem_cons_self, .inl h⟩
    · exact ⟨b, List.mem_cons_of_mem a hb, .inr rfl⟩
  | @there a _ _ _ ih =>
    rcases List.mem_cons.mp hb with rfl | hb
    · exact ⟨b, List.mem_cons_self, .inr rfl⟩
    · obtain ⟨a', ha', hSame⟩ := ih hb
      exact ⟨a', List.mem_cons_of_mem a ha', hSame⟩

/-- Where a list is read element by element, so is the list with one element replaced. -/
theorem Replaced.mapM_eq_ok {ε α β : Type} {R : α → α → Prop} {S : β → β → Prop} {as bs : List α}
    {f g : α → Except ε β} {cs : List β} (h : Replaced R as bs) (hSame : ∀ a, g a = f a)
    (hf : ∀ a b c, R a b → f a = .ok c → ∃ d, g b = .ok d ∧ S c d) (hRead : as.mapM f = .ok cs) :
    ∃ ds, bs.mapM g = .ok ds ∧ Replaced S cs ds := by
  induction h generalizing cs with
  | @here a b rest h =>
    simp only [List.mapM_cons, bind_eq_ok_iff, pure_eq_ok_iff] at hRead
    obtain ⟨c, hc, cs, hRest, rfl⟩ := hRead
    obtain ⟨d, hd, hcd⟩ := hf a b c h hc
    refine ⟨d :: cs, ?_, .here hcd⟩
    simp only [List.mapM_cons, bind_eq_ok_iff, pure_eq_ok_iff]
    exact ⟨d, hd, cs, by rwa [funext hSame], rfl⟩
  | @there a as bs _ ih =>
    simp only [List.mapM_cons, bind_eq_ok_iff, pure_eq_ok_iff] at hRead
    obtain ⟨c, hc, cs, hRest, rfl⟩ := hRead
    obtain ⟨ds, hds, hReplaced⟩ := ih hRest
    refine ⟨c :: ds, ?_, .there hReplaced⟩
    simp only [List.mapM_cons, bind_eq_ok_iff, pure_eq_ok_iff]
    exact ⟨c, by rwa [hSame], ds, hds, rfl⟩

/-- The statement derives an account. -/
def Statement.IsDerivation (s : Statement) : Prop := ∃ pos d, s = .derive pos d

/-- The instruction with two neighbouring derivations exchanged. -/
def Instruction.Exchanged (i i' : Instruction) : Prop :=
  ∃ body, Swapped Statement.IsDerivation i.body body ∧ i' = { i with body }

/-- The program with two neighbouring derivations of an instruction exchanged. -/
def Program.Exchanged (p p' : Program) : Prop :=
  ∃ is, Replaced Instruction.Exchanged p.instructions is ∧ p' = { p with instructions := is }

namespace Syntax

/-- The expression calls `derive` or `deriveWithBump`. -/
def Expr.derives : Expr → Bool
  | .call (.member _ _ method) _ => Program.isDeriveMethod method
  | _ => false

/-- The statement derives an account, and it may call `init` on what this gives. -/
def Statement.isDerivation : Statement → Bool
  | .expr _ (.call (.member object pos method) args) =>
    Expr.derives (.call (.member object pos method) args) || (method = "init" && object.derives)
  | _ => false

/-- The method with two neighbouring derivations exchanged. -/
def MethodDecl.Exchanged (m m' : MethodDecl) : Prop :=
  ∃ body, Swapped (·.isDerivation) m.body body ∧ m' = { m with body }

/-- The class with two neighbouring derivations of a method exchanged. -/
def ClassDecl.Exchanged (c c' : ClassDecl) : Prop :=
  ∃ methods, Replaced MethodDecl.Exchanged c.methods methods ∧ c' = { c with methods }

/-- The file with two neighbouring derivations of a method exchanged. -/
def File.Exchanged (f f' : File) : Prop :=
  ∃ classes, Replaced ClassDecl.Exchanged f.classes classes ∧ f' = { f with classes }

end Syntax

namespace Program

variable {c : BodyContext} {file : Text} {s : Settings}

/-- What an accepted derivation becomes. -/
theorem isDerivation_of_extracts {stmt : Syntax.Statement} {t : Statement} (h : Extracts c stmt t)
    (hStmt : stmt.isDerivation = true) : t.IsDerivation := by
  cases h with
  | derive => exact ⟨_, _, rfl⟩
  | init => exact ⟨_, _, rfl⟩
  | call hKind =>
    simp [Syntax.Statement.isDerivation, Syntax.Expr.derives, not_isDeriveMethod_of_ofNames? hKind]
      at hStmt
  | close =>
    have hClose : isDeriveMethod (Text.ofString "close") = false := by decide
    simp [Syntax.Statement.isDerivation, Syntax.Expr.derives, hClose] at hStmt
  | _ => cases hStmt

/-- A derivation is extracted on its own: it declares no variable, and it ends no body. -/
theorem exists_bodyOf_eq {stmt : Syntax.Statement} (h : stmt.isDerivation = true) :
    ∃ x : Except Diagnostic Statement, (∀ t, x = .ok t → t.IsDerivation) ∧ ∀ declared rest,
      bodyOf c declared (stmt :: rest) = (do return (← x) :: (← bodyOf c declared rest)) := by
  obtain ⟨pos, callee, args, rfl⟩ : ∃ pos callee args, stmt = .expr pos (.call callee args) := by
    unfold Syntax.Statement.isDerivation at h
    split at h
    · exact ⟨_, _, _, rfl⟩
    · cases h
  refine ⟨callStatement c callee args, fun t ht => ?_, fun declared rest => by rw [bodyOf]⟩
  exact isDerivation_of_extracts (extracts_of_callStatement ht) h

theorem bodyOf_exchanged {declared : List Text} {ss ss' : List Syntax.Statement}
    {body : List Statement} (h : Swapped (·.isDerivation) ss ss')
    (hBody : bodyOf c declared ss = .ok body) :
    ∃ body', bodyOf c declared ss' = .ok body' ∧ Swapped Statement.IsDerivation body body' := by
  induction h generalizing declared body with
  | @here s t rest hs ht =>
    obtain ⟨x, hx, hFirst⟩ := exists_bodyOf_eq (c := c) hs
    obtain ⟨y, hy, hSecond⟩ := exists_bodyOf_eq (c := c) ht
    simp only [hFirst, hSecond, bind_eq_ok_iff, pure_eq_ok_iff] at hBody ⊢
    obtain ⟨d, hd, _, ⟨d', hd', body, hRest, rfl⟩, rfl⟩ := hBody
    exact ⟨_, ⟨d', hd', _, ⟨d, hd, body, hRest, rfl⟩, rfl⟩, .here (hx d hd) (hy d' hd')⟩
  | @there s ss ss' hSwapped ih =>
    -- Behind a statement that is read with `x`, the other statements are read as before.
    have hBehind : ∀ {declared' : List Text} {x : Except Diagnostic Statement},
        (do return (← x) :: (← bodyOf c declared' ss)) = .ok body →
        ∃ body', (do return (← x) :: (← bodyOf c declared' ss')) = .ok body' ∧
          Swapped Statement.IsDerivation body body' := by
      intro declared' x hRead
      simp only [bind_eq_ok_iff, pure_eq_ok_iff] at hRead ⊢
      obtain ⟨t, ht, rest, hRest, rfl⟩ := hRead
      obtain ⟨rest', hRest', hExchanged⟩ := ih hRest
      exact ⟨_, ⟨t, ht, rest', hRest', rfl⟩, .there hExchanged⟩
    cases s with
    | ret pos value =>
      rw [bodyOf, refused_or_eq_ok_iff] at hBody
      simp only [Bool.or_eq_true, not_or, Bool.not_eq_true', Bool.not_eq_false] at hBody
      rw [List.isEmpty_iff.mp hBody.1.2] at hSwapped
      cases hSwapped
    | binding pos kind name type value => exact hBehind hBody
    | expr pos e =>
      cases e with
      | assign target value => exact hBehind hBody
      | call callee args => exact hBehind hBody
      | _ => cases hBody

theorem instructionOf_exchanged {isState : Text → Bool} {m m' : Syntax.MethodDecl} {i : Instruction}
    (h : m.Exchanged m') (hInstruction : instructionOf file s isState m = .ok i) :
    ∃ i', instructionOf file s isState m' = .ok i' ∧ i.Exchanged i' := by
  obtain ⟨ss, hSwapped, rfl⟩ := h
  simp only [instructionOf, refused_or_eq_ok_iff, bind_eq_ok_iff, pure_eq_ok_iff] at hInstruction ⊢
  obtain ⟨hName, returns, hReturns, params, hParams, body, hBody, rfl⟩ := hInstruction
  obtain ⟨body', hBody', hExchanged⟩ := bodyOf_exchanged hSwapped hBody
  exact ⟨_, ⟨hName, returns, hReturns, params, hParams, body', hBody', rfl⟩, body', hExchanged, rfl⟩

theorem instructionsOf_exchanged {isState : Text → Bool} {seen : List Text}
    {ms ms' : List Syntax.MethodDecl} {is : List Instruction}
    (h : Replaced Syntax.MethodDecl.Exchanged ms ms')
    (hInstructions : instructionsOf file s isState seen ms = .ok is) :
    ∃ is', instructionsOf file s isState seen ms' = .ok is' ∧
      Replaced Instruction.Exchanged is is' := by
  induction h generalizing seen is with
  | @here m m' rest hm =>
    simp only [instructionsOf, refused_or_eq_ok_iff, bind_eq_ok_iff, pure_eq_ok_iff]
      at hInstructions
    obtain ⟨hSeen, i, hi, is', his, rfl⟩ := hInstructions
    obtain ⟨i', hi', hExchanged⟩ := instructionOf_exchanged hm hi
    have hName : m'.name = m.name := by
      obtain ⟨_, _, rfl⟩ := hm
      rfl
    refine ⟨i' :: is', ?_, .here hExchanged⟩
    simp only [instructionsOf, hName, refused_or_eq_ok_iff, bind_eq_ok_iff, pure_eq_ok_iff]
    exact ⟨hSeen, i', hi', is', his, rfl⟩
  | @there m ms ms' _ ih =>
    simp only [instructionsOf, refused_or_eq_ok_iff, bind_eq_ok_iff, pure_eq_ok_iff]
      at hInstructions
    obtain ⟨hSeen, i, hi, is', his, rfl⟩ := hInstructions
    obtain ⟨is'', his', hReplaced⟩ := ih his
    refine ⟨i :: is'', ?_, .there hReplaced⟩
    simp only [instructionsOf, refused_or_eq_ok_iff, bind_eq_ok_iff, pure_eq_ok_iff]
    exact ⟨hSeen, i, hi, is'', his', rfl⟩

theorem declaredId_withMethods (cls : Syntax.ClassDecl) (methods : List Syntax.MethodDecl) :
    declaredId file { cls with methods } = declaredId file cls := by
  have hDeclaration : ∀ found ps, idDeclaration file { cls with methods } found ps =
      idDeclaration file cls found ps := by
    intro found ps
    induction ps generalizing found with
    | nil => rfl
    | cons p ps ih => simp only [idDeclaration, ih]
  simp only [declaredId, hDeclaration]

/-- An accepted file with two neighbouring derivations exchanged declares the same program, with the
two exchanged in its instruction. -/
theorem ofFile_exchanged {f f' : Syntax.File} {p : Program} (h : f.Exchanged f')
    (hProgram : ofFile file s f = .ok p) : ∃ p', ofFile file s f' = .ok p' ∧ p.Exchanged p' := by
  obtain ⟨classes, hClasses, rfl⟩ := h
  simp only [ofFile, bind_eq_ok_iff, pure_eq_ok_iff] at hProgram ⊢
  obtain ⟨cls, hClass, names, hNames, states, hStates, id, hId, is, his, rfl⟩ := hProgram
  obtain ⟨hSingle, hDefault⟩ := programClass_ok hClass
  rw [hSingle] at hClasses
  cases hClasses with
  | here hExchanged =>
    obtain ⟨methods, hMethods, rfl⟩ := hExchanged
    obtain ⟨is', his', hReplaced⟩ := instructionsOf_exchanged hMethods his
    refine ⟨_, ⟨_, programClass_singleton hDefault, names, hNames, states, hStates, id, ?_, is',
      his', rfl⟩, is', hReplaced, rfl⟩
    rw [declaredId_withMethods]
    exact hId
  | there hNone => cases hNone

end Program

end AnchorScript
