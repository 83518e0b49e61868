import AnchorScript.Proofs.Program.Extraction

/-!
# What becomes of each statement

A handler carries out the assignments, the declarations of variables and the cross-program calls of
its method, one statement for each of them and in their order. `CarriedOut` ties a statement of the
source to the statement of the instruction it becomes and to that of the handler.
-/

namespace AnchorScript

open Outcome

/-- The handler has a statement of its own for it. -/
def Statement.isCarriedOut : Statement → Bool
  | .assign .. | .bind .. | .call .. => true
  | .derive .. | .close .. => false

/-- The kind and the arguments of a cross-program call. -/
def Syntax.Statement.crossProgramCall? :
    Syntax.Statement → Option (Program.CallKind × List Syntax.Expr)
  | .expr _ (.call (.member (.name _ id) _ method) args) =>
    (Program.CallKind.ofNames? id method).map (·, args)
  | _ => none

def Syntax.Statement.isCarriedOut : Syntax.Statement → Bool
  | .binding .. | .expr _ (.assign ..) => true
  | s => s.crossProgramCall?.isSome

namespace Handler

/-- The handler's statement for the statement of the body with this index. -/
inductive Translates (fr : Frame) (names : Names) (index : Nat) : Statement → HandlerStmt → Prop
  | write {bound : List Text} {pos : SourcePos} {a : Assign} {value : Rust.Expr}
      (hValue : exprOf fr bound a.value = .ok value) :
      Translates fr names index (.assign pos a)
        (.write (.contextField (Rust.ident a.account) (Rust.ident a.field)) value)
  | bind {bound : List Text} {pos : SourcePos} {l : LocalBinding} {value : Rust.Expr}
      (hValue : exprOf fr bound l.value = .ok value) :
      Translates fr names index (.bind pos l)
        (.bind (Rust.ident l.name) l.isMutable (l.declared.map rustType) value)
  | invoke {generated bound : List Text} {pos : SourcePos} {c : CrossProgramCall} {i : Invocation}
      (hInvocation : invocation fr names generated bound index c = .ok i) :
      Translates fr names index (.call pos c) (.invoke i)

theorem translates_of_stmtsOf {fr : Frame} {names : Names} {generated bound : List Text}
    {index : Nat} {body : List Statement} {hs : List HandlerStmt}
    (h : stmtsOf fr names generated bound index body = .ok hs) :
    List.Forall₂ (fun s t => Translates fr names s.2 s.1 t)
      ((body.zipIdx index).filter (·.1.isCarriedOut)) hs := by
  induction body generalizing generated bound index hs with
  | nil =>
    cases h
    exact .nil
  | cons s rest ih =>
    cases s with
    | assign pos a =>
      simp only [stmtsOf, bind_eq_ok_iff, pure_eq_ok_iff] at h
      obtain ⟨value, hValue, ts, hRest, rfl⟩ := h
      exact .cons (.write hValue) (ih hRest)
    | bind pos l =>
      simp only [stmtsOf, bind_eq_ok_iff, pure_eq_ok_iff] at h
      obtain ⟨value, hValue, ts, hRest, rfl⟩ := h
      exact .cons (.bind hValue) (ih hRest)
    | call pos c =>
      simp only [stmtsOf, bind_eq_ok_iff, pure_eq_ok_iff] at h
      obtain ⟨i, hInvocation, ts, hRest, rfl⟩ := h
      exact .cons (.invoke hInvocation) (ih hRest)
    | derive pos d => exact ih h
    | close pos c => exact ih h

/-- The heading of a handler is that of its instruction, whatever the body. -/
theorem heading_of_ofInstruction {p : Program} {r : ResolvedInstruction} {t : Handler}
    (h : ofInstruction p r = .ok t) :
    t.name = Rust.ident r.source.name ∧ t.context = Rust.contextName r.source.name ∧
      t.args = argsOf r.source := by
  simp only [ofInstruction, bind_eq_ok_iff, pure_eq_ok_iff] at h
  obtain ⟨_, _, _, _, _, _, rfl⟩ := h
  exact ⟨rfl, rfl, rfl⟩

/-- A statement of the method, through the instruction's body, to the handler. -/
def CarriedOut (c : Program.BodyContext) (fr : Frame) (names : Names) (s : Syntax.Statement)
    (t : HandlerStmt) : Prop :=
  ∃ st index, Program.Extracts c s st ∧ fr.instruction.source.body[index]? = some st ∧
    Translates fr names index st t

theorem isCarriedOut_of_extracts {c : Program.BodyContext} {s : Syntax.Statement} {st : Statement}
    (h : Program.Extracts c s st) : s.isCarriedOut = st.isCarriedOut := by
  cases h with
  | bind => rfl
  | assign => rfl
  | call hKind =>
    simp [Syntax.Statement.isCarriedOut, Syntax.Statement.crossProgramCall?, hKind,
      Statement.isCarriedOut]
  | derive _ hKind =>
    simp [Syntax.Statement.isCarriedOut, Syntax.Statement.crossProgramCall?, hKind,
      Statement.isCarriedOut]
  | init => rfl
  | close hKind =>
    simp [Syntax.Statement.isCarriedOut, Syntax.Statement.crossProgramCall?, hKind,
      Statement.isCarriedOut]

theorem crossProgramCall?_eq_none {s : Syntax.Statement} (h : s.isCarriedOut = false) :
    s.crossProgramCall? = none := by
  unfold Syntax.Statement.isCarriedOut at h
  split at h
  · cases h
  · cases h
  · exact Option.not_isSome_iff_eq_none.mp (by simpa using h)

theorem extracts_zipIdx {c : Program.BodyContext} {ss : List Syntax.Statement}
    {body : List Statement} (h : List.Forall₂ (Program.Extracts c) ss body) :
    List.Forall₂ (fun s t => Program.Extracts c s t.1 ∧ body[t.2]? = some t.1) ss body.zipIdx := by
  rw [List.forall₂_iff_get]
  refine ⟨by rw [List.length_zipIdx, h.length_eq], fun k hs ht => ?_⟩
  have hk : k < body.length := by rwa [h.length_eq] at hs
  refine ⟨?_, ?_⟩
  · have hGet := (List.forall₂_iff_get.mp h).2 k hs hk
    simpa using hGet
  · simp [hk]

/-- The statements of a handler are those of its method that it carries out, in order. -/
theorem carriedOut_of_stmtsOf {c : Program.BodyContext} {fr : Frame} {names : Names}
    {m : List Syntax.Statement} {hs : List HandlerStmt}
    (hBody : List.Forall₂ (Program.Extracts c) (m.filter (!·.isReturn)) fr.instruction.source.body)
    (h : stmtsOf fr names [] [] 0 fr.instruction.source.body = .ok hs) :
    List.Forall₂ (CarriedOut c fr names) (m.filter (·.isCarriedOut)) hs := by
  have hFiltered := List.rel_filter (p := (·.isCarriedOut)) (q := (·.1.isCarriedOut))
    (fun s t hst => by simp only [isCarriedOut_of_extracts hst.1]) (extracts_zipIdx hBody)
  have hNoReturn : (m.filter (!·.isReturn)).filter (·.isCarriedOut) =
      m.filter (·.isCarriedOut) := by
    rw [List.filter_filter]
    refine List.filter_congr fun s _ => ?_
    cases s <;> simp [Syntax.Statement.isReturn, Syntax.Statement.isCarriedOut,
      Syntax.Statement.crossProgramCall?]
  rw [hNoReturn] at hFiltered
  refine (forall₂_trans hFiltered (translates_of_stmtsOf h)).imp ?_
  rintro s t ⟨⟨st, index⟩, ⟨hExtracts, hIndex⟩, hTranslates⟩
  exact ⟨st, index, hExtracts, hIndex, hTranslates⟩

end Handler

end AnchorScript
