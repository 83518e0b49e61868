import AnchorScript.Proofs.Handler.SignerSeeds

/-!
# Names of a handler

The parameters of an instruction and the variables of its body share the scope of one function, with
the context beside them. A handler is refused exactly where two of their names become one
identifier, or one of them becomes the identifier of the context; otherwise identifiers stand for
names one to one.
-/

namespace AnchorScript

open Outcome

/-- The variable that a statement declares, with the place of the statement. -/
def Statement.declaration? : Statement → Option (Text × SourcePos)
  | .bind pos l => some (l.name, pos)
  | _ => none

/-- The names that an instruction declares: its parameters, then the variables of its body. -/
def Instruction.declarations (i : Instruction) : List (Text × SourcePos) :=
  i.params.map (fun q => (q.name, q.pos)) ++ i.body.filterMap Statement.declaration?

theorem Instruction.mem_declarations_of_param {i : Instruction} {q : Param} (hq : q ∈ i.params) :
    (q.name, q.pos) ∈ i.declarations :=
  List.mem_append_left _ (List.mem_map.mpr ⟨q, hq, rfl⟩)

namespace Handler

/-- The names declared one after the other, whatever declares them. -/
def declareAll (fr : Frame) (names : Names) (ds : List (Text × SourcePos)) :
    Except Diagnostic Names :=
  ds.foldlM (fun names d => declare fr names d.1 d.2) names

section Declarations

variable {fr : Frame} {names names' : Names} {ds : List (Text × SourcePos)}

theorem declareAll_cons (d : Text × SourcePos) :
    declareAll fr names (d :: ds) =
      (declare fr names d.1 d.2 >>= fun names => declareAll fr names ds) := by
  rw [declareAll, List.foldlM_cons]
  rfl

theorem declareParams_eq_declareAll (ps : List Param) :
    declareParams fr names ps = declareAll fr names (ps.map fun q => (q.name, q.pos)) := by
  induction ps generalizing names with
  | nil => rfl
  | cons q ps ih =>
    rw [declareParams, List.map_cons, declareAll_cons]
    exact congrArg (declare fr names q.name q.pos >>= ·) (funext fun names => ih)

theorem declareVariables_eq_declareAll (body : List Statement) :
    declareVariables fr names body =
      declareAll fr names (body.filterMap Statement.declaration?) := by
  induction body generalizing names with
  | nil => rfl
  | cons s body ih =>
    cases s with
    | bind pos l =>
      rw [declareVariables]
      change _ = declareAll fr names ((l.name, pos) :: body.filterMap Statement.declaration?)
      rw [declareAll_cons]
      exact congrArg (declare fr names l.name pos >>= ·) (funext fun names => ih)
    | _ => exact ih

theorem declare_bind_eq_declareAll (i : Instruction) :
    (declareParams fr names i.params >>= fun names => declareVariables fr names i.body) =
      declareAll fr names i.declarations := by
  rw [declareParams_eq_declareAll, Instruction.declarations, declareAll, declareAll,
    List.foldlM_append]
  exact congrArg (_ >>= ·) (funext fun names => declareVariables_eq_declareAll i.body)

theorem lookup_of_declare {name : Text} {pos : SourcePos}
    (h : declare fr names name pos = .ok names') :
    Rust.ident name ≠ contextParam ∧ names'.lookup (Rust.ident name) = some name ∧
      ∀ id n, names.lookup id = some n → names'.lookup id = some n := by
  simp only [declare, refused_or_eq_ok_iff] at h
  obtain ⟨hContext, h⟩ := h
  refine ⟨hContext, ?_⟩
  split at h
  · rename_i previous hLookup
    simp only [allowed_or_eq_ok_iff, Except.ok.injEq] at h
    obtain ⟨rfl, rfl⟩ := h
    exact ⟨hLookup, fun _ _ hKept => hKept⟩
  · rename_i hFree
    cases h
    refine ⟨List.lookup_cons_self, fun id n hKept => ?_⟩
    have hOther : id ≠ Rust.ident name := by
      rintro rfl
      cases hFree.symm.trans hKept
    rw [List.lookup_cons, beq_false_of_ne hOther]
    exact hKept

theorem lookup_of_declareAll (h : declareAll fr names ds = .ok names') :
    (∀ d ∈ ds, Rust.ident d.1 ≠ contextParam ∧ names'.lookup (Rust.ident d.1) = some d.1) ∧
      ∀ id n, names.lookup id = some n → names'.lookup id = some n := by
  induction ds generalizing names with
  | nil =>
    cases h
    exact ⟨by simp, fun _ _ hKept => hKept⟩
  | cons d ds ih =>
    rw [declareAll_cons, bind_eq_ok_iff] at h
    obtain ⟨mid, hHead, hTail⟩ := h
    obtain ⟨hContext, hHere, hKept⟩ := lookup_of_declare hHead
    obtain ⟨hLater, hKeptLater⟩ := ih hTail
    refine ⟨List.forall_mem_cons.mpr ⟨⟨hContext, hKeptLater _ _ hHere⟩, hLater⟩, ?_⟩
    exact fun id n hn => hKeptLater id n (hKept id n hn)

/-- Where all names are declared, different names are different identifiers. -/
theorem ident_injOn_of_declareAll (h : declareAll fr names ds = .ok names')
    {d d' : Text × SourcePos} (hd : d ∈ ds) (hd' : d' ∈ ds)
    (hIdent : Rust.ident d.1 = Rust.ident d'.1) : d.1 = d'.1 := by
  have hDeclared := (lookup_of_declareAll h).1
  have hHere := (hDeclared d hd).2
  rw [hIdent, (hDeclared d' hd').2] at hHere
  exact (Option.some.inj hHere).symm

end Declarations

/-- The diagnostic of an instruction whose names cannot all be declared. -/
inductive NameClash (fr : Frame) : Diagnostic → Prop
  | context {name : Text} {pos : SourcePos}
      (hName : (name, pos) ∈ fr.instruction.source.declarations)
      (hIdent : Rust.ident name = contextParam) :
      NameClash fr (fr.refuse .unsupportedConstruct pos []
        ("'" ++ name ++ "' clashes with the handler context parameter"))
  | shared {first second : Text} {pos pos' : SourcePos}
      (hFirst : (first, pos) ∈ fr.instruction.source.declarations)
      (hSecond : (second, pos') ∈ fr.instruction.source.declarations) (hOther : first ≠ second)
      (hIdent : Rust.ident first = Rust.ident second) :
      NameClash fr (fr.refuse .duplicateDeclaration pos' []
        ("'" ++ first ++ "' and '" ++ second ++ "' both map to '" ++ Rust.ident second ++ "'"))

/-- Every identifier is kept with the declared name it comes from. -/
def Names.OfDeclared (fr : Frame) (names : Names) : Prop :=
  ∀ e ∈ names, e.1 = Rust.ident e.2 ∧ ∃ pos, (e.2, pos) ∈ fr.instruction.source.declarations

theorem Names.OfDeclared.declare {fr : Frame} {names names' : Names} {name : Text}
    {pos : SourcePos} (hNames : names.OfDeclared fr)
    (hName : (name, pos) ∈ fr.instruction.source.declarations)
    (h : declare fr names name pos = .ok names') : names'.OfDeclared fr := by
  simp only [Handler.declare, refused_or_eq_ok_iff] at h
  obtain ⟨_, h⟩ := h
  split at h
  · simp only [allowed_or_eq_ok_iff, Except.ok.injEq] at h
    obtain ⟨_, rfl⟩ := h
    exact hNames
  · cases h
    exact List.forall_mem_cons.mpr ⟨⟨rfl, pos, hName⟩, hNames⟩

theorem nameClash_of_declare {fr : Frame} {names : Names} {name : Text} {pos : SourcePos}
    {e : Diagnostic} (hNames : names.OfDeclared fr)
    (hName : (name, pos) ∈ fr.instruction.source.declarations)
    (h : declare fr names name pos = .error e) : NameClash fr e := by
  simp only [declare] at h
  split at h
  · rename_i hContext
    cases h
    exact .context hName hContext
  · split at h
    · rename_i previous hLookup
      split at h
      · cases h
      · rename_i hOther
        cases h
        obtain ⟨front, back, hSplit, _⟩ := List.lookup_eq_some_iff.mp hLookup
        have hMem : (Rust.ident name, previous) ∈ names := by
          rw [hSplit]
          exact List.mem_append_right front List.mem_cons_self
        obtain ⟨hIdent, first, hFirst⟩ := hNames _ hMem
        exact .shared hFirst hName hOther hIdent.symm
    · cases h

theorem nameClash_of_declareAll {fr : Frame} {names : Names} {ds : List (Text × SourcePos)}
    {e : Diagnostic} (hNames : names.OfDeclared fr)
    (hds : ds ⊆ fr.instruction.source.declarations)
    (h : declareAll fr names ds = .error e) : NameClash fr e := by
  induction ds generalizing names with
  | nil => cases h
  | cons d ds ih =>
    obtain ⟨hHere, hLater⟩ := List.cons_subset.mp hds
    rw [declareAll_cons, bind_eq_error_iff] at h
    rcases h with hHead | ⟨mid, hHead, hTail⟩
    · exact nameClash_of_declare hNames hHere hHead
    · exact ih (hNames.declare hHere hHead) hLater hTail

/-- A handler is made in two parts: the names are declared, then the body is translated. -/
theorem ofInstruction_eq (p : Program) (i : ResolvedInstruction) :
    ofInstruction p i = (declareAll ⟨p, i⟩ [] i.source.declarations >>= fun names => do
      return {
        name := Rust.ident i.source.name
        context := Rust.contextName i.source.name
        args := argsOf i.source
        body := ← stmtsOf ⟨p, i⟩ names [] [] 0 i.source.body }) := by
  rw [← declare_bind_eq_declareAll, bind_assoc]
  rfl

end Handler

end AnchorScript
