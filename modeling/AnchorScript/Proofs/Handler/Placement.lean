import AnchorScript.Handler.OfInstruction
import AnchorScript.Proofs.Resolution.Placement

/-!
# Handlers hold no places

A resolved instruction has the same handler with and without its places.
-/

namespace AnchorScript

theorem ResolvedInstruction.account?_unplaced (i : ResolvedInstruction) (name : Text) :
    i.unplaced.account? name = (i.account? name).map AccountRef.unplaced :=
  find?_unplaced (g := AccountRef.unplaced) (fun _ => rfl) i.accounts

theorem ResolvedInstruction.seedsAt?_unplaced (i : ResolvedInstruction) (index : Nat) :
    i.unplaced.seedsAt? index = (i.seedsAt? index).map (List.map Seed.unplaced) :=
  lookup_map_snd (List.map Seed.unplaced) index i.signerSeeds

namespace Handler

def Frame.unplaced (fr : Frame) : Frame := ⟨fr.program.unplaced, fr.instruction.unplaced⟩

variable (fr : Frame)

theorem declare_steady (names : Names) (name : Text) (pos pos' : SourcePos) :
    Steady id (declare fr names name pos) (declare fr.unplaced names name pos') := by
  refine .ite .rfl (.error rfl) ?_
  split
  · exact .ite .rfl .ok (.error rfl)
  · exact .ok

theorem declareParams_steady (names : Names) (ps : List Param) :
    Steady id (declareParams fr names ps)
      (declareParams fr.unplaced names (ps.map Param.unplaced)) := by
  induction ps generalizing names with
  | nil => exact .ok
  | cons p ps ih => exact .bind (declare_steady fr names p.name p.pos nowhere) fun next => ih next

theorem declareVariables_steady (names : Names) (body : List Statement) :
    Steady id (declareVariables fr names body)
      (declareVariables fr.unplaced names (body.map Statement.unplaced)) := by
  induction body generalizing names with
  | nil => exact .ok
  | cons s rest ih =>
    cases s with
    | bind pos l => exact .bind (declare_steady fr names l.name pos nowhere) fun next => ih next
    | _ => exact ih names

theorem fieldExpr_steady (pos pos' : SourcePos) (account field : Text) :
    Steady id (fieldExpr fr pos account field) (fieldExpr fr.unplaced pos' account field) := by
  have hInstruction : fr.unplaced.instruction = fr.instruction.unplaced := rfl
  simp only [fieldExpr, hInstruction, ResolvedInstruction.account?_unplaced]
  cases fr.instruction.account? account with
  | none => exact .error rfl
  | some ref =>
    have hState := Surroundings.stateOf?_unplaced ⟨fr.program, fr.instruction.source⟩ ref
    rw [Surroundings.unplaced] at hState
    dsimp only [Option.map_some, Frame.unplaced, ResolvedInstruction.unplaced]
    rw [hState]
    cases Surroundings.stateOf? ⟨fr.program, fr.instruction.source⟩ ref with
    | none => exact .error rfl
    | some st =>
      dsimp only [Option.map_some]
      rw [StateType.field?_unplaced]
      cases st.field? field with
      | none => exact .error rfl
      | some f => exact .ok

theorem exprOf_steady (bound : List Text) (v : Value) :
    Steady id (exprOf fr bound v) (exprOf fr.unplaced bound v.unplaced) := by
  induction v with
  | int | bool | string => exact .ok
  | account => exact .error rfl
  | arg pos name asBytes =>
    have hType := Instruction.argType_unplaced fr.instruction.source name
    simp only [Value.unplaced, exprOf, Frame.unplaced, ResolvedInstruction.unplaced, hType]
    split <;> exact .ok
  | var pos name asBytes =>
    have hLocals : fr.unplaced.instruction.locals = fr.instruction.locals := rfl
    refine .ite .rfl ?_ (.error rfl)
    rw [hLocals]
    cases fr.instruction.locals.lookup name with
    | none => exact .ok
    | some t => exact .ok
  | key pos a asBytes =>
    simp only [Value.unplaced, exprOf, Frame.unplaced, ResolvedInstruction.account?_unplaced]
    cases fr.instruction.account? a with
    | none => exact .error rfl
    | some ref => exact .ok
  | field pos a f asBytes => exact fieldExpr_steady fr pos nowhere a f
  | bump pos a =>
    refine .ite ?_ .ok (.error rfl)
    simp only [Frame.unplaced, ResolvedInstruction.account?_unplaced, Option.any_map,
      AccountRef.isProgramDerived_unplaced]
  | binary pos op l r ihLeft ihRight => exact .bind ihLeft fun _ => .bind ihRight fun _ => .ok
  | neg pos v ih | paren pos v ih => exact .bind ih fun _ => .ok

theorem signerSeedList_unplaced (used : List Text) (seeds : List Seed) :
    signerSeedList used (seeds.map Seed.unplaced) = signerSeedList used seeds := by
  induction seeds generalizing used with
  | nil => rfl
  | cons s rest ih => simp only [List.map_cons, signerSeedList, Seed.unplaced, ih]

theorem invocation_steady (names : Names) (generated bound : List Text) (index : Nat)
    (c : CrossProgramCall) :
    Steady id (invocation fr names generated bound index c)
      (invocation fr.unplaced names generated bound index c.unplaced) := by
  refine .bind (exprOf_steady fr bound c.amount) fun amount => ?_
  have hSeeds : (fr.unplaced.instruction.seedsAt? index).getD [] =
      ((fr.instruction.seedsAt? index).getD []).map Seed.unplaced := by
    rw [Frame.unplaced, ResolvedInstruction.seedsAt?_unplaced]
    cases fr.instruction.seedsAt? index <;> rfl
  dsimp only
  rw [hSeeds, signerSeedList_unplaced]
  obtain ⟨action, amount, written⟩ := c
  cases written <;> exact .ok

theorem stmtsOf_steady (names : Names) (generated bound : List Text) (index : Nat)
    (body : List Statement) :
    Steady id (stmtsOf fr names generated bound index body)
      (stmtsOf fr.unplaced names generated bound index (body.map Statement.unplaced)) := by
  induction body generalizing generated bound index with
  | nil => exact .ok
  | cons s rest ih =>
    cases s with
    | assign pos a =>
      exact .bind (exprOf_steady fr bound a.value) fun _ => .bind (ih _ _ _) fun _ => .ok
    | bind pos l =>
      exact .bind (exprOf_steady fr bound l.value) fun _ => .bind (ih _ _ _) fun _ => .ok
    | call pos c =>
      refine .bind (invocation_steady fr names generated bound index c) fun i => ?_
      exact .bind (ih _ _ _) fun _ => .ok
    | derive pos d | close pos c => exact ih _ _ _

theorem argsOf_unplaced (i : Instruction) : argsOf i.unplaced = argsOf i := by
  rw [argsOf, argsOf, Instruction.args, Instruction.args, Instruction.unplaced, List.filter_map,
    List.map_map]
  rfl

theorem ofInstruction_steady (p : Program) (i : ResolvedInstruction) :
    Steady id (ofInstruction p i) (ofInstruction p.unplaced i.unplaced) := by
  refine .bind (declareParams_steady ⟨p, i⟩ [] i.source.params) fun names => ?_
  refine .bind (declareVariables_steady ⟨p, i⟩ names i.source.body) fun names' => ?_
  refine .bind (stmtsOf_steady ⟨p, i⟩ names' [] [] 0 i.source.body) fun body => ?_
  rw [show i.unplaced.source = i.source.unplaced from rfl, argsOf_unplaced]
  exact .ok

end Handler

theorem ResolvedProgram.handlers_steady (p : ResolvedProgram) :
    Steady id p.handlers p.unplaced.handlers := by
  have h := Steady.mapM (Handler.ofInstruction_steady p.source) p.instructions
  rwa [List.map_id_fun] at h

end AnchorScript
