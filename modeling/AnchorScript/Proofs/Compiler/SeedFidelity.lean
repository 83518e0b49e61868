import AnchorScript.Proofs.Compiler.AddressSeeds
import AnchorScript.Proofs.Compiler.OwnNames
import AnchorScript.Proofs.Compiler.PrintedDescription

/-!
# Seeds are kept

From the source to the emitted texts, no seed is lost, added, moved or changed: not in the
constraint of a derived account, not in its description, and not among the seeds that a call signs
with. Integers among those are read through buffers, which are bound before; `SignerSeed` and
`BumpSeed` say what the seeds are when each is read in place. They have the same values where no
buffer is, to Rust, a name of the source or another buffer.
-/

namespace AnchorScript

open Outcome

/-- An element of a signer seed array that is no bump, and how it is read in place. -/
inductive SignerSeed (p : Program) (i : Instruction) : Syntax.Expr → Rust.Expr → Prop
  | literal {pos : SourcePos} {s : Text} : SignerSeed p i (.string pos s) (.bytes s)
  | key {e : Syntax.Expr} {account : Text}
      (hPath : e.path? = some [account, Text.ofString "key"])
      (hAccount : (i.accountRole? account).isSome = true) :
      SignerSeed p i e (((Rust.Expr.accountInfo (Rust.ident account)).member "key").call "as_ref")
  | field {e : Syntax.Expr} {account field : Text} {t : ValueType}
      (hPath : e.path? = some [account, field]) (hField : field ≠ "key")
      (hType : p.fieldType? i account field = some t) (hForm : t.kind.hasByteForm = true) :
      SignerSeed p i e (Rust.Constraint.bytesOf
        (.contextField (Rust.ident account) (Rust.ident field)) t.kind)
  | argument {pos : SourcePos} {name : Text} {t : ValueType}
      (hType : i.argType? name = some t) (hForm : t.kind.hasByteForm = true) :
      SignerSeed p i (.name pos name) (Rust.Constraint.bytesOf (.var (Rust.ident name)) t.kind)
  | toBytes {e : Syntax.Expr} {pos : SourcePos} {x : Rust.Expr} (hSeed : SignerSeed p i e x) :
      SignerSeed p i (.call (.member e pos (Text.ofString "toBytes")) []) x

/-- An element of a signer seed array that is a bump, and how it is read in place. -/
inductive BumpSeed (p : Program) (i : ResolvedInstruction) : Syntax.Expr → Rust.Expr → Prop
  | stored {e : Syntax.Expr} {account field : Text} {t : ValueType}
      (hPath : e.path? = some [account, field])
      (hType : p.fieldType? i.source account field = some t) (hByte : t.isBump = true) :
      BumpSeed p i e (.slice (.contextField (Rust.ident account) (Rust.ident field)))
  | computed {npos pos : SourcePos} {account : Text}
      (hAccount : (i.source.accountRole? account).isSome = true) :
      BumpSeed p i (.call (.member (.name npos account) pos (Text.ofString "getBump")) [])
        (.slice (.contextBump (Rust.ident account)))
  | ofVar {pos : SourcePos} {name : Text} {t : ValueType}
      (hVar : (name, t) ∈ i.locals) (hByte : t.isBump = true) :
      BumpSeed p i (.name pos name) (.slice (.var (Rust.ident name)))
  | toBytes {e : Syntax.Expr} {pos : SourcePos} {x : Rust.Expr} (hBump : BumpSeed p i e x) :
      BumpSeed p i (.call (.member e pos (Text.ofString "toBytes")) []) x

/-- Only bumps are written as slices of one element. -/
def Rust.Expr.isSlice : Rust.Expr → Bool
  | .slice _ => true
  | _ => false

namespace Rust

/-- The signer of a statement that makes the context of a call. -/
def Stmt.signer? : Stmt → Option (Option Text)
  | context _ _ _ signer => some signer
  | _ => none

/-- The calls of a body: the statements before the context of each, and the variable that it is
signed with. -/
def callsAfter (before : List Stmt) : List Stmt → List (List Stmt × Option Text)
  | [] => []
  | s :: rest =>
    (s.signer?.map fun signer => (before, signer)).toList ++ callsAfter (before ++ [s]) rest

end Rust

/-- The seeds in front of a call are those of the array, in order, and the last is a bump and no
other one is. In a hygienic body they have the values of the elements when these are read in place
and nothing but the statements of the source is carried out before. -/
structure SignerSeedsKept (p : Program) (i : ResolvedInstruction) (body : List Rust.Stmt)
    (es : List Syntax.Expr) (before : List Rust.Stmt) (seeds : List Rust.Expr) : Prop where
  count : 1 ≤ es.length ∧ es.length ≤ 16
  emitted : seeds.length = es.length
  bump : seeds.map Rust.Expr.isSlice = List.replicate (es.length - 1) false ++ [true]
  values : ∃ front last xs x, es = front ++ [last] ∧
    List.Forall₂ (SignerSeed p i.source) front xs ∧ BumpSeed p i last x ∧
      (Rust.Hygienic i.source.identifiers body →
        ∀ {V : Type} (M : Nat → Rust.Semantics V) (env : Text → V),
          Rust.values M env before seeds =
            Rust.values M env (before.filter (·.isOwn i.source.identifiers)) (xs ++ [x]))

/-- A call signs with seeds exactly if it is written with an array of them, and they stand right
before its context. -/
inductive CallSeedsKept (p : Program) (i : ResolvedInstruction) (body : List Rust.Stmt) :
    Program.CallKind × List Syntax.Expr → List Rust.Stmt × Option Text → Prop
  | unsigned {k : Program.CallKind} {args : List Syntax.Expr} {before : List Rust.Stmt}
      (hArgs : args.drop (k.parties + 1) = []) : CallSeedsKept p i body (k, args) (before, none)
  | signed {k : Program.CallKind} {args : List Syntax.Expr} {before : List Rust.Stmt} {name : Text}
      {seeds : List Rust.Expr} {pos : SourcePos} {es : List Syntax.Expr}
      (hArgs : args.drop (k.parties + 1) = [.array pos es])
      (hSeeds : SignerSeedsKept p i body es before seeds) :
      CallSeedsKept p i body (k, args) (before ++ [.seeds name seeds], some name)

/-- The seeds of a method are kept: those of every derived account and of every call, in order. The
body is hygienic if no state account is named by a keyword. -/
structure SeedsKept (p : Program) (m : Syntax.MethodDecl) (e : EmittedInstruction) : Prop where
  address : ∀ s ∈ m.body, ∀ account es, s.derivedSeeds? = some (account, es) →
    AddressSeedsKept p e.instruction.source e.context e.description account es
  signer : List.Forall₂ (CallSeedsKept p e.instruction e.function.body)
    (m.body.filterMap (·.crossProgramCall?)) (Rust.callsAfter [] e.function.body)
  hygienic : e.instruction.source.PlainStates →
    Rust.Hygienic e.instruction.source.identifiers e.function.body

theorem signerSeed_of_standsFor {p : Program} {i : Instruction} {c : Program.BodyContext}
    {e : Syntax.Expr} {v : Value} {s : SeedSource} (h : Program.StandsFor c e v)
    (hSeed : IsSeed p i v s) : SignerSeed p i e (Handler.seedRead s) := by
  induction h with
  | string =>
    cases hSeed
    exact .literal
  | arg =>
    cases hSeed with
    | argument hType hForm => exact .argument hType hForm
  | key hPath =>
    cases hSeed with
    | key hAccount => exact .key hPath hAccount
  | field hPath hField =>
    cases hSeed with
    | field hType hForm => exact .field hPath hField hType hForm
  | toBytes _ hBytes ih => exact .toBytes (ih (hSeed.of_bytesOf? hBytes))
  | _ => cases hSeed

theorem IsBump.of_bytesOf? {p : Program} {i : Instruction} {locals : List (Text × ValueType)}
    {v w : Value} {b : BumpSource} (h : IsBump p i locals w b)
    (hBytes : Program.bytesOf? v = some w) : IsBump p i locals v b := by
  cases v <;> cases hBytes <;> cases h
  · exact .ofVar ‹_› ‹_›
  · exact .stored ‹_› ‹_›

theorem bumpSeed_of_standsFor {p : Program} {i : ResolvedInstruction} {c : Program.BodyContext}
    {e : Syntax.Expr} {v : Value} {b : BumpSource} (h : Program.StandsFor c e v)
    (hBump : IsBump p i.source i.locals v b) : BumpSeed p i e (Handler.seedRead (.bump b)) := by
  induction h with
  | field hPath =>
    cases hBump with
    | stored hType hByte => exact .stored hPath hType hByte
  | bump =>
    cases hBump with
    | computed hAccount => exact .computed hAccount
  | var =>
    cases hBump with
    | ofVar hVar hByte => exact .ofVar hVar hByte
  | toBytes _ hBytes ih => exact .toBytes (ih (hBump.of_bytesOf? hBytes))
  | _ => cases hBump

theorem isSlice_signerSeedList (used : List Text) (ss : List Seed) :
    (Handler.signerSeedList used ss).2.map Rust.Expr.isSlice = ss.map (·.source.isBump) := by
  have hBorrow : ∀ used source base t,
      (Handler.borrow used source base t).1.isSlice = false := by
    intro used source base t
    unfold Handler.borrow
    cases t.kind <;> rfl
  induction ss generalizing used with
  | nil => rfl
  | cons s rest ih =>
    obtain ⟨source, pos⟩ := s
    refine congrArg₂ List.cons ?_ (ih _)
    cases source with
    | literal | accountKey => rfl
    | bump b => cases b <;> rfl
    | stateField | argument => exact hBorrow _ _ _ _

/-- The optional array behind the amount of a call. -/
theorem signerSeeds_of_crossProgramCall {c : Program.BodyContext} {pos : SourcePos}
    {k : Program.CallKind} {args : List Syntax.Expr} {call : CrossProgramCall}
    (h : Program.crossProgramCall c pos k args = .ok call) :
    (args.drop (k.parties + 1) = [] ∧ call.signerSeeds = none) ∨
      ∃ apos es vs, args.drop (k.parties + 1) = [.array apos es] ∧ call.signerSeeds = some vs ∧
        List.Forall₂ (Program.StandsFor c) es vs := by
  obtain ⟨names, amount, rest, hDrop, hLength, _, _, _, hSeeds⟩ := Program.crossProgramCall_ok h
  have hRest : args.drop (k.parties + 1) = rest := by
    rw [← List.drop_drop, hDrop]
    rfl
  unfold Program.signerSeeds at hSeeds
  split at hSeeds
  · exact .inl ⟨hRest, (Except.ok.inj hSeeds).symm⟩
  · rename_i apos es more
    simp only [bind_eq_ok_iff, pure_eq_ok_iff] at hSeeds
    obtain ⟨vs, hvs, hSome⟩ := hSeeds
    obtain rfl : more = [] := List.length_eq_zero_iff.mp (by simpa using hLength)
    refine .inr ⟨apos, es, vs, hRest, hSome.symm, ?_⟩
    exact (mapM_eq_ok_iff.mp hvs).imp fun _ _ => Program.standsFor_of_valueOf
  · cases hSeeds

namespace Rust

theorem callsAfter_append (before body rest : List Stmt) :
    callsAfter before (body ++ rest) = callsAfter before body ++ callsAfter (before ++ body) rest := by
  induction body generalizing before with
  | nil => simp [callsAfter]
  | cons s body ih => simp [callsAfter, ih]

theorem callsAfter_eq_nil {body : List Stmt} (h : ∀ s ∈ body, s.signer? = none)
    (before : List Stmt) : callsAfter before body = [] := by
  induction body generalizing before with
  | nil => rfl
  | cons s body ih =>
    obtain ⟨hHere, hLater⟩ := List.forall_mem_cons.mp h
    rw [callsAfter, hHere, ih hLater]
    rfl

/-- What is bound for a call before its context. -/
def partsOf (i : Invocation) : List Stmt :=
  .record i.accountsName i.action.structName i.accounts :: (i.signer.map signerStmts).getD []

theorem callsAfter_invocation (before : List Stmt) (i : Invocation) :
    callsAfter before ((invocationStmts i).map Stmt.shown) =
      [(before ++ (partsOf i).map Stmt.shown, i.signer.map (·.name))] := by
  have hParts : ∀ s ∈ (partsOf i).map Stmt.shown, s.signer? = none := by
    refine List.forall_mem_map.mpr (List.forall_mem_cons.mpr ⟨rfl, fun s hs => ?_⟩)
    cases hSigner : i.signer with
    | none =>
      rw [hSigner] at hs
      cases hs
    | some signer =>
      rw [hSigner] at hs
      rcases List.mem_append.mp hs with hs | hs
      · obtain ⟨b, _, rfl⟩ := List.mem_map.mp hs
        rfl
      · cases List.mem_singleton.mp hs
        rfl
  have hSplit : invocationStmts i = partsOf i ++
      [.context i.contextName i.program i.accountsName (i.signer.map (·.name)),
        .invoke i.action.functionName i.contextName i.amount] := rfl
  rw [hSplit, List.map_append, callsAfter_append, callsAfter_eq_nil hParts]
  rfl

theorem callsAfter_stmtsOf (before : List Stmt) (u : HandlerStmt) :
    callsAfter before ((stmtsOf u).map Stmt.shown) =
      (u.invocation?.map fun i =>
        (before ++ (partsOf i).map Stmt.shown, i.signer.map (·.name))).toList := by
  cases u with
  | write | bind => rfl
  | invoke i => exact callsAfter_invocation before i

end Rust

section Signer

variable {p : Program} {r : ResolvedInstruction} {t : Handler} {names : Handler.Names}

/-- The seeds of a call and, before them, its buffers, among the statements that are read. -/
theorem partsOf_signed {inv : Invocation} {s : SignerSeeds} (hSigner : inv.signer = some s)
    (hBuffers : ∀ b ∈ s.buffers, b.value.Plain) :
    (Rust.partsOf inv).map Rust.Stmt.shown =
      [Rust.Stmt.record inv.accountsName inv.action.structName inv.accounts] ++
        SeedBuffer.stmts s.buffers ++ [Rust.Stmt.seeds s.name s.seeds] := by
  have hShown : (SeedBuffer.stmts s.buffers).map Rust.Stmt.shown = SeedBuffer.stmts s.buffers := by
    rw [SeedBuffer.stmts, List.map_map]
    refine List.map_congr_left fun b hb => ?_
    exact congrArg (Rust.Stmt.bind b.name false none) (hBuffers b hb).2
  rw [Rust.partsOf, hSigner]
  exact congrArg (_ :: ·) (List.map_append.trans (congrArg (· ++ _) hShown))

/-- The list of a call's seeds, from the sources that the array denotes. -/
theorem signerSeedsKept_of_endsInBump {c : Program.BodyContext} {body before : List Rust.Stmt}
    {es : List Syntax.Expr} {vs : List Value} {ss : List Seed} {used : List Text}
    (hStands : List.Forall₂ (Program.StandsFor c) es vs) (hLength : vs.length ≤ maxSeeds)
    (hEnds : EndsInBump p r.source r.locals vs (ss.map Seed.source))
    (hValues : Rust.Hygienic r.source.identifiers body →
      ∀ {V : Type} (M : Nat → Rust.Semantics V) (env : Text → V),
        Rust.values M env before (Handler.signerSeedList used ss).2 =
          Rust.values M env (before.filter (·.isOwn r.source.identifiers))
            (ss.map (Handler.seedRead ·.source))) :
    SignerSeedsKept p r body es before (Handler.signerSeedList used ss).2 := by
  obtain ⟨front, last, fronts, b, rfl, hss, hFront, hLast⟩ := hEnds
  have hFrontStands := List.forall₂_take_append es front [last] hStands
  obtain ⟨e, _, hLastStands, hNil, hDrop⟩ :=
    List.forall₂_cons_right_iff.mp (List.forall₂_drop_append es front [last] hStands)
  cases hNil
  have hes : es = es.take front.length ++ [e] := by
    rw [← hDrop, List.take_append_drop]
  have hCount : es.length = fronts.length + 1 := by
    rw [hStands.length_eq, List.length_append, hFront.length_eq]
    rfl
  have hPlain : ∀ s ∈ fronts, s.isBump = false := by
    intro s hs
    obtain ⟨v, _, hSeed⟩ := exists_of_mem_right hFront hs
    cases hSeed <;> rfl
  have hSlices : (Handler.signerSeedList used ss).2.map Rust.Expr.isSlice =
      List.replicate (es.length - 1) false ++ [true] := by
    have hBumps : ss.map (·.source.isBump) = (ss.map Seed.source).map SeedSource.isBump := by
      rw [List.map_map]
      rfl
    rw [isSlice_signerSeedList, hBumps, hss, List.map_append, hCount, Nat.add_sub_cancel,
      List.map_congr_left hPlain, List.map_const']
    rfl
  have hReads : ss.map (Handler.seedRead ·.source) =
      fronts.map Handler.seedRead ++ [Handler.seedRead (.bump b)] := by
    have hSources : ss.map (Handler.seedRead ·.source) =
        (ss.map Seed.source).map Handler.seedRead := by
      rw [List.map_map]
      rfl
    rw [hSources, hss, List.map_append]
    rfl
  refine ⟨⟨by omega, ?_⟩, ?_, hSlices, es.take front.length, e, fronts.map Handler.seedRead,
    Handler.seedRead (.bump b), hes, ?_, bumpSeed_of_standsFor hLastStands hLast, ?_⟩
  · rw [hStands.length_eq]
    exact hLength
  · have hEmitted := congrArg List.length hSlices
    rw [List.length_map, List.length_append, List.length_replicate, List.length_singleton]
      at hEmitted
    omega
  · rw [List.forall₂_map_right_iff]
    refine (forall₂_trans hFrontStands hFront).imp ?_
    rintro e' s ⟨v, hStands', hSeed⟩
    exact signerSeed_of_standsFor hStands' hSeed
  · rw [← hReads]
    exact hValues

/-- What a list of seeds with its last bump reads. -/
theorem readsOnly_of_endsInBump {vs : List Value} {ss : List Seed}
    (h : Resolution.resolveInstruction p r.source = .ok r)
    (hEnds : EndsInBump p r.source r.locals vs (ss.map Seed.source)) :
    ∀ s ∈ ss, (Handler.seedRead s.source).ReadsOnly
      (Handler.contextParam :: r.source.identifiers) := by
  obtain ⟨front, last, fronts, b, rfl, hss, hFront, hLast⟩ := hEnds
  intro s hs
  have hMem := List.mem_map_of_mem (f := Seed.source) hs
  rw [hss] at hMem
  rcases List.mem_append.mp hMem with hMem | hMem
  · obtain ⟨v, _, hSeed⟩ := exists_of_mem_right hFront hMem
    exact Handler.readsOnly_of_isSeed List.mem_cons_self (fun name t hType =>
      List.mem_cons_of_mem _ (Instruction.mem_identifiers_of_argType? hType)) hSeed
  · rw [List.mem_singleton.mp hMem]
    exact Handler.readsOnly_of_isBump List.mem_cons_self (fun l hl =>
      List.mem_cons_of_mem _ (Instruction.mem_identifiers_of_varNames
        (Resolution.mem_varNames h hl))) hLast

variable (hi : r.source ∈ p.instructions) (hNames : ∀ n ∈ p.declaredNames, IsName n)
  (hDistinct : r.source.DistinctParams)
  (hResolved : Resolution.resolveInstruction p r.source = .ok r)
  (hHandler : Handler.ofInstruction p r = .ok t)

include hi hNames hDistinct hResolved hHandler

theorem respects_printed (h : Rust.Hygienic r.source.identifiers (Rust.printed t.body)) :
    ∀ s ∈ Rust.printed t.body, s.Respects r.source.identifiers := by
  intro s hs
  refine ⟨?_, h.apart s hs⟩
  rintro name isMutable type value rfl hOwn
  cases Handler.sourced_printed hi hNames hDistinct hResolved hHandler _ hs with
  | body hMem hBecomes =>
    cases hBecomes with
    | bind hValue =>
      exact (Handler.ofValues_of_expresses hResolved hMem List.mem_cons_self hValue).readsOnly
  | buffer hOther => exact absurd hOwn hOther
  | handle hHandle => cases hHandle

/-- What a hygienic body evaluates the seeds of a call to. -/
theorem values_of_hygienic (h : Rust.Hygienic r.source.identifiers (Rust.printed t.body))
    {inv : Invocation} (hInv : .invoke inv ∈ t.body) {before : List Rust.Stmt}
    (hBody : before <+: Rust.printed t.body) {used : List Text} {ss : List Seed} {name : Text}
    (hSigner : inv.signer = some
      ⟨name, (Handler.signerSeedList used ss).1, (Handler.signerSeedList used ss).2⟩)
    (hReads : ∀ s ∈ ss, (Handler.seedRead s.source).ReadsOnly
      (Handler.contextParam :: r.source.identifiers))
    {V : Type} (M : Nat → Rust.Semantics V) (env : Text → V) :
    Rust.values M env (before ++ SeedBuffer.stmts (Handler.signerSeedList used ss).1)
        (Handler.signerSeedList used ss).2 =
      Rust.values M env
        ((before ++ SeedBuffer.stmts (Handler.signerSeedList used ss).1).filter
          (·.isOwn r.source.identifiers)) (ss.map (Handler.seedRead ·.source)) := by
  have hMem : inv ∈ t.invocations := List.mem_filterMap.mpr ⟨_, hInv, rfl⟩
  have hBuffers : inv.bufferNames = (Handler.signerSeedList used ss).1.map (·.name) := by
    rw [Invocation.bufferNames, hSigner]
  have hGenerated : ∀ b ∈ (Handler.signerSeedList used ss).1, b.name ∈ t.bufferNames := by
    intro b hb
    refine List.mem_flatMap.mpr ⟨inv, hMem, ?_⟩
    rw [hBuffers]
    exact List.mem_map_of_mem hb
  have hOther : ∀ g ∈ t.bufferNames, g ∉ r.source.identifiers := fun g hg =>
    Handler.not_mem_identifiers hi hNames hDistinct hResolved hHandler
      (Handler.bufferNames_subset t hg)
  have hBefore : ∀ s ∈ before, s.Respects r.source.identifiers := fun s hs =>
    respects_printed hi hNames hDistinct hResolved hHandler h s (hBody.subset hs)
  refine Handler.values_signerSeedList M env hBefore hReads
    (fun b hb => hOther _ (hGenerated b hb)) ?_ ?_
  · intro b hb
    refine h.apart (.bind b.name false none b.value.shown) ?_ b.name rfl
      (hOther _ (hGenerated b hb))
    refine List.mem_map.mpr ⟨.bind b.name false none b.value, ?_, rfl⟩
    refine List.mem_flatMap.mpr ⟨_, hInv, List.mem_cons_of_mem _ (List.mem_append_left _ ?_)⟩
    rw [hSigner]
    exact List.mem_append_left _ (List.mem_map_of_mem hb)
  · have hAll := h.buffers
    rw [Handler.filter_let?_printed (fun g hg => Handler.mem_identifiers_of_boundName?
      (Handler.sourceNames_eq hHandler) hg) hOther, List.map_flatMap] at hAll
    have hHere := (List.nodup_flatMap.mp hAll).1 inv hMem
    rwa [hBuffers, List.map_map] at hHere

theorem callSeedsKept_of_carriedOut {c : Program.BodyContext} {s : Syntax.Statement}
    {u : HandlerStmt} (hu : u ∈ t.body) {before after : List Rust.Stmt}
    (hBody : Rust.printed t.body = before ++ ((Rust.stmtsOf u).map Rust.Stmt.shown ++ after))
    (hCarried : Handler.CarriedOut c ⟨p, r⟩ names s u) :
    Option.Rel (fun k inv => CallSeedsKept p r (Rust.printed t.body) k
        (before ++ (Rust.partsOf inv).map Rust.Stmt.shown, inv.signer.map (·.name)))
      s.crossProgramCall? u.invocation? := by
  obtain ⟨st, index, hExtracts, hIndex, hTranslates⟩ := hCarried
  cases hTranslates with
  | write =>
    cases hExtracts
    exact .none
  | bind =>
    cases hExtracts
    exact .none
  | @invoke generated bound pos call inv hInvocation =>
    cases hExtracts with
    | @call _ _ _ _ _ k args _ hKind hCall =>
      have hSigner := Handler.signer_of_invocation hInvocation
      rw [Syntax.Statement.crossProgramCall?, hKind]
      refine .some ?_
      rcases signerSeeds_of_crossProgramCall hCall with ⟨hArgs, hNone⟩ |
        ⟨apos, es, vs, hArgs, hSome, hStands⟩
      · rw [hNone] at hSigner
        rw [hSigner]
        exact .unsigned hArgs
      · obtain ⟨hLength, ss, hSeeds, hEnds⟩ :=
          Resolution.signerSeeds_of_getElem? hDistinct hResolved hIndex hSome
        have hWords := Handler.isName_of_seedsAt? hi hNames hDistinct hResolved hIndex hSome
        rw [hSeeds, Option.getD_some] at hWords
        rw [hSome, Option.map_some] at hSigner
        simp only [hSeeds, Option.getD_some] at hSigner
        obtain ⟨hPlain, _⟩ :=
          Handler.spelled_signerSeedList (generated ++ names.map Prod.fst) hWords
        rw [partsOf_signed hSigner fun b hb => (hPlain b hb).2, hSigner, Option.map_some,
          ← List.append_assoc, ← List.append_assoc]
        refine .signed hArgs (signerSeedsKept_of_endsInBump hStands hLength hEnds ?_)
        intro hHygienic V M env
        refine values_of_hygienic hi hNames hDistinct hResolved hHandler hHygienic hu
          ⟨(Rust.invocationStmts inv).tail.map Rust.Stmt.shown ++ after, ?_⟩ hSigner
          (readsOnly_of_endsInBump hResolved hEnds) M env
        rw [hBody, List.append_assoc]
        rfl

/-- The calls of a body are those of the method, by induction on the statements. -/
theorem callSeedsKept_of_forall₂ {c : Program.BodyContext} {ss : List Syntax.Statement}
    {done ts : List HandlerStmt} (hBody : t.body = done ++ ts)
    (h : List.Forall₂ (Handler.CarriedOut c ⟨p, r⟩ names) ss ts) :
    List.Forall₂ (CallSeedsKept p r (Rust.printed t.body)) (ss.filterMap (·.crossProgramCall?))
      (Rust.callsAfter (Rust.printed done) (Rust.printed ts)) := by
  induction h generalizing done with
  | nil => exact .nil
  | @cons s u ss ts hHere _ ih =>
    have hNext : t.body = (done ++ [u]) ++ ts := by
      rw [hBody, List.append_assoc, List.singleton_append]
    have hu : u ∈ t.body := by
      rw [hBody]
      exact List.mem_append_right done List.mem_cons_self
    have hPrinted : Rust.printed t.body =
        Rust.printed done ++ ((Rust.stmtsOf u).map Rust.Stmt.shown ++ Rust.printed ts) := by
      rw [hBody, Rust.printed_append, Rust.printed_cons]
    have hDone : Rust.printed (done ++ [u]) =
        Rust.printed done ++ (Rust.stmtsOf u).map Rust.Stmt.shown := by
      rw [Rust.printed_append, Rust.printed_cons]
      exact congrArg _ (List.append_nil _)
    have hCall := callSeedsKept_of_carriedOut hi hNames hDistinct hResolved hHandler hu hPrinted
      hHere
    have hLater := ih hNext
    rw [hDone] at hLater
    rw [Rust.printed_cons, Rust.callsAfter_append, Rust.callsAfter_stmtsOf, List.filterMap_cons]
    generalize s.crossProgramCall? = written at hCall ⊢
    generalize u.invocation? = carried at hCall ⊢
    cases hCall with
    | none => exact hLater
    | some hKept => exact .cons hKept hLater

end Signer

theorem filterMap_crossProgramCall? (body : List Syntax.Statement) :
    (body.filter (·.isCarriedOut)).filterMap (·.crossProgramCall?) =
      body.filterMap (·.crossProgramCall?) := by
  rw [List.filterMap_filter]
  refine List.filterMap_congr fun s _ => ?_
  split
  · rfl
  · rename_i hNot
    exact (Handler.crossProgramCall?_eq_none (by simpa using hNot)).symm

theorem seedsKept_of_translated {o : CompileOptions} {file : Text} {p : Program}
    {m : Syntax.MethodDecl} {it : ResolvedInstruction × Handler}
    (hi : it.1.source ∈ p.instructions) (hNames : ∀ n ∈ p.declaredNames, IsName n)
    (h : Translated o file p m it.1 it.2) : SeedsKept p m (.ofPair p.programId it) := by
  obtain ⟨r, t⟩ := it
  have hDistinct := h.extracted.params
  obtain ⟨names, hCarried⟩ := h.carriedOut
  constructor
  · intro s hs account es hSeeds
    have hMem : s ∈ m.body.filter (!·.isReturn) := by
      refine List.mem_filter.mpr ⟨hs, ?_⟩
      cases s <;> first | rfl | cases hSeeds
    obtain ⟨st, hst, hStatement⟩ := exists_of_mem_left h.extracted.body hMem
    exact addressSeedsKept_of_extracts hDistinct h.resolved h.handler hStatement hst hSeeds
  · rw [← filterMap_crossProgramCall?]
    exact callSeedsKept_of_forall₂ hi hNames hDistinct h.resolved h.handler (List.nil_append _).symm
      hCarried
  · intro hStates
    have hApart := Handler.namesApart_of_ofInstruction hi hNames hDistinct h.resolved h.handler
    exact Handler.hygienic_printed (Handler.sourceNames_eq h.handler) hApart
      (hApart.hygienic hStates)

/-- Compilation keeps every seed: the methods of the source correspond one to one to what is read in
the emitted texts, a context struct, a function and a description for each, with the seeds of the
method. -/
theorem compile_seedsKept {o : CompileOptions} {name src : Text} {out : CompileOutput}
    (h : compile o name src = .ok out) :
    ∃ f cls r s d es, Syntax.parse name src = .ok f ∧ Program.programClass name f.classes = .ok cls ∧
      resolveSource o name src = .ok r ∧ Rust.readSource out.rust = some s ∧
      (∀ t, out.interface = some t → Interface.readDescription t = some d) ∧
      EmittedFor r s d es ∧ List.Forall₂ (SeedsKept r.source) cls.methods es := by
  obtain ⟨r, hs, s, d, hResolved, hHandlers, hRead, hDescribed, hEmitted⟩ := compile_emitted h
  obtain ⟨f, cls, hParsed, hClass, -, hTranslated⟩ := translated_of_handlers hResolved hHandlers
  obtain ⟨p, hExtracted, hp⟩ := bind_eq_ok_iff.mp hResolved
  obtain ⟨rfl, _⟩ := Program.resolve_eq_ok_iff.mp hp
  refine ⟨f, cls, r, s, d, _, hParsed, hClass, hResolved, hRead, hDescribed, hEmitted, ?_⟩
  rw [List.forall₂_map_right_iff]
  refine (forall₂_imp_of_mem hTranslated.flip fun it hit m hMethod => ?_).flip
  exact seedsKept_of_translated (Program.resolved_of_mem hp (List.of_mem_zip hit).1).1
    (extractProgram_isName hExtracted) hMethod

/-- Two methods whose calls sign with a field and an argument, in the second of a state account that
is named by a keyword. -/
def markedSeedSource : Text := Text.join "\n" [
  "export default class P \x7b",
  "static PROGRAM_ID = new Pubkey('11111111111111111111111111111111')",
  "plain(state: S, v: SystemAccount, stateAmount: u64) \x7b",
  "v.derive(['v', state.amount])",
  "SystemProgram.transfer(v, v, 1, ['v', state.amount, stateAmount, v.getBump()])",
  "\x7d",
  "marked(type: S, v: SystemAccount, typeAmount: u64) \x7b",
  "v.derive(['v', type.amount])",
  "SystemProgram.transfer(v, v, 1, ['v', type.amount, typeAmount, v.getBump()])",
  "\x7d\x7d",
  "interface S extends Account \x7b amount: u64 \x7d"]

/-- A method of the source derives from seeds and signs a call. -/
def derivesAndCalls (f : Syntax.File) : Bool :=
  f.classes.any fun cls => cls.methods.any fun m =>
    m.body.any (·.derivedSeeds?.isSome) && m.body.any (·.crossProgramCall?.isSome)

/-- Whether state accounts are named by keywords, and whether buffers are one to Rust. -/
def seedNames (i : ResolvedInstruction) (f : Rust.Function) : Bool × Bool :=
  (i.source.params.any fun q => Rust.keywords.contains (Rust.snakeCase q.name),
    decide ((((f.body.filterMap Rust.Stmt.let?).filter
      (!i.source.identifiers.contains ·)).map Rust.bare).Nodup))

theorem markedSeedSource_seedsKept : ∃ out, compile {} "p.ts" markedSeedSource = .ok out ∧
    ∃ f cls r s d es, Syntax.parse "p.ts" markedSeedSource = .ok f ∧ derivesAndCalls f = true ∧
      Program.programClass "p.ts" f.classes = .ok cls ∧
      resolveSource {} "p.ts" markedSeedSource = .ok r ∧ Rust.readSource out.rust = some s ∧
      (∀ t, out.interface = some t → Interface.readDescription t = some d) ∧
      EmittedFor r s d es ∧ List.Forall₂ (SeedsKept r.source) cls.methods es ∧
      (∃ e ∈ es, Rust.Hygienic e.instruction.source.identifiers e.function.body) ∧
      ∃ e ∈ es, ¬Rust.Hygienic e.instruction.source.identifiers e.function.body := by
  obtain ⟨out, hOut, _⟩ := exists_ok_of_any (x := compile {} "p.ts" markedSeedSource)
    (fun out => !out.rust.isEmpty) (by
      simp (disch := rfl) only [markedSeedSource, Text.ofString_literal]
      decide +kernel)
  obtain ⟨f', hf', hMethods⟩ := exists_ok_of_any (x := Syntax.parse "p.ts" markedSeedSource)
    derivesAndCalls (by
      simp (disch := rfl) only [markedSeedSource, Text.ofString_literal]
      decide +kernel)
  obtain ⟨r', hr', hNames⟩ := exists_ok_of_any (x := resolveSource {} "p.ts" markedSeedSource)
    (fun r => r.handlers.toOption.any fun hs => List.zipWith seedNames r.instructions
      (hs.map Rust.Function.ofHandler) == [(false, true), (true, false)]) (by
      simp (disch := rfl) only [markedSeedSource, Text.ofString_literal]
      decide +kernel)
  obtain ⟨hs', hHandlers', hNames⟩ := exists_ok_of_any _ hNames
  obtain ⟨f, cls, r, s, d, es, hf, hClass, hr, hRead, hDescribed, hEmitted, hKept⟩ :=
    compile_seedsKept hOut
  obtain rfl : f' = f := Except.ok.inj (hf'.symm.trans hf)
  obtain rfl : r' = r := Except.ok.inj (hr'.symm.trans hr)
  have hEach := (map_of_handlers hOut hr hHandlers' hRead hEmitted seedNames).trans
    (beq_iff_eq.mp hNames)
  obtain ⟨plain, rest, rfl, hPlain, hRest⟩ := List.map_eq_cons_iff.mp hEach
  obtain ⟨marked, _, rfl, hMarked, _⟩ := List.map_eq_cons_iff.mp hRest
  refine ⟨out, hOut, f', cls, r', s, d, _, hf, hMethods, hClass, hr, hRead, hDescribed, hEmitted,
    hKept, ⟨plain, List.mem_cons_self, ?_⟩, marked, List.mem_cons_of_mem _ List.mem_cons_self, ?_⟩
  · obtain ⟨m, _, hMethod⟩ := exists_of_mem_right hKept List.mem_cons_self
    refine hMethod.hygienic fun q hq n _ hKeyword => ?_
    have hNone := (Prod.mk.inj hPlain).1
    simpa [hKeyword] using List.any_eq_false.mp hNone q hq
  · intro hHygienic
    exact of_decide_eq_false (Prod.mk.inj hMarked).2 hHygienic.buffers
end AnchorScript
