import AnchorScript.Proofs.Syntax.CursorReading

/-!
# Reading ends

Nothing bounds the loops of a cursor, and yet each of them ends: a round behind which a loop goes on
has taken a token. Every part of a file is read to a value behind at least one token or to exactly
one fault, and a whole file as the readers of token sequences read it.
-/

namespace AnchorScript.Syntax

open AnchorScript.Syntax.Parser (Reader Infix result startsPostfix)

namespace Cursor

variable {α β σ : Type} {s : Cursor} {m : Reads α} {f : α → Reads β}

/-- The computation ends. It succeeds behind the tokens `taken`, with a value as `Q` says, or it
fails and has found one fault. -/
inductive Ends (Q : α → List Token → Prop) (m : Reads α) (s : Cursor) : Prop
  | done {a : α} {s' : Cursor} {taken : List Token} (hRun : runFrom m s = some (some a, s'))
      (hSound : s'.Sound) (hTokens : s.tokens = taken ++ s'.tokens) (h : Q a taken)
  | refused {s' : Cursor} {e : Parser.Failure} (hRun : runFrom m s = some (none, s'))
      (hFault : s'.Faulted e)

namespace Ends

variable {P Q : α → List Token → Prop} {R : β → List Token → Prop}

theorem mono (h : Ends P m s) (hImp : ∀ a taken, P a taken → Q a taken) : Ends Q m s := by
  cases h with
  | done hRun hSound hTokens hP => exact .done hRun hSound hTokens (hImp _ _ hP)
  | refused hRun hFault => exact .refused hRun hFault

theorem of_run {m' : Reads α} (h : Ends Q m' s) (hRun : runFrom m s = runFrom m' s) :
    Ends Q m s := by
  cases h with
  | done hRun' hSound hTokens hQ => exact .done (hRun.trans hRun') hSound hTokens hQ
  | refused hRun' hFault => exact .refused (hRun.trans hRun') hFault

theorem bind (h : Ends Q m s)
    (hNext : ∀ a taken s', Q a taken → s'.Sound →
      Ends (fun b more => R b (taken ++ more)) (f a) s') :
    Ends R (m >>= f) s := by
  cases h with
  | refused hRun hFault => exact .refused (runFrom_bind_of_none hRun) hFault
  | done hRun hSound hTokens hQ =>
    cases hNext _ _ _ hQ hSound with
    | refused hRun' hFault => exact .refused ((runFrom_bind_of_some hRun).trans hRun') hFault
    | done hRun' hSound' hTokens' hR =>
      refine .done ((runFrom_bind_of_some hRun).trans hRun') hSound' ?_ hR
      rw [hTokens, hTokens', List.append_assoc]

/-- Once a token is taken, the rest has only to end. -/
theorem bind_taking (h : Ends (fun _ taken => taken ≠ []) m s)
    (hNext : ∀ a s', s'.Sound → Ends (fun _ _ => True) (f a) s') :
    Ends (fun _ taken => taken ≠ []) (m >>= f) s :=
  h.bind fun a _ s' hTaken hSound => (hNext a s' hSound).mono fun _ more _ =>
    List.append_ne_nil_of_left_ne_nil hTaken more

theorem of_tracks {n : Nat} {x : Reader α n} (h : Tracks m s (result x)) :
    Ends (fun _ taken => s.tokens.length < n + taken.length) m s := by
  cases x with
  | error e =>
    rcases h with _ | ⟨hRun, hFault⟩
    exact .refused hRun hFault
  | ok p =>
    obtain ⟨a, s', hLess, hSound, ⟨taken, hTaken⟩, hRun, -⟩ := h.exists_of_ok
    refine .done hRun hSound hTaken.symm ?_
    rw [← hTaken, List.length_append]
    omega

/-- A reader that leaves fewer tokens than there were has taken one. -/
theorem taking {x : Reader α s.tokens.length} (h : Tracks m s (result x)) :
    Ends (fun _ taken => taken ≠ []) m s := by
  refine (of_tracks h).mono fun _ taken hLess => ?_
  rintro rfl
  exact Nat.lt_irrefl _ hLess

theorem anyway (h : Ends Q m s) : Ends (fun _ _ => True) m s := h.mono fun _ _ _ => trivial

theorem pure {a : α} (h : s.Sound) (hQ : Q a []) : Ends Q (Pure.pure a) s :=
  .done (runFrom_pure a s) h (List.nil_append _).symm hQ

theorem refuse (h : s.Sound) (message : Text) : Ends Q (Cursor.refuse s.current message) s :=
  .refused (runFrom_refuse _ message s) (h.record message)

theorem current?_bind {g : Token → Reads β} (h : Ends R (g s.current) s) :
    Ends R (current? >>= g) s :=
  h.of_run (runFrom_current?_bind g s)

theorem ite {p : Prop} [Decidable p] {m' : Reads α} (hThen : p → Ends Q m s)
    (hElse : ¬p → Ends Q m' s) : Ends Q (if p then m else m') s := by
  by_cases hp : p
  · rw [if_pos hp]
    exact hThen hp
  · rw [if_neg hp]
    exact hElse hp

theorem next (h : s.Sound) (hPass : passes s.current.kind = true) :
    Ends (fun _ taken => taken ≠ []) Cursor.next s := by
  have hTokens : s.tokens = [s.current] ++ s.advance.tokens := by
    rw [h.tokens_advance hPass]
    rfl
  exact .done rfl (h.advance hPass) hTokens (List.cons_ne_nil _ _)

theorem skip?_bind {kind : TokenKind} {g : Bool → Reads β} (h : s.Sound)
    (hPass : passes kind = true)
    (hSkip : ∀ s' : Cursor, s'.Sound → Ends (fun _ _ => True) (g true) s')
    (hStay : Ends (fun _ taken => taken ≠ []) (g false) s) :
    Ends (fun _ taken => taken ≠ []) (skip? kind >>= g) s := by
  by_cases hKind : s.current.kind = kind
  · have hNext : Ends (fun _ taken => taken ≠ []) (Cursor.next >>= fun _ => g true) s :=
      bind_taking (next h (passes_of_eq hKind hPass)) fun _ => hSkip
    refine hNext.of_run ?_
    rw [runFrom_next_bind]
    exact runFrom_bind_of_some ((runFrom_skip? ..).trans (if_pos hKind))
  · exact hStay.of_run (runFrom_bind_of_some ((runFrom_skip? ..).trans (if_neg hKind)))

end Ends

/-- The parts that are read on their own. A postfix or the declaration of a variable is read only
where the token in hand begins one, and the end of the input is never asked for. -/
inductive Part (s : Cursor) : {α : Type} → Reads α → Prop
  | importDecl : Part s importDecl
  | classDecl (isExported isDefault : Bool) : Part s (classDecl isExported isDefault)
  | member : Part s member
  | method (name : Token) : Part s (method name)
  | params : Part s params
  | field (what : Text) : Part s (field what)
  | typeRef : Part s typeRef
  | interfaceDecl (isExported : Bool) : Part s (interfaceDecl isExported)
  | block (what : Text) : Part s (block what)
  | statement : Part s statement
  | binding (kind : BindingKind)
      (hWord : s.current.kind = .keyword .kwConst ∨ s.current.kind = .keyword .kwLet) :
      Part s (binding kind)
  | expression : Part s expression
  | exprAt (min : Nat) : Part s (exprAt min)
  | prefixExpr : Part s prefixExpr
  | postfixExpr (left : Expr) (hStart : startsPostfix s.current = true) : Part s (postfixExpr left)
  | exprsUntil (closing : Punct) (what : Text) : Part s (exprsUntil closing what)
  | token (kind : TokenKind) (hPass : passes kind = true) (message : Text) :
      Part s (take kind message)
  | name (message : Text) : Part s (takeIf Token.isName message)

theorem exprAt_ends (min : Nat) (h : s.Sound) :
    Ends (fun _ taken => taken ≠ []) (exprAt min) s := by
  by_cases hMin : min ≤ 9
  · exact .taking (exprAt_tracks hMin s h)
  · rw [exprAt_eq, exprOf]
    refine .bind_taking (.taking (prefixExpr_tracks s h)) fun left s₁ h => ?_
    -- Above the level of the postfixes nothing extends the expression.
    have hStop : runFrom (rounds (exprRound min) left) s₁ = some (some left, s₁) := by
      refine runFrom_exprRounds_stop (fun _ => Nat.lt_of_not_le hMin) fun i _ => ?_
      have hLevel := i.level_le
      omega
    exact .done hStop h (List.nil_append _).symm trivial

theorem Part.ends (h : s.Sound) (hPart : Part s m) : Ends (fun _ taken => taken ≠ []) m s := by
  cases hPart with
  | importDecl => exact .taking (importDecl_tracks h)
  | classDecl isExported isDefault => exact .taking (classDecl_tracks isExported isDefault h)
  | member => exact .taking (member_tracks h)
  | method name => exact .taking (method_tracks name h)
  | params => exact .taking (params_tracks h)
  | field what => exact .taking (field_tracks what h)
  | typeRef => exact .taking (typeRef_tracks h)
  | interfaceDecl isExported => exact .taking (interfaceDecl_tracks isExported h)
  | block what => exact .taking (block_tracks what h)
  | statement => exact .taking (statement_tracks h)
  | binding kind hWord =>
    have hPass : passes s.current.kind = true := by
      rcases hWord with hKind | hKind <;> exact passes_of_eq hKind rfl
    have hShorter := h.length_advance hPass
    refine (Ends.of_tracks (binding_tracks kind h hPass)).mono fun _ taken hLess => ?_
    rintro rfl
    rw [List.length_nil] at hLess
    omega
  | expression => exact exprAt_ends _ h
  | exprAt min => exact exprAt_ends min h
  | prefixExpr => exact .taking (prefixExpr_tracks s h)
  | postfixExpr left hStart => exact .taking (postfixExpr_tracks left s h hStart)
  | exprsUntil closing what => exact .taking (exprsUntil_tracks closing what s h)
  | token kind hPass message => exact .taking (.take hPass message h)
  | name message => exact .taking (.takeIf (fun _ => passes_of_isName) message h)

/-- The rounds of the loops, behind what they have collected. -/
inductive Round : {σ β : Type} → Reads (σ ⊕ β) → Prop
  | imports (ds : List ImportDecl) : Round (importRound ds)
  | declarations (ds : List Parser.Declaration) : Round (declarationRound ds)
  | importedNames (names : List Token) :
      Round (itemRound .rbrace (take .ident "expected imported name") names)
  | members (ms : List Parser.Member) : Round (memberRound ms)
  | params (ps : List FieldDecl) : Round (itemRound .rparen (field "parameter") ps)
  | fields (fs : List FieldDecl) : Round (fieldRound fs)
  | statements (what : Text) (ss : List Statement) : Round (statementRound what ss)
  | expression (min : Nat) (left : Expr) : Round (exprRound min left)
  | expressions (closing : Punct) (es : List Expr) :
      Round (itemRound closing (exprAt Parser.anyLevel) es)

/-- If the round gives a value to go on with, a token was taken. -/
def Advances (x : σ ⊕ β) (taken : List Token) : Prop := x.isLeft = true → taken ≠ []

namespace Ends

theorem onward {m : Reads (σ ⊕ β)} (h : Ends (fun _ taken => taken ≠ []) m s) :
    Ends Advances m s :=
  h.mono fun _ _ hTaken _ => hTaken

theorem leave (b : β) (h : s.Sound) : Ends Advances (Pure.pure (.inr b) : Reads (σ ⊕ β)) s :=
  .pure h nofun

theorem item {item : Reads α} (closing : Punct) (as : List α) (h : s.Sound)
    (hItem : Ends (fun _ taken => taken ≠ []) item s) :
    Ends Advances (itemRound closing item as) s := by
  refine .current?_bind (.ite (fun _ => leave _ h) fun _ => onward (.bind_taking hItem ?_))
  intro a s₁ h
  refine (Ends.of_tracks (.skip? (.punct .comma) rfl h)).bind fun more _ s₂ _ h => ?_
  exact .ite (fun _ => .pure h trivial) fun _ => .pure h trivial

end Ends

theorem Round.ends {m : Reads (σ ⊕ β)} (h : s.Sound) (hRound : Round m) : Ends Advances m s := by
  cases hRound with
  | imports ds =>
    refine .current?_bind (.ite (fun _ => .onward ?_) fun _ => .leave _ h)
    exact .bind_taking (.taking (importDecl_tracks h)) fun d s₁ h => .pure h trivial
  | declarations ds =>
    refine .current?_bind (.ite (fun _ => .leave _ h) fun _ => .onward ?_)
    refine .skip?_bind h rfl (fun s₁ h => .pure h trivial) ?_
    exact .bind_taking (.taking (declaration_tracks h)) fun d s₁ h => .pure h trivial
  | importedNames names => exact .item _ _ h (.taking (.take rfl _ h))
  | members ms =>
    refine .current?_bind (.ite (fun _ => .leave _ h) fun _ => .onward ?_)
    refine .skip?_bind h rfl (fun s₁ h => .pure h trivial) ?_
    exact .bind_taking (.taking (member_tracks h)) fun m s₁ h => .pure h trivial
  | params ps => exact .item _ _ h (.taking (field_tracks _ h))
  | fields fs =>
    refine .current?_bind (.ite (fun _ => .leave _ h) fun _ => .onward ?_)
    refine .bind_taking (.taking (field_tracks _ h)) fun f s₁ h => ?_
    exact (Ends.of_tracks (endOfField_tracks f.name h)).bind fun _ _ s₂ _ h => .pure h trivial
  | statements what ss =>
    refine .current?_bind (.ite (fun _ => .leave _ h) fun _ => ?_)
    refine .ite (fun _ => .refuse h _) fun _ => .onward ?_
    refine .skip?_bind h rfl (fun s₁ h => .pure h trivial) ?_
    exact .bind_taking (.taking (statement_tracks h)) fun a s₁ h => .pure h trivial
  | expression min left =>
    rw [exprRound]
    refine .current?_bind ?_
    split
    · rename_i hStart
      refine .ite (fun _ => .leave _ h) fun _ => .onward ?_
      exact .bind_taking (.taking (postfixExpr_tracks left s h hStart)) fun e s₁ h =>
        .pure h trivial
    · cases hInfix : Infix.ofKind? s.current.kind with
      | none => exact .leave _ h
      | some i =>
        refine .ite (fun _ => .leave _ h) fun _ => .onward ?_
        refine .bind_taking (.next h (passes_of_some rfl rfl hInfix)) fun _ s₁ h => ?_
        exact .anyway (.bind_taking (exprAt_ends _ h) fun right s₂ h => .pure h trivial)
  | expressions closing es => exact .item _ _ h (exprAt_ends _ h)

end Cursor

open Cursor

/-- Reading any source ends, with its tree or with one fault, and that is what `parse` and
`isIncomplete` tell of it. From any cursor that has met no fault before its token, every part ends
behind at least one token or with one fault, and so does the end of a statement, which may take
none. No loop goes on behind a round that has taken no token. -/
theorem parsing_ends :
    (∀ name src, ∃ r s, runFrom file (start src) = some (r, s) ∧ isIncomplete src = s.waits ∧
      match r with
      | some tree => s.faults = [] ∧ parse name src = .ok tree
      | none => ∃ e, s.faults = [e] ∧ parse name src = .error (e.diagnostic name)) ∧
    (∀ src, (start src).Sound ∧ (start src).tokens = AnchorScript.tokens src) ∧
    ∀ s : Cursor, s.Sound →
      (∀ {α : Type} (m : Cursor.Reads α), Part s m → Ends (fun _ taken => taken ≠ []) m s) ∧
      (∀ what, Ends (fun _ _ => True) (endOfStatement what) s) ∧
      ∀ {σ β : Type} (m : Cursor.Reads (σ ⊕ β)), Round m → Ends Advances m s := by
  refine ⟨fun name src => ?_, fun src => ⟨start_sound src, tokens_scanned .start src⟩,
    fun s h => ⟨fun _ => Part.ends h, fun what => ?_, fun _ => Round.ends h⟩⟩
  · have hFile := file_finishes (start_sound src)
    rw [start, tokens_scanned] at hFile
    rw [parse, isIncomplete, AnchorScript.tokens]
    cases hResult : Parser.file (Lexer.tokensFrom .start src) with
    | ok tree =>
      rw [hResult] at hFile
      rcases hFile with ⟨hRun, hSound, hEnd⟩ | _
      obtain ⟨hFaults, hWaits⟩ := hSound.faultless (by rw [Token.isOpenComment, hEnd]; rfl)
      exact ⟨some tree, _, hRun, hWaits.symm, hFaults, rfl⟩
    | error e =>
      rw [hResult] at hFile
      rcases hFile with _ | ⟨hRun, hFaults, hWaits⟩
      exact ⟨none, _, hRun, hWaits.symm, e, hFaults, rfl⟩
  · exact .anyway (.of_tracks (.endOfStatement what h))

/-- The source breaks off in a comment behind a statement. -/
def unfinishedSource : Text := "class A \x7b go() \x7b let x = f(1) /*"

theorem unfinishedSource_ends :
    (∃ s e, runFrom file (start unfinishedSource) = some (none, s) ∧ s.faults = [e] ∧
      s.waits = true) ∧
    (start unfinishedSource).Sound ∧
    Ends (fun _ taken => taken ≠ []) (classDecl false false) (start unfinishedSource) ∧
    Ends Advances (declarationRound []) (start unfinishedSource) ∧
    (start (unfinishedSource.drop 17)).Sound ∧
    (start (unfinishedSource.drop 17)).current.kind = .keyword .kwLet ∧
    Ends (fun _ taken => taken ≠ []) (binding .letting) (start (unfinishedSource.drop 17)) := by
  obtain ⟨hFiles, hStart, hParts⟩ := parsing_ends
  obtain ⟨hSound, _⟩ := hStart unfinishedSource
  obtain ⟨hSound', _⟩ := hStart (unfinishedSource.drop 17)
  have hWord : (start (unfinishedSource.drop 17)).current.kind = .keyword .kwLet := by
    decide +kernel
  have hBroken : isIncomplete unfinishedSource = true := by decide +kernel
  refine ⟨?_, hSound, (hParts _ hSound).1 _ (.classDecl false false),
    (hParts _ hSound).2.2 _ (.declarations []), hSound', hWord,
    (hParts _ hSound').1 _ (.binding .letting (.inr hWord))⟩
  obtain ⟨r, s, hRun, hWaits, hResult⟩ := hFiles "p.ts" unfinishedSource
  rw [hBroken] at hWaits
  cases r with
  | some tree =>
    have hRefused : (parse "p.ts" unfinishedSource).isOk = false := by decide +kernel
    rw [hResult.2] at hRefused
    cases hRefused
  | none =>
    obtain ⟨e, hFaults, _⟩ := hResult
    exact ⟨s, e, hRun, hFaults, hWaits.symm⟩

end AnchorScript.Syntax
