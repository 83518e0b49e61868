import AnchorScript.Proofs.Program.ProgramId
import AnchorScript.Proofs.Rust.PrintedStructs
import AnchorScript.Proofs.Token.Scanning

/-!
# Printed programs are read back

A statement is read with the semicolon behind it, a function with its statements, and a program with
all that it prints.
-/

namespace AnchorScript.Rust

open Reader

variable {α β : Type}

/-- The statement that is read: strings in its values are as they can be shown. -/
def Stmt.shown : Stmt → Stmt
  | .assign place value => .assign place value.shown
  | .bind name isMutable type value => .bind name isMutable type value.shown
  | .record name struct fields => .record name struct fields
  | .seeds name es => .seeds name es
  | .context name program accounts signer => .context name program accounts signer
  | .invoke function target amount => .invoke function target amount.shown

/-- The statement is written with names and values that are read back. -/
inductive Stmt.Spelled : Stmt → Prop
  | assign {account field : Text} {value : Expr} (hPlace : (Expr.contextField account field).Plain)
      (hValue : value.Readable) : Spelled (.assign (.contextField account field) value)
  | bind {name : Text} {isMutable : Bool} {type : Option Text} {value : Expr}
      (hName : IsOutputName name) (hType : ∀ t, type = some t → IsType t)
      (hValue : value.Readable) : Spelled (.bind name isMutable type value)
  | record {name : Text} {action : CallAction} {fields : List (Text × Expr)}
      (hName : IsOutputName name) (hFields : ∀ f ∈ fields, OneWord f.1 ∧ f.2.Plain) :
      Spelled (.record name action.structName fields)
  | seeds {name : Text} {es : List Expr} (hName : IsOutputName name)
      (hSeeds : ∀ e ∈ es, IsSeedText e) : Spelled (.seeds name es)
  | context {name accounts : Text} {program : Expr} {signer : Option Text}
      (hName : IsOutputName name) (hProgram : program.Plain) (hAccounts : OneWord accounts)
      (hSigner : ∀ s, signer = some s → OneWord s) :
      Spelled (.context name program accounts signer)
  | invoke {action : CallAction} {target : Text} {amount : Expr} (hTarget : OneWord target)
      (hAmount : amount.Readable) : Spelled (.invoke action.functionName target amount)

structure HandlerSpelled (h : Handler) : Prop where
  name : OneWord h.name
  context : OneWord h.context
  args : ∀ a ∈ h.args, ArgSpelled a
  body : ∀ s ∈ h.body.flatMap stmtsOf, s.Spelled

/-- The function that is read for a handler. -/
def Function.ofHandler (h : Handler) : Function :=
  ⟨h.name, h.context, h.args, (h.body.flatMap stmtsOf).map Stmt.shown⟩

/-- What a program prints is read: words for names, and an id of base-58 digits. -/
structure Crate.Spelled (k : Crate) : Prop where
  programId : ∀ b ∈ k.programId, b ∈ Base58.alphabet
  states : ∀ s ∈ k.states, s.Spelled
  contexts : ∀ c ∈ k.contexts, c.Spelled
  module : OneWord k.module
  handlers : ∀ h ∈ k.handlers, HandlerSpelled h

/-- What is read of a program. -/
def Crate.source (k : Crate) : Source :=
  { usesSystemTransfer := k.usesSystemTransfer
    usesAssociatedToken := k.usesAssociatedToken
    usesToken := k.usesToken
    programId := k.programId
    states := k.states
    contexts := k.contexts
    module := k.module
    functions := k.handlers.map Function.ofHandler }

section Brackets

variable {p : Reader α} {sep opening closing : Text} {inner : List Line} {a : α}

theorem renderLines_last (d : Nat) (ls : List Line) {s : Text} (hs : s ≠ []) (t : Text) :
    renderLines (shifted d (ls ++ [Line.top (s ++ t)])) =
      renderLines (shifted d ls) ++ (List.replicate (4 * (0 + d)) 32 ++ s) ++ (t ++ [10]) := by
  have hLine : renderLines [⟨0 + d, s ++ t⟩] = Line.render ⟨0 + d, s ++ t⟩ := List.append_nil _
  rw [shifted, List.map_append, renderLines_append]
  change _ ++ renderLines [⟨0 + d, s ++ t⟩] = _
  rw [hLine, render_of_ne_nil (List.append_ne_nil_of_left_ne_nil hs t)]
  simp only [List.append_assoc]
  rfl

/-- Lines in brackets that a semicolon follows. -/
theorem readsLines_enclosed (hClosing : closing ≠ [])
    (h : ∀ d, Reads Anything p (opening ++ ([10] ++ (renderLines (shifted d (inner.map Line.deeper)) ++
      (List.replicate (4 * (0 + d)) 32 ++ closing)))) a) :
    ReadsLines (Reader.ended ";" p) (enclosed opening inner (closing ++ ";")) a := by
  intro d
  rw [enclosed, renderLines_last d _ hClosing]
  refine Reads.ended (P := Anything) ?_ (.of_cons rfl rfl rfl) fun _ => trivial
  rw [renderLines_shifted_cons, List.append_assoc]
  exact .render (h d)

end Brackets

/-- A value stands before a semicolon at the end of a line. -/
theorem Reader.Reads.semicolonLine {p : Reader α} {s : Text} {a : α}
    (hp : Reads (Before closers) p s a) : ReadsLines (Reader.ended ";" p) [.top (s ++ ";")] a := by
  refine readsLine ?_
  rw [List.append_assoc]
  exact hp.ended (.of_cons rfl rfl rfl) fun _ => ⟨fun _ => rfl, _, _, rfl, by decide⟩

theorem Reader.Reads.congr {ok : Text → Prop} {p q : Reader α} {s : Text} {a : α}
    (hq : Reads ok q s a) (h : ∀ rest, ok rest → p (lexemes (s ++ rest)) = q (lexemes (s ++ rest))) :
    Reads ok p s a :=
  fun rest hRest => ⟨(h rest hRest).trans (hq rest hRest).1, (hq rest hRest).2⟩

theorem plain_of_other {ls : List Lexeme}
    (h : ∀ f r, ls ≠ .tok (.word f) :: .tok .lparen :: r) : plain ls = (do
      let place ← Reader.expr
      expect "="
      return .assign place (← Reader.expr) : Reader Stmt) ls := by
  unfold plain
  split
  · exact absurd rfl (h _ _)
  · rfl

theorem lexemes_contextField (account field rest : Text) : ∃ r,
    lexemes ((Expr.contextField account field).text ++ rest) =
      .tok (.word "ctx") :: .tok .dot :: r := by
  have hContext : Closed (Text.ofString "ctx.accounts.") := rfl
  have hText : (Expr.contextField account field).text =
      Text.ofString "ctx.accounts." ++ (account ++ ("." ++ field)) := by
    simp only [Expr.contextField, Expr.contextAccount, Expr.text, List.append_assoc]
    rfl
  rw [hText, List.append_assoc, lexemes_append hContext]
  exact ⟨_, rfl⟩

theorem reads_assign {account field : Text} {value : Expr}
    (hPlace : (Expr.contextField account field).Plain) (hValue : value.Readable) :
    Reads (Before closers) statement
      ((Expr.contextField account field).text ++ (Text.ofString " = " ++ value.text))
      (.assign (.contextField account field) value.shown) := by
  have hAssign : Reads (Before closers) (do
      let place ← Reader.expr
      expect "="
      return .assign place (← Reader.expr) : Reader Stmt)
      ((Expr.contextField account field).text ++ (Text.ofString " = " ++ value.text))
      (.assign (.contextField account field) value.shown) := by
    refine hPlace.reads.bind ?_ fun _ _ => ⟨fun _ => rfl, _, _, rfl, by decide⟩
    exact .andThen (reads_expect (.of_cons rfl rfl rfl)) ((reads_expr hValue).result rfl)
  refine .notGiven (fun rest _ => ?_) (hAssign.congr fun rest _ => ?_)
  · rw [List.append_assoc]
    obtain ⟨r, hr⟩ := lexemes_contextField account field (Text.ofString " = " ++ value.text ++ rest)
    exact not_given rfl (congrArg List.head? hr) (by decide)
  · rw [List.append_assoc]
    obtain ⟨r, hr⟩ := lexemes_contextField account field (Text.ofString " = " ++ value.text ++ rest)
    rw [if_neg Bool.false_ne_true, hr]
    exact plain_of_other fun f r' => by simp

theorem oneWord_functionName (action : CallAction) :
    OneWord action.functionName ∧ action.functionName ≠ "let" := by
  have hFunctions : ∀ f ∈ List.map Text.ofString
      ["transfer", "token::transfer", "token::mint_to", "token::burn"], OneWord f ∧ f ≠ "let" := by
    simp (disch := rfl) only [List.map_cons, List.map_nil, Text.ofString_literal]
    decide +kernel
  refine hFunctions _ ?_
  cases action <;> simp [CallAction.functionName]

theorem reads_invoke (action : CallAction) {target : Text} {amount : Expr} (hTarget : OneWord target)
    (hAmount : amount.Readable) :
    Reads (Before closers) statement
      (action.functionName ++ (Text.ofString "(" ++ (target ++ (Text.ofString ", " ++
        (amount.text ++ Text.ofString ")?")))))
      (.invoke action.functionName target amount.shown) := by
  obtain ⟨hFunction, hOther⟩ := oneWord_functionName action
  have hParts (function : Text) : Reads (Before closers) (do
        let context ← word
        expect ","
        let amount ← Reader.expr
        expect ")?"
        return .invoke function context amount : Reader Stmt)
      (target ++ (Text.ofString ", " ++ (amount.text ++ Text.ofString ")?")))
      (.invoke function target amount.shown) := by
    refine (reads_word hTarget).bind ?_ fun _ _ _ => rfl
    refine .andThen (reads_expect (.of_cons rfl rfl rfl)) ?_
    refine (reads_expr hAmount).bind (.result (reads_expect (.of_cons rfl rfl rfl)) rfl) ?_
    exact fun _ _ => ⟨fun _ => rfl, _, _, rfl, by decide⟩
  intro rest hRest
  obtain ⟨hRead, hShorter⟩ := hParts action.functionName rest hRest
  have hCall : lexemes (action.functionName ++ (Text.ofString "(" ++ (target ++ (Text.ofString ", " ++
      (amount.text ++ Text.ofString ")?")))) ++ rest) = .tok (.word action.functionName) ::
        .tok .lparen :: lexemes (target ++ (Text.ofString ", " ++
          (amount.text ++ Text.ofString ")?")) ++ rest) := by
    rw [List.append_assoc, lexemes_word hFunction fun _ => rfl]
    rfl
  rw [hCall]
  refine ⟨?_, by simp only [List.length_cons]; omega⟩
  rw [statement, given_bind_other (not_given rfl rfl ?_)]
  · exact hRead
  · exact fun hSame => hOther (by injection hSame with hTok; injection hTok with hWord; exact hWord.symm)

theorem Expr.Spells.head {e : Expr} {t : Tree} (h : e.Spells t) : ∃ k ks, t.tokens = k :: ks ∧
    k ≠ .word "CpiContext::new" ∧ k ≠ .word "CpiContext::new_with_signer" := by
  have hOther {w : Text} (hw : 58 ∉ w) :
      Tok.word w ≠ .word "CpiContext::new" ∧ Tok.word w ≠ .word "CpiContext::new_with_signer" := by
    constructor <;> (intro hSame; cases hSame; exact hw (by decide))
  have hWord {w : Text} (hw : IsWord w) : 58 ∉ w := fun hMem => absurd (hw.2 58 hMem) (by decide)
  have hName {n : Text} (hn : IsOutputName n) : 58 ∉ n := by
    obtain ⟨_, hName | ⟨w, hName, rfl⟩⟩ := hn
    · exact hWord hName.isWord
    · intro hMem
      rcases List.mem_append.mp hMem with hMark | hRest
      · exact absurd hMark (by decide)
      · exact hWord hName.isWord hRest
  induction h with
  | int hNumber => exact ⟨_, _, rfl, hOther (hWord (hNumber.isWord isIdentPart_of_isDigit))⟩
  | @bool b => cases b <;> exact ⟨_, _, rfl, hOther (by decide)⟩
  | string => exact ⟨_, _, rfl, by decide⟩
  | var hn => exact ⟨_, _, rfl, hOther (hName hn)⟩
  | member _ _ ih | call _ _ ih | binary _ _ ih _ =>
    obtain ⟨k, ks, hTokens, hk⟩ := ih
    exact ⟨k, _, by simp only [Tree.tokens, hTokens, List.cons_append]; rfl, hk⟩
  | neg | paren => exact ⟨_, _, rfl, by decide⟩

theorem recordOrValue_of_other {isMutable : Bool} {name : Text} {ls : List Lexeme}
    (h : ∀ w r, ls ≠ .tok (.word w) :: .sign 123 :: r) : recordOrValue isMutable name ls = (do
      return .bind name isMutable none (← Reader.expr) : Reader Stmt) ls := by
  unfold recordOrValue
  split
  · exact absurd rfl (h _ _)
  · rfl

/-- Behind the first word of a value stands no brace. -/
theorem Expr.Readable.lexemes_ne {e : Expr} (h : e.Readable) {rest : Text}
    (hRest : Before closers rest) (w : Text) (r : List Lexeme) :
    lexemes (e.text ++ rest) ≠ .tok (.word w) :: .sign 123 :: r := by
  obtain ⟨t, hSpells, _⟩ := h
  obtain ⟨hParted, l, r', hLexemes, hl⟩ := hRest
  obtain ⟨k, ks, hTokens, _⟩ := hSpells.head
  rw [hSpells.lexemes_append hParted, hTokens, hLexemes]
  intro hSame
  cases ks with
  | nil =>
    obtain ⟨_, hBrace⟩ := List.cons.inj hSame
    change l :: r' = _ at hBrace
    rw [(List.cons.inj hBrace).1] at hl
    exact absurd hl (by decide)
  | cons k' ks =>
    obtain ⟨_, hBrace⟩ := List.cons.inj hSame
    cases hBrace

theorem reads_bound {isMutable : Bool} {name : Text} {value : Expr} (h : value.Readable) :
    Reads (Before closers) (bound isMutable name) value.text
      (.bind name isMutable none value.shown) := by
  have hHead (rest : Text) (hRest : Before closers rest) : ∃ k,
      (lexemes (value.text ++ rest)).head? = some (.tok k) ∧ k ≠ .word "CpiContext::new" ∧
        k ≠ .word "CpiContext::new_with_signer" := by
    obtain ⟨t, hSpells, _⟩ := h
    obtain ⟨k, ks, hTokens, hk⟩ := hSpells.head
    refine ⟨k, ?_, hk⟩
    rw [hSpells.lexemes_append hRest.1, hTokens]
    rfl
  refine .notGiven (fun rest hRest => ?_) (.notGiven (fun rest hRest => ?_) ?_)
  · obtain ⟨k, hFirst, hk, _⟩ := hHead rest hRest
    exact not_given rfl hFirst fun hSame => hk (by cases hSame; rfl)
  · obtain ⟨k, hFirst, _, hk⟩ := hHead rest hRest
    exact not_given rfl hFirst fun hSame => hk (by cases hSame; rfl)
  · rw [if_neg Bool.false_ne_true]
    have hValue : Reads (Before closers) (do return .bind name isMutable none (← Reader.expr))
        value.text (Stmt.bind name isMutable none value.shown) := (reads_expr h).result rfl
    exact hValue.congr fun rest hRest => recordOrValue_of_other (h.lexemes_ne hRest)

/-- A name behind its `let`, which nothing goes on into. -/
theorem reads_binding (isMutable : Bool) {name t : Text} {ok : Text → Prop} {s : Stmt}
    (hName : IsOutputName name) (hParted : ∀ rest, ok rest → Parted (t ++ rest))
    (h : Reads ok (named isMutable name) t s) :
    Reads ok statement
      ((if isMutable then Text.ofString "let mut " else "let ") ++ (name ++ t)) s := by
  have hWord := oneWord_of_isOutputName hName
  have hRest : Reads ok (word >>= named isMutable) (name ++ t) s :=
    (reads_word hWord).bind h hParted
  cases isMutable with
  | true =>
    refine .andThen (s := Text.ofString "let ") (t := Text.ofString "mut " ++ (name ++ t))
      (reads_given (.of_cons rfl rfl rfl)) ?_
    exact .andThen (reads_given (.of_cons rfl rfl rfl)) hRest
  | false =>
    refine .andThen (s := Text.ofString "let ") (t := name ++ t)
      (reads_given (.of_cons rfl rfl rfl)) ?_
    refine .notGiven (fun rest hok => ?_) hRest
    rw [List.append_assoc, lexemes_word hWord (hParted rest hok)]
    refine not_given rfl rfl fun hSame => ?_
    cases hSame
    exact hName.1 (by decide)

theorem IsType.lexemes_cons {t : Text} (h : IsType t) (rest : Text) :
    ∃ w r, lexemes (t ++ 32 :: rest) = .tok (.word w) :: r := by
  cases h with
  | plain hWord => exact ⟨_, _, lexemes_word hWord fun _ => rfl⟩
  | @borrowed w l hWord =>
    simp only [List.append_assoc]
    exact ⟨_, _, lexemes_word hWord fun _ => rfl⟩
  | @generic w l a hWord =>
    simp only [List.append_assoc]
    exact ⟨_, _, lexemes_word hWord fun _ => rfl⟩

theorem reads_named {isMutable : Bool} {name : Text} {value : Expr} (h : value.Readable)
    {type : Option Text} (hType : ∀ t, type = some t → IsType t) :
    Reads (Before closers) (named isMutable name)
      (type.elim [] (Text.ofString ": " ++ ·) ++ (Text.ofString " = " ++ value.text))
      (.bind name isMutable type value.shown) := by
  cases type with
  | none =>
    change Reads _ _ (Text.ofString " = " ++ value.text) _
    refine .notGiven (fun rest _ => not_given rfl rfl (by decide)) ?_
    refine .notGiven (fun rest _ => not_given rfl rfl (by decide)) ?_
    exact .andThen (reads_expect (.of_cons rfl rfl rfl)) (reads_bound h)
  | some t =>
    have hAfter : Reads (Before closers) (do
          let t ← Reader.type
          expect "="
          return .bind name isMutable (some t) (← Reader.expr))
        (t ++ (Text.ofString " = " ++ value.text))
        (Stmt.bind name isMutable (some t) value.shown) := by
      refine (reads_type (hType t rfl)).bind ?_ fun _ _ => ⟨fun _ => rfl, _, _, rfl, by decide⟩
      exact .andThen (reads_expect (.of_cons rfl rfl rfl)) ((reads_expr h).result rfl)
    rw [Option.elim_some, List.append_assoc]
    refine .notGiven (fun rest _ => ?_) (.andThen (reads_given (.of_cons rfl rfl rfl)) hAfter)
    obtain ⟨w, r, hr⟩ := (hType t rfl).lexemes_cons (Text.ofString "= " ++ value.text ++ rest)
    have hText : Text.ofString ": " ++ (t ++ (Text.ofString " = " ++ value.text)) ++ rest =
        Text.ofString ": " ++ (t ++ 32 :: (Text.ofString "= " ++ value.text ++ rest)) := by
      simp only [List.append_assoc]
      rfl
    have hColon : Closed (Text.ofString ": ") := rfl
    rw [hText, lexemes_append hColon, hr]
    intro hPrefix
    have hSecond : lexemes "&[&[&[u8]]; 1] = &[&[" <+: .tok (.word w) :: r :=
      (List.cons_prefix_cons.mp hPrefix).2
    exact not_given (l := .sign 38) (m := .tok (.word w)) rfl rfl nofun hSecond

theorem reads_boundRecord {name struct t : Text} {fields : List (Text × Expr)}
    (hStruct : OneWord struct)
    (hOther : struct ≠ "CpiContext::new" ∧ struct ≠ "CpiContext::new_with_signer")
    (hFields : Reads Anything (listed "," "\x7d" recordField) t fields) :
    Reads Anything (bound false name) (struct ++ (Text.ofString " \x7b" ++ t))
      (.record name struct fields) := by
  intro rest _
  obtain ⟨hRead, hShorter⟩ := hFields rest trivial
  have hLexemes : lexemes (struct ++ (Text.ofString " \x7b" ++ t) ++ rest) =
      .tok (.word struct) :: .sign 123 :: lexemes (t ++ rest) := by
    rw [List.append_assoc, lexemes_word hStruct fun _ => rfl]
    rfl
  have hApart {w : Text} (hw : struct ≠ w) : Lexeme.tok (.word w) ≠ .tok (.word struct) :=
    fun hSame => hw (by cases hSame; rfl)
  rw [hLexemes, bound, given_bind_other (not_given rfl rfl (hApart hOther.1)),
    if_neg Bool.false_ne_true, given_bind_other (not_given rfl rfl (hApart hOther.2)),
    if_neg Bool.false_ne_true]
  refine ⟨bind_of_eq hRead _, ?_⟩
  simp only [List.length_cons]
  omega

theorem reads_boundContext {name accounts t : Text} {program : Expr} {signer : Option Text}
    (hParts : Reads Anything (contextParts name signer.isSome) t
      (.context name program accounts signer)) :
    Reads Anything (bound false name)
      ((if signer.isSome then Text.ofString "CpiContext::new_with_signer" else "CpiContext::new") ++
        (Text.ofString "(" ++ t)) (.context name program accounts signer) := by
  cases signer with
  | none =>
    exact .andThen (s := Text.ofString "CpiContext::new(") (reads_given (.of_cons rfl rfl rfl)) hParts
  | some s =>
    refine .notGiven (fun rest _ => not_given rfl rfl (by decide)) ?_
    exact .andThen (s := Text.ofString "CpiContext::new_with_signer(")
      (reads_given (.of_cons rfl rfl rfl)) hParts

theorem reads_namedBound (name : Text) {t : Text} {s : Stmt}
    (h : Reads Anything (bound false name) t s) :
    Reads Anything (named false name) (Text.ofString " = " ++ t) s := by
  refine .notGiven (fun rest _ => not_given rfl rfl (by decide)) ?_
  refine .notGiven (fun rest _ => not_given rfl rfl (by decide)) ?_
  exact .andThen (reads_expect (.of_cons rfl rfl rfl)) h

theorem reads_namedSeeds (name : Text) {t : Text} {es : List Expr}
    (h : Reads Anything (listed "," "]]" seed) t es) :
    Reads Anything (named false name) (Text.ofString ": &[&[&[u8]]; 1] = &[&[" ++ t)
      (.seeds name es) :=
  .andThen (reads_given (.of_cons rfl rfl rfl)) (h.result rfl)

/-- A line of its own for what is read before the next comma. -/
theorem Reader.Reads.lineThen {p : Reader α} {q : α → Reader β} {ok : Text → Prop} {s u : Text}
    {a : α} {b : β} (hp : Reads (Before closers) p s a) (hq : Reads ok (q a) u b) (n : Nat) :
    Reads ok (do let a ← p; expect ","; q a) (Line.render ⟨n, s ++ ","⟩ ++ u) b := by
  refine .render ?_
  rw [List.append_assoc]
  refine hp.bind ?_ fun _ _ => ⟨fun _ => rfl, _, _, rfl, by decide⟩
  exact .andThen (reads_expect (.of_cons rfl rfl rfl)) hq.newline

/-- The arguments of a context's constructor, each on a line of its own. -/
theorem reads_contextParts (name : Text) {accounts : Text} {program : Expr} {signer : Option Text}
    (hProgram : program.Plain) (hAccounts : OneWord accounts)
    (hSigner : ∀ s, signer = some s → OneWord s) (d : Nat) :
    Reads Anything (contextParts name signer.isSome)
      (renderLines (shifted d (([Line.top (program.text ++ ","), .top (accounts ++ ",")] ++
        (signer.map fun s => Line.top (s ++ ",")).toList).map Line.deeper)) ++
          (List.replicate (4 * (0 + d)) 32 ++ Text.ofString ")"))
      (.context name program accounts signer) := by
  have hClosing : Writes (Text.ofString ")") ")" := .of_cons rfl rfl rfl
  have hEnd : Reads Anything (expect ")") (List.replicate (4 * (0 + d)) 32 ++ Text.ofString ")") () :=
    reads_expect (hClosing.indented (4 * (0 + d)))
  have hWord {w : Text} (hw : OneWord w) : Reads (Before closers) word w w :=
    (reads_word hw).mono fun _ h => h.1
  cases signer with
  | none =>
    rw [Option.map_none, Option.toList_none, List.append_nil]
    simp only [List.map_cons, List.map_nil, renderLines_shifted_cons, List.append_assoc]
    refine hProgram.reads.lineThen (.lineThen (hWord hAccounts) ?_ _) _
    exact hEnd.result rfl
  | some s =>
    rw [Option.map_some, Option.toList_some]
    simp only [List.map_cons, List.map_nil, List.cons_append, List.nil_append,
      renderLines_shifted_cons, List.append_assoc]
    refine hProgram.reads.lineThen (.lineThen (hWord hAccounts) ?_ _) _
    refine .lineThen (hWord (hSigner s rfl)) ?_ _
    exact hEnd.result rfl

theorem recordField_reads {f : Text × Expr} (hf : OneWord f.1 ∧ f.2.Plain) :
    Reads (Before closers) recordField (f.1 ++ ": " ++ f.2.text) f := by
  rw [List.append_assoc]
  refine (reads_word hf.1).bind ?_ fun _ _ _ => rfl
  exact .andThen (reads_expect (.of_cons rfl rfl rfl)) (hf.2.reads.result rfl)

theorem recordField_eq_none {ls : List Lexeme} (h : lexemes "\x7d" <+: ls) :
    recordField ls = none := by
  obtain ⟨r, rfl⟩ := h
  rfl

theorem oneWord_structName (action : CallAction) : OneWord action.structName ∧
    action.structName ≠ "CpiContext::new" ∧ action.structName ≠ "CpiContext::new_with_signer" := by
  have hStructs : ∀ s ∈ List.map Text.ofString
      ["Transfer", "token::Transfer", "token::MintTo", "token::Burn"],
      OneWord s ∧ s ≠ "CpiContext::new" ∧ s ≠ "CpiContext::new_with_signer" := by
    simp (disch := rfl) only [List.map_cons, List.map_nil, Text.ofString_literal]
    decide +kernel
  refine hStructs _ ?_
  cases action <;> simp [CallAction.structName]

/-- A variable with what stands behind its name on several lines. -/
theorem readsLines_let {name opening closing : Text} {inner : List Line} {s : Stmt}
    (hName : IsOutputName name) (hParted : ∀ rest, Parted (opening ++ rest))
    (hClosing : closing ≠ [])
    (h : ∀ d, Reads Anything (named false name) (opening ++ ([10] ++ (renderLines (shifted d
      (inner.map Line.deeper)) ++ (List.replicate (4 * (0 + d)) 32 ++ closing)))) s) :
    ReadsLines (Reader.ended ";" statement)
      (enclosed (Text.ofString "let " ++ (name ++ opening)) inner (closing ++ ";")) s := by
  refine readsLines_enclosed hClosing fun d => ?_
  rw [List.append_assoc, List.append_assoc]
  refine reads_binding false hName (fun rest _ => ?_) (h d)
  rw [List.append_assoc]
  exact hParted _

theorem readsLines_bind {name : Text} {isMutable : Bool} {type : Option Text} {value : Expr}
    (hName : IsOutputName name) (hType : ∀ t, type = some t → IsType t) (hValue : value.Readable) :
    ReadsLines (Reader.ended ";" statement) (Stmt.bind name isMutable type value).lines
      (.bind name isMutable type value.shown) := by
  have hBind : Reads (Before closers) statement
      ((if isMutable then Text.ofString "let mut " else "let ") ++ (name ++
        (type.elim [] (Text.ofString ": " ++ ·) ++ (Text.ofString " = " ++ value.text))))
      (.bind name isMutable type value.shown) := by
    refine reads_binding _ hName (fun rest _ => ?_) (reads_named hValue hType)
    cases type <;> exact fun _ => rfl
  have hLine := hBind.semicolonLine
  simp only [← List.append_assoc] at hLine
  cases type <;> exact hLine

theorem readsLines_record {name : Text} (action : CallAction) {fields : List (Text × Expr)}
    (hName : IsOutputName name) (hFields : ∀ f ∈ fields, OneWord f.1 ∧ f.2.Plain) :
    ReadsLines (Reader.ended ";" statement) (Stmt.record name action.structName fields).lines
      (.record name action.structName fields) := by
  obtain ⟨hStruct, hOther⟩ := oneWord_structName action
  have hClosing : Writes (Text.ofString "\x7d") "\x7d" := .of_cons rfl rfl rfl
  have hRecord (d : Nat) := reads_namedBound name (reads_boundRecord hStruct hOther
    (reads_elementLines (fun f hf => recordField_reads (hFields f hf)) (by decide)
      (fun _ => recordField_eq_none) (hClosing.indented (4 * (0 + d))) d).newline)
  have hLines : ReadsLines (Reader.ended ";" statement)
      (enclosed
        (Text.ofString "let " ++ (name ++ (Text.ofString " = " ++ (action.structName ++ " \x7b"))))
        (fields.map fun f => .top (f.1 ++ ": " ++ f.2.text ++ ",")) (Text.ofString "\x7d" ++ ";"))
      (.record name action.structName fields) := by
    refine readsLines_let hName (fun _ _ => rfl) hClosing.ne_nil fun d => ?_
    simp only [List.append_assoc] at hRecord ⊢
    exact hRecord d
  simp only [← List.append_assoc] at hLines
  exact hLines

theorem readsLines_seeds {name : Text} {es : List Expr} (hName : IsOutputName name)
    (hSeeds : ∀ e ∈ es, IsSeedText e) :
    ReadsLines (Reader.ended ";" statement) (Stmt.seeds name es).lines (.seeds name es) := by
  have hClosing : Writes (Text.ofString "]]") "]]" := .of_cons rfl rfl rfl
  have hNone (ls : List Lexeme) (h : lexemes "]]" <+: ls) : seed ls = none := by
    obtain ⟨r, rfl⟩ := h
    exact seed_eq_none ⟨.sign 93 :: r, rfl⟩
  have hSeedLines (d : Nat) := reads_namedSeeds name
    (reads_elementLines (fun e he => reads_seed (hSeeds e he)) (by decide) hNone
      (hClosing.indented (4 * (0 + d))) d).newline
  have hLines := readsLines_let hName (fun _ _ => rfl) hClosing.ne_nil hSeedLines
  simp only [← List.append_assoc] at hLines
  exact hLines

theorem readsLines_context {name accounts : Text} {program : Expr} {signer : Option Text}
    (hName : IsOutputName name) (hProgram : program.Plain) (hAccounts : OneWord accounts)
    (hSigner : ∀ s, signer = some s → OneWord s) :
    ReadsLines (Reader.ended ";" statement) (Stmt.context name program accounts signer).lines
      (.context name program accounts signer) := by
  have hContext (d : Nat) := reads_namedBound name
    (reads_boundContext (reads_contextParts name hProgram hAccounts hSigner d).newline)
  have hLines : ReadsLines (Reader.ended ";" statement)
      (enclosed (Text.ofString "let " ++ (name ++ (Text.ofString " = " ++
          ((if signer.isSome then Text.ofString "CpiContext::new_with_signer" else "CpiContext::new") ++
            "("))))
        ([Line.top (program.text ++ ","), .top (accounts ++ ",")] ++
          (signer.map fun s => Line.top (s ++ ",")).toList) (Text.ofString ")" ++ ";"))
      (.context name program accounts signer) := by
    refine readsLines_let hName (fun _ _ => rfl) (by decide) fun d => ?_
    have hText := hContext d
    simp only [List.append_assoc] at hText ⊢
    exact hText
  simp only [← List.append_assoc] at hLines
  exact hLines

theorem Stmt.Spelled.readsLines {s : Stmt} (h : s.Spelled) :
    ReadsLines (Reader.ended ";" statement) s.lines s.shown := by
  cases h with
  | assign hPlace hValue =>
    have hLine := (reads_assign hPlace hValue).semicolonLine
    simp only [← List.append_assoc] at hLine
    exact hLine
  | bind hName hType hValue => exact readsLines_bind hName hType hValue
  | record hName hFields => exact readsLines_record _ hName hFields
  | seeds hName hSeeds => exact readsLines_seeds hName hSeeds
  | context hName hProgram hAccounts hSigner =>
    exact readsLines_context hName hProgram hAccounts hSigner
  | @invoke action _ _ hTarget hAmount =>
    have hLine := (reads_invoke action hTarget hAmount).semicolonLine
    have hEnd : Text.ofString ")?" ++ Text.ofString ";" = Text.ofString ")?;" := rfl
    simp only [List.append_assoc, hEnd] at hLine
    simp only [← List.append_assoc] at hLine
    exact hLine

theorem join_cons (sep p : Text) (ps : List Text) :
    Text.join sep (p :: ps) = p ++ ps.flatMap (sep ++ ·) := by
  induction ps generalizing p with
  | nil => rfl
  | cons q ps ih => rw [Text.join_cons_cons, ih, List.flatMap_cons, List.append_assoc, List.append_assoc]

theorem reads_functionArgs {args : List HandlerArg} (h : ∀ a ∈ args, ArgSpelled a) :
    Reads Anything functionArgs
      (((args.map argText).flatMap (Text.ofString ", " ++ ·)) ++ Text.ofString ")") args := by
  cases args with
  | nil =>
    exact .notGiven (fun rest _ => not_given rfl rfl (by decide))
      (.result (reads_expect (.of_cons rfl rfl rfl)) rfl)
  | cons a args =>
    have hJoin : ((a :: args).map argText).flatMap (Text.ofString ", " ++ ·) =
        Text.ofString ", " ++ Text.join ", " ((a :: args).map argText) := by
      rw [List.map_cons, List.flatMap_cons, join_cons, List.append_assoc]
    rw [hJoin, List.append_assoc]
    refine .andThen (reads_given (.of_cons rfl rfl rfl)) ?_
    exact reads_elements (t := ")") (fun a ha => reads_arg (h a ha)) (by decide)
      (fun _ => ⟨fun _ => rfl, _, _, rfl, by decide⟩) (fun _ => arg_eq_none rfl)
      (.of_cons rfl rfl rfl) fun _ => not_prefix_of_ne nofun

theorem statement_eq_none {ls : List Lexeme} (h : lexemes "Ok(())" <+: ls) :
    statement ls = none := by
  obtain ⟨r, rfl⟩ := h
  rfl

theorem HandlerSpelled.readsBody {h : Handler} (hSpelled : HandlerSpelled h) :
    ReadsLines (listed ";" "Ok(())" statement)
      ((h.body.flatMap stmtLines ++ [Line.top "Ok(())"]).map Line.deeper)
      ((h.body.flatMap stmtsOf).map Stmt.shown) := by
  have hList : ReadsLines (listed ";" "Ok(())" statement)
      ((h.body.flatMap stmtsOf).flatMap Stmt.lines ++ [Line.top "Ok(())"])
      ((h.body.flatMap stmtsOf).map Stmt.shown) :=
    readsLines_listed (fun s hs => (hSpelled.body s hs).readsLines) (fun _ => statement_eq_none)
      (.of_cons rfl rfl rfl)
  rw [bodyLines_eq]
  exact hList.deeper

theorem HandlerSpelled.readsLines {h : Handler} (hSpelled : HandlerSpelled h) :
    ReadsLines (do expect "pub fn"; function) (handlerLines h) (.ofHandler h) := by
  have hClosed : ReadsLines (expect "\x7d") [Line.top "\x7d"] () :=
    readsLine (reads_expect (.of_cons rfl rfl rfl))
  have hBody : ReadsLines (do
        let body ← listed ";" "Ok(())" statement
        expect "\x7d"
        return ⟨h.name, h.context, h.args, body⟩)
      ((h.body.flatMap stmtLines ++ [Line.top "Ok(())"]).map Line.deeper ++ [Line.top "\x7d"])
      (Function.ofHandler h) := hSpelled.readsBody.andThen (hClosed.result rfl)
  refine readsLines_cons fun d => ?_
  rw [join_cons]
  simp only [List.append_assoc]
  refine .andThen (reads_expect (.of_cons rfl rfl rfl)) ?_
  refine (reads_word hSpelled.name).bind ?_ fun _ _ _ => rfl
  refine .andThen (s := Text.ofString "(" ++ Text.ofString "ctx: Context<")
    (reads_expect (.of_cons rfl rfl rfl)) ?_
  refine (reads_word hSpelled.context).bind ?_ fun _ _ _ => rfl
  refine .andThen (reads_expect (.of_cons rfl rfl rfl)) ?_
  have hEnd : Text.ofString ") -> Result<()> \x7b" =
      Text.ofString ")" ++ Text.ofString " -> Result<()> \x7b" := rfl
  rw [hEnd, List.append_assoc, ← List.append_assoc (List.flatMap _ _)]
  refine (reads_functionArgs hSpelled.args).andThen ?_
  exact .andThen (reads_expect (.of_cons rfl rfl rfl)) (hBody d).newline

section Lines

variable {p : Reader α} {q : Bool → Reader β} {a : α} {b : Bool} {c : β} {s t u : Text}
  {ls : List Line}

/-- Of two texts that begin differently only one can be first. -/
theorem not_given_line (hLine : Writes (s ++ [10]) u) (hOther : ¬lexemes t <+: lexemes u)
    (hOther' : ¬lexemes u <+: lexemes t) (d : Nat) (rest : Text) :
    ¬lexemes t <+: lexemes (renderLines (shifted d (.top s :: ls)) ++ rest) := by
  have hText : s ++ 10 :: (renderLines (shifted d ls) ++ rest) =
      s ++ [10] ++ (renderLines (shifted d ls) ++ rest) := by
    rw [List.append_assoc]
    rfl
  rw [lexemes_lines_cons, hText, hLine.lexemes_append]
  intro hPrefix
  exact (List.prefix_or_prefix_of_prefix hPrefix (List.prefix_append _ _)).elim hOther hOther'

/-- A line that stands there or not. -/
theorem readsLines_given (hLine : Writes (s ++ [10]) t) (hq : ReadsLines (q b) ls c)
    (hOther : ∀ d rest, ¬lexemes t <+: lexemes (renderLines (shifted d ls) ++ rest)) :
    ReadsLines (given t >>= q) ((if b then [Line.top s] else []) ++ ls) c := by
  cases b with
  | true => exact .andThen (u := [.top s]) (readsLine (reads_given hLine)) hq
  | false => exact .passing (fun d rest => given_other (hOther d rest)) hq

theorem not_given_optional (b : Bool) (hLine : Writes (s ++ [10]) u)
    (hOther : ¬lexemes t <+: lexemes u) (hOther' : ¬lexemes u <+: lexemes t)
    (hRest : ∀ d rest, ¬lexemes t <+: lexemes (renderLines (shifted d ls) ++ rest))
    (d : Nat) (rest : Text) :
    ¬lexemes t <+:
      lexemes (renderLines (shifted d ((if b then [Line.top s] else []) ++ ls)) ++ rest) := by
  cases b with
  | true => exact not_given_line hLine hOther hOther' d rest
  | false => exact hRest d rest

theorem readsLines_each {γ : Type} {items : List γ} {f : γ → List Line} {g : γ → α}
    {opening : Text} {q : List α → Reader β}
    (hItems : ∀ i ∈ items, ReadsLines (do expect opening; p) (f i) (g i))
    (hq : ReadsLines (q (items.map g)) ls c)
    (hOther : ∀ d rest, ¬lexemes opening <+: lexemes (renderLines (shifted d ls) ++ rest)) :
    ReadsLines (each opening p >>= q) (items.flatMap f ++ ls) c := by
  intro d
  have hText : renderLines (shifted d (items.flatMap f ++ ls)) =
      items.flatMap (fun i => renderLines (shifted d (f i))) ++ renderLines (shifted d ls) := by
    rw [shifted, List.map_append, renderLines_append, List.map_flatMap, renderLines,
      List.flatMap_assoc]
    rfl
  rw [hText]
  exact Reads.each (fun i hi => hItems i hi d) (hq d) fun rest _ => hOther d rest

/-- Structs follow each other with a line between two. -/
theorem readsLines_structs {γ : Type} {p : Reader γ} {items : List γ} {f : γ → List Line}
    {opening : Text} {q : List γ → Reader β}
    (hItems : ∀ i ∈ items, ReadsLines (do expect opening; p) (f i) i)
    (hq : ReadsLines (q items) ls c)
    (hOther : ∀ d rest, ¬lexemes opening <+: lexemes (renderLines (shifted d ls) ++ rest)) :
    ReadsLines (each opening p >>= q) ((items.flatMap fun i => f i ++ [Line.blank]) ++ ls) c := by
  refine readsLines_each (g := id) (fun i hi => (hItems i hi).thenBlank) ?_ hOther
  rwa [List.map_id]

end Lines

theorem quoted_of_mem_alphabet {id : Text} (h : ∀ b ∈ id, b ∈ Base58.alphabet) :
    Text.quoted id = 34 :: (id ++ [34]) := by
  have hDigits : ∀ b ∈ Base58.alphabet, Lexer.isPlain b = true ∧ Lexer.escape b = [b] :=
    Text.forall_mem_of_all (by decide +kernel)
  rw [Lexer.quoted_of_isPlain fun b hb => (hDigits b (h b hb)).1]
  have hSame : id.flatMap Lexer.escape = id.flatMap fun b => [b] :=
    List.flatMap_congr fun b hb => (hDigits b (h b hb)).2
  rw [hSame, List.flatMap_singleton']

theorem reads_literal {id : Text} (h : ∀ b ∈ id, b ∈ Base58.alphabet) :
    Reads Anything literal (Text.quoted id) id := by
  have hPlain : ∀ b ∈ Base58.alphabet, b ≠ 34 ∧ b ≠ 13 ∧ b ≠ 92 :=
    Text.forall_mem_of_all (by decide +kernel)
  have hRest (rest : Text) : literalRest? (id ++ 34 :: rest) = some (id ++ [34], rest) := by
    rw [continues_of_plain fun b hb => ⟨(hPlain b (h b hb)).1, (hPlain b (h b hb)).2.2⟩, literalRest?]
    rfl
  have hValue : stringValue? (34 :: (id ++ [34])) = some (id, []) := by
    change stringBody? (id ++ [34]) = _
    rw [spells_of_plain fun b hb => hPlain b (h b hb), stringBody?, if_pos rfl]
    exact congrArg some (congrArg (·, []) (List.append_nil id))
  intro rest _
  have hLexemes : lexemes (Text.quoted id ++ rest) =
      .tok (.text (34 :: (id ++ [34]))) :: lexemes rest := by
    rw [quoted_of_mem_alphabet h]
    change lexFrom (.literal false [34]) (id ++ [34] ++ rest) = _
    rw [List.append_assoc]
    exact lexFrom_literal (hRest rest) false [34]
  rw [hLexemes]
  refine ⟨?_, Nat.lt_succ_self _⟩
  rw [literal, hValue]

section Program

variable {k : Crate} (h : k.Spelled)

include h

theorem readsLines_module :
    ReadsLines Reader.module (moduleLines k) (k.module, k.handlers.map Function.ofHandler) := by
  have hEnd (a : Text × List Function) :
      ReadsLines (do expect "\x7d"; return a) [Line.top "\x7d"] a :=
    .result (readsLine (reads_expect (.of_cons rfl rfl rfl))) rfl
  have hFunctions : ReadsLines (do
        let functions ← each "pub fn" function
        expect "\x7d"
        return (k.module, functions))
      ((k.handlers.flatMap fun h => Line.blank :: handlerLines h).map Line.deeper ++
        [Line.top "\x7d"]) (k.module, k.handlers.map Function.ofHandler) := by
    rw [List.map_flatMap]
    exact readsLines_each (fun i hi => ((h.handlers i hi).readsLines.blank).deeper) (hEnd _)
      fun d rest => not_given rfl (congrArg List.head? (lexemes_lines_cons _ d _ rest)) (by decide)
  have hUse : ReadsLines (expect "use super::*;") [Line.top "use super::*;"] () :=
    readsLine (reads_expect (.of_cons rfl rfl rfl))
  refine .andThen (u := [Line.top "#[program]"]) (readsLine (reads_expect (.of_cons rfl rfl rfl))) ?_
  refine readsLines_cons fun d => ?_
  simp only [List.append_assoc]
  refine .andThen (reads_expect (.of_cons rfl rfl rfl)) ?_
  refine (reads_word h.module).bind ?_ fun _ _ _ => rfl
  refine .andThen (reads_expect (.of_cons rfl rfl rfl)) (.newline ?_)
  exact hUse.deeper.andThen hFunctions d

omit h in
theorem writes_imports :
    Writes (Text.ofString "use anchor_lang::prelude::*;" ++ [10]) "use anchor_lang::prelude::*;" ∧
    Writes (Text.ofString "use anchor_lang::system_program::\x7btransfer, Transfer\x7d;" ++ [10])
      "use anchor_lang::system_program::\x7btransfer, Transfer\x7d;" ∧
    Writes (Text.ofString "use anchor_spl::associated_token::AssociatedToken;" ++ [10])
      "use anchor_spl::associated_token::AssociatedToken;" ∧
    Writes (Text.ofString "use anchor_spl::token::\x7bself, Mint, Token, TokenAccount\x7d;" ++ [10])
      "use anchor_spl::token::\x7bself, Mint, Token, TokenAccount\x7d;" := by
  simp (disch := rfl) only [Text.ofString_literal]
  exact ⟨.of_cons rfl rfl rfl, .of_cons rfl rfl rfl, .of_cons rfl rfl rfl, .of_cons rfl rfl rfl⟩

omit h in
/-- No import begins with another, and all of them with the same word. -/
theorem imports_apart : List.Pairwise (fun s t => ¬lexemes s <+: lexemes t ∧ ¬lexemes t <+: lexemes s)
      [Text.ofString "use anchor_lang::system_program::\x7btransfer, Transfer\x7d;",
        Text.ofString "use anchor_spl::associated_token::AssociatedToken;",
        Text.ofString "use anchor_spl::token::\x7bself, Mint, Token, TokenAccount\x7d;"] ∧
    ∀ s ∈ [Text.ofString "use anchor_lang::system_program::\x7btransfer, Transfer\x7d;",
        Text.ofString "use anchor_spl::associated_token::AssociatedToken;",
        Text.ofString "use anchor_spl::token::\x7bself, Mint, Token, TokenAccount\x7d;"],
      (lexemes s).head? = some (.tok (.word "use")) := by
  simp (disch := rfl) only [Text.ofString_literal]
  decide +kernel

theorem readsLines_header : ReadsLines header (headerLines k)
    (k.usesSystemTransfer, k.usesAssociatedToken, k.usesToken, k.programId) := by
  let idLines : List Line :=
    [Line.blank, .top ("declare_id!(" ++ Text.quoted k.programId ++ ");"), Line.blank]
  have hId : ReadsLines (do
        expect "declare_id!("
        let programId ← literal
        expect ");"
        return (k.usesSystemTransfer, k.usesAssociatedToken, k.usesToken, programId)) idLines
      (k.usesSystemTransfer, k.usesAssociatedToken, k.usesToken, k.programId) := by
    refine .blank (ReadsLines.thenBlank (u := [_]) (readsLine ?_))
    simp only [List.append_assoc]
    refine .andThen (reads_expect (.of_cons rfl rfl rfl)) ((reads_literal h.programId).andThen ?_)
    exact .result (reads_expect (.of_cons rfl rfl rfl)) rfl
  have hFirst (d : Nat) (rest : Text) :
      (lexemes (renderLines (shifted d idLines) ++ rest)).head? = some (.tok (.word "declare_id")) := by
    have hOpening : Closed (Text.ofString "declare_id!(") := rfl
    change (lexemes (renderLines (shifted d [.top _, Line.blank]) ++ rest)).head? = _
    rw [lexemes_lines_cons]
    simp only [List.append_assoc, lexemes_append hOpening]
    rfl
  have hOther {s : Text} (hs : (lexemes s).head? = some (.tok (.word "use"))) (d : Nat) (rest : Text) :
      ¬lexemes s <+: lexemes (renderLines (shifted d idLines) ++ rest) :=
    not_given hs (hFirst d rest) (by decide)
  obtain ⟨hPrelude, hSystem, hAssociated, hToken⟩ := writes_imports
  rw [headerLines, List.append_assoc, List.append_assoc, List.append_assoc]
  refine .andThen (readsLine (reads_expect hPrelude)) ?_
  obtain ⟨hApart, hUse⟩ := imports_apart
  simp only [List.pairwise_cons, List.forall_mem_cons] at hApart hUse
  obtain ⟨⟨hSystemAssociated, hSystemToken, _⟩, ⟨hAssociatedToken, _⟩, _⟩ := hApart
  obtain ⟨hUseSystem, hUseAssociated, hUseToken, _⟩ := hUse
  refine readsLines_given hSystem (readsLines_given hAssociated (readsLines_given hToken hId ?_) ?_) ?_
  · exact hOther hUseToken
  · exact not_given_optional _ hToken hAssociatedToken.1 hAssociatedToken.2 (hOther hUseAssociated)
  · exact not_given_optional _ hAssociated hSystemAssociated.1 hSystemAssociated.2
      (not_given_optional _ hToken hSystemToken.1 hSystemToken.2 (hOther hUseSystem))

theorem readSource_text : readSource k.text = some k.source := by
  have hContexts : ReadsLines (do
        let contexts ← each "#[derive(Accounts)]" contextStruct
        let m ← Reader.module
        return ⟨k.usesSystemTransfer, k.usesAssociatedToken, k.usesToken, k.programId, k.states,
          contexts, m.1, m.2⟩)
      ((k.contexts.flatMap fun s => s.lines ++ [Line.blank]) ++ moduleLines k) k.source :=
    readsLines_structs (fun c hc => (h.contexts c hc).readsLines)
      ((readsLines_module h).result rfl)
      (not_given_line ⟨rfl, rfl, List.cons_ne_nil _ _⟩ (by decide) (by decide))
  have hStates : ReadsLines (do
        let states ← each "#[account]" stateStruct
        let contexts ← each "#[derive(Accounts)]" contextStruct
        let m ← Reader.module
        return ⟨k.usesSystemTransfer, k.usesAssociatedToken, k.usesToken, k.programId, states,
          contexts, m.1, m.2⟩)
      ((k.states.flatMap fun s => s.lines ++ [Line.blank]) ++
        ((k.contexts.flatMap fun s => s.lines ++ [Line.blank]) ++ moduleLines k)) k.source := by
    refine readsLines_structs (fun s hs => (h.states s hs).readsLines) hContexts ?_
    cases k.contexts with
    | nil => exact not_given_line ⟨rfl, rfl, List.cons_ne_nil _ _⟩ (by decide) (by decide)
    | cons c cs => exact not_given_line ⟨rfl, rfl, List.cons_ne_nil _ _⟩ (by decide) (by decide)
  have hSource : ReadsLines source (headerLines k ++
      ((k.states.flatMap fun s => s.lines ++ [Line.blank]) ++
      ((k.contexts.flatMap fun s => s.lines ++ [Line.blank]) ++ moduleLines k))) k.source :=
    (readsLines_header h).andThen hStates
  have hTop (ls : List Line) : shifted 0 ls = ls := List.map_id' ls
  obtain ⟨hRead, _⟩ := hSource 0 [] trivial
  rw [hTop, List.append_nil, ← List.append_assoc, ← List.append_assoc] at hRead
  rw [readSource, Crate.text, hRead]
  rfl

end Program

end AnchorScript.Rust
