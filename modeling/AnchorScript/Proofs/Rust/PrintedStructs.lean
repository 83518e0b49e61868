import AnchorScript.Proofs.Json.RoundTrip
import AnchorScript.Proofs.Rust.SourceReading

/-!
# Printed programs are read back

Each construct is read from what it is printed as: constraints, fields and structs, statements,
functions and whole programs.
-/

namespace AnchorScript.Rust

open Reader

/-- A type is a word, and may have a lifetime and another type behind it. -/
inductive IsType : Text → Prop
  | plain {w : Text} (hWord : OneWord w) : IsType w
  | borrowed {w l : Text} (hWord : OneWord w) (hLifetime : OneWord l) :
      IsType (w ++ "<'" ++ l ++ ">")
  | generic {w l a : Text} (hWord : OneWord w) (hLifetime : OneWord l) (hArg : OneWord a) :
      IsType (w ++ "<'" ++ l ++ ", " ++ a ++ ">")

/-- The expression is read as it is. -/
def Expr.Plain (e : Expr) : Prop := e.Readable ∧ e.shown = e

/-- An expression as it stands among seeds. -/
inductive IsSeedText : Expr → Prop
  | bytes {s : Text} : IsSeedText (.bytes s)
  | slice {e : Expr} (hElement : e.Plain) : IsSeedText (.slice e)
  | expr {e : Expr} (hExpr : e.Plain) : IsSeedText e

/-- The constraint is written with words and seeds that are read back. -/
inductive Constraint.Spelled : Constraint → Prop
  | init : Spelled .init
  | mutable : Spelled .mutable
  | payer {a : Text} (hWord : OneWord a) : Spelled (.payer a)
  | space {n : Int} : Spelled (.space n)
  | seeds {es : List Expr} (hSeeds : ∀ e ∈ es, IsSeedText e) : Spelled (.seeds es)
  | bump : Spelled (.bump none)
  | stored {e : Expr} (hStored : e.Plain) : Spelled (.bump (some e))
  | mint {associated : Bool} {a : Text} (hWord : OneWord a) : Spelled (.mint associated a)
  | authority {associated : Bool} {a : Text} (hWord : OneWord a) : Spelled (.authority associated a)
  | close {a : Text} (hWord : OneWord a) : Spelled (.close a)

def ArgSpelled (a : HandlerArg) : Prop := OneWord a.name ∧ IsType a.type

def StructField.Spelled (f : StructField) : Prop := OneWord f.name ∧ IsType f.type

structure StateStruct.Spelled (s : StateStruct) : Prop where
  name : OneWord s.name
  fields : ∀ f ∈ s.fields, f.Spelled

structure ContextField.Spelled (f : ContextField) : Prop where
  constraints : ∀ c ∈ f.constraints, c.Spelled
  name : OneWord f.name
  type : IsType f.type

structure ContextStruct.Spelled (c : ContextStruct) : Prop where
  name : OneWord c.name
  args : ∀ as, c.args = some as → ∀ a ∈ as, ArgSpelled a
  fields : ∀ f ∈ c.fields, f.Spelled

namespace Reader

variable {α : Type} {p : Reader α} {ls : List Lexeme} {items : List α} {f : α → Text}
  {s t closing : Text} {a : α}

theorem Reads.ended {P : Text → Prop} {sep : Text} (hp : Reads P p s a) (hSep : Writes t sep)
    (hok : ∀ rest, P (t ++ rest)) : Reads Anything (ended sep p) (s ++ t) a :=
  hp.bind (.result (reads_expect hSep) rfl) fun rest _ => hok rest

/-- An element that stands on a line with a comma behind it. -/
theorem Reads.commaLine (hp : Reads (Before ls) p s a) (hComma : .sign 44 ∈ ls) :
    ReadsLines (Reader.ended "," p) [.top (s ++ ",")] a := by
  refine readsLine ?_
  rw [List.append_assoc]
  exact hp.ended (.of_cons rfl rfl rfl) fun _ => ⟨fun _ => rfl, _, _, rfl, hComma⟩

/-- Elements on one line. -/
theorem reads_elements (hItems : ∀ i ∈ items, Reads (Before ls) p (f i) i)
    (hComma : .sign 44 ∈ ls) (hBefore : ∀ rest, Before ls (t ++ rest))
    (hClosing : ∀ ls, lexemes closing <+: ls → p ls = none) (hEnd : Writes t closing)
    (hOther : ∀ ls, ¬[.sign 44] <+: lexemes closing ++ ls) :
    Reads Anything (listed "," closing p) (Text.join ", " (items.map f) ++ t) items := by
  have hList : Reads Anything (listed "," closing p) (Text.join ", " (items.map f) ++ t)
      (items.map id) :=
    reads_listed_join hItems hClosing hEnd (.of_cons rfl rfl rfl)
      (fun _ => ⟨fun _ => rfl, _, _, rfl, hComma⟩) hBefore hOther
  rwa [List.map_id] at hList

/-- Elements on lines of their own, before what closes their list. -/
theorem reads_elementLines (hItems : ∀ i ∈ items, Reads (Before ls) p (f i) i)
    (hComma : .sign 44 ∈ ls) (hClosing : ∀ ls, lexemes closing <+: ls → p ls = none)
    (hEnd : Writes t closing) (d : Nat) :
    Reads Anything (listed "," closing p)
      (renderLines (shifted d ((items.map fun i => Line.top (f i ++ ",")).map Line.deeper)) ++ t)
      items := by
  have hList : Reads Anything (listed "," closing p)
      ((items.flatMap fun i => renderLines (shifted d [Line.deeper (.top (f i ++ ","))])) ++ t)
      (items.map id) :=
    reads_listed (fun i hi => ((hItems i hi).commaLine hComma).deeper d) hClosing hEnd
  have hLines : (items.flatMap fun i => renderLines (shifted d [Line.deeper (.top (f i ++ ","))])) =
      renderLines (shifted d ((items.map fun i => Line.top (f i ++ ",")).map Line.deeper)) := by
    simp only [renderLines, shifted, List.map_map, List.flatMap_map, List.map_cons, List.map_nil,
      List.flatMap_cons, List.flatMap_nil, List.append_nil, Function.comp_apply]
  rwa [List.map_id, hLines] at hList

theorem readsLines_elements (hItems : ∀ i ∈ items, Reads (Before ls) p (f i) i)
    (hComma : .sign 44 ∈ ls) (hClosing : ∀ ls, lexemes closing <+: ls → p ls = none)
    (hEnd : Writes (t ++ [10]) closing) :
    ReadsLines (listed "," closing p)
      ((items.map fun i => Line.top (f i ++ ",")).map Line.deeper ++ [Line.top t]) items := by
  intro d
  rw [shifted, List.map_append, renderLines_append]
  have hLast : renderLines [⟨0 + d, t⟩] = Line.render ⟨0 + d, t⟩ := List.append_nil _
  exact hLast ▸ reads_elementLines hItems hComma hClosing (hEnd.render (0 + d)) d

end Reader

theorem writes_angle : Writes "<'" "<'" := .of_cons rfl rfl rfl

theorem reads_type {t : Text} (h : IsType t) : Reads (Before closers) type t t := by
  cases h with
  | plain hWord =>
    refine ((reads_word hWord).mono fun rest h => h.1).looking fun rest hRest => ?_
    obtain ⟨_, l, r, hLexemes, hl⟩ := hRest
    have hOther : ¬lexemes "<'" <+: lexemes rest := by
      rw [hLexemes]
      refine not_prefix_of_ne (l := .sign 60) ?_
      rintro rfl
      revert hl
      decide
    change (given "<'" >>= _) (lexemes rest) = _
    rw [given_bind_other hOther]
    rfl
  | @borrowed w l hWord hLifetime =>
    simp only [List.append_assoc]
    refine (reads_word hWord).bind (.andThen (reads_given writes_angle) ?_) fun _ _ _ => rfl
    refine (reads_word hLifetime).bind (.notGiven ?_ (.result (reads_expect ?_) ?_)) ?_
    · exact fun rest _ => not_prefix_of_ne (l := .sign 44) (by decide)
    · exact .of_cons rfl rfl rfl
    · simp only [List.append_assoc]
    · exact fun _ _ _ => rfl
  | @generic w l a hWord hLifetime hArg =>
    simp only [List.append_assoc]
    refine (reads_word hWord).bind (.andThen (reads_given writes_angle) ?_) fun _ _ _ => rfl
    refine (reads_word hLifetime).bind (.andThen (reads_given ?_) ?_) fun _ _ _ => rfl
    · exact .of_cons rfl rfl rfl
    · refine (reads_word hArg).bind (.result (reads_expect ?_) ?_) fun _ _ _ => rfl
      · exact .of_cons rfl rfl rfl
      · simp only [List.append_assoc]

theorem isType_kind (k : ValueKind) : IsType k.rust := by
  cases k with
  | int t =>
    obtain ⟨width, signed⟩ := t
    cases width <;> cases signed <;> exact .plain (by decide +kernel)
  | bool | string | pubkey => exact .plain rfl

theorem isType_role {role : Role} (h : ∀ n, role = .state n → OneWord n) : IsType role.rust := by
  have hWord {w : Text} (hWord : OneWord w) : IsType (w ++ "<'info>") := by
    have hType := IsType.borrowed (l := "info") hWord rfl
    simp only [List.append_assoc] at hType
    exact hType
  have hGeneric {w a : Text} (hWord : OneWord w) (hArg : OneWord a) :
      IsType (w ++ "<'info, " ++ a ++ ">") := by
    have hType := IsType.generic (l := "info") hWord rfl hArg
    have hText : w ++ Text.ofString "<'" ++ Text.ofString "info" ++ Text.ofString ", " =
        w ++ Text.ofString "<'info, " := by
      simp only [List.append_assoc]
      rfl
    rwa [hText] at hType
  cases role with
  | signer => exact hWord (w := "Signer") rfl
  | systemAccount => exact hWord (w := "SystemAccount") rfl
  | unchecked => exact hWord (w := "UncheckedAccount") rfl
  | mint => exact hGeneric (w := "Account") (a := "Mint") rfl rfl
  | tokenAccount | associatedToken => exact hGeneric (w := "Account") (a := "TokenAccount") rfl rfl
  | tokenProgram => exact hGeneric (w := "Program") (a := "Token") rfl rfl
  | state n => exact hGeneric (w := "Account") rfl (h n rfl)

theorem seed_of_other {ls : List Lexeme} (h : ∀ l r, ls ≠ .bytes l :: r) :
    seed ls = (do
      if ← given "&[" then
        let e ← Reader.expr
        expect "]"
        return .slice e
      Reader.expr : Reader Expr) ls := by
  unfold seed
  split
  · exact absurd rfl (h _ _)
  · rfl

theorem Expr.Readable.lexemes_cons {e : Expr} (h : e.Readable) {rest : Text} (hRest : Parted rest) :
    ∃ k r, lexemes (e.text ++ rest) = .tok k :: r := by
  obtain ⟨t, hSpells, _⟩ := h
  obtain ⟨k, ks, hTokens, _⟩ := t.exists_tokens_eq_cons
  exact ⟨k, _, by rw [hSpells.lexemes_append hRest, hTokens, List.map_cons, List.cons_append]⟩

theorem Expr.Plain.reads {e : Expr} (h : e.Plain) :
    Reads (Before closers) Reader.expr e.text e := by
  have hRead := reads_expr h.1
  rwa [h.2] at hRead

theorem reads_seed {e : Expr} (h : IsSeedText e) : Reads (Before closers) seed e.text e := by
  cases h with
  | @bytes s =>
    intro rest _
    change seed (lexemes (byteString s ++ rest)) = _ ∧ _ < (lexemes (byteString s ++ rest)).length
    rw [lexemes_byteString]
    refine ⟨?_, Nat.lt_succ_self _⟩
    change (byteStringValue? (byteString s)).map _ = _
    rw [byteStringValue?_byteString]
    rfl
  | @slice e hElement =>
    have hSlice : Reads (Before closers) (do
        if ← given "&[" then
          let e ← Reader.expr
          expect "]"
          return .slice e
        Reader.expr : Reader Expr) (Text.ofString "&[" ++ (e.text ++ Text.ofString "]"))
        (.slice e) := by
      refine .andThen (reads_given (.of_cons rfl rfl rfl)) ?_
      refine hElement.reads.bind (.result (reads_expect (.of_cons rfl rfl rfl)) rfl) ?_
      exact fun rest _ => ⟨fun _ => rfl, _, _, rfl, by decide⟩
    intro rest hRest
    have hText : (Expr.slice e).text ++ rest =
        Text.ofString "&[" ++ (e.text ++ Text.ofString "]") ++ rest := by
      simp [Expr.text]
    rw [hText, seed_of_other]
    · exact hSlice rest hRest
    · exact nofun
  | expr hExpr =>
    intro rest hRest
    obtain ⟨k, r, hLexemes⟩ := hExpr.1.lexemes_cons hRest.1
    have hRead := hExpr.reads rest hRest
    rw [seed_of_other (by rw [hLexemes]; exact nofun)]
    rw [given_bind_other (by rw [hLexemes]; exact not_prefix_of_ne (l := .sign 38) nofun)]
    exact hRead

theorem oneWord_ofNat (n : Nat) : OneWord (Text.ofNat n) :=
  oneWord_of_isWord ⟨Text.ofNat_ne_nil n, fun b hb => isIdentPart_of_isDigit b
    (Json.isDigit_ofNat n b hb)⟩

theorem reads_natural (n : Nat) : Reads Parted natural (Text.ofNat n) n := by
  refine (reads_word (oneWord_ofNat n)).result ?_
  rw [if_pos (List.all_eq_true.mpr (Json.isDigit_ofNat n)), Text.natValue_ofNat]

theorem reads_integer (n : Int) : Reads Parted integer (Text.ofInt n) n := by
  cases n with
  | ofNat n =>
    refine .notGiven (fun rest hRest => ?_) ((reads_natural n).result rfl)
    rw [Text.ofInt, lexemes_word (oneWord_ofNat n) hRest]
    exact not_prefix_of_ne (l := .tok (.op .sub)) (by simp)
  | negSucc n =>
    refine .andThen (s := Text.ofString "-") (t := Text.ofNat (n + 1))
      (reads_given (.of_cons rfl rfl rfl)) ((reads_natural (n + 1)).result rfl)

theorem seed_eq_none {ls : List Lexeme} (h : lexemes "]" <+: ls) : seed ls = none := by
  obtain ⟨r, rfl⟩ := h
  change seed (.sign 93 :: r) = none
  rw [seed_of_other (fun _ _ => by simp)]
  have hOther : ¬lexemes "&[" <+: .sign 93 :: r := not_prefix_of_ne (l := .sign 38) (by decide)
  rw [given_bind_other hOther]
  change Reader.expr (.sign 93 :: r) = none
  simp [Reader.expr, leadingToks, Reading.exprAt, Reading.operand]

namespace Constraint

/-- What can stand behind a constraint. -/
def closers : List Lexeme := [.tok .rparen, .sign 44]

theorem reads_naming {w a : Text} {c : Text → Constraint} (hLookup : naming.lookup w = some c)
    (hw : OneWord w) (ha : OneWord a) :
    Reads (Before closers) constraint (w ++ (Text.ofString " = " ++ a)) (c a) := by
  refine (reads_word hw).bind ?_ fun _ _ _ => rfl
  simp only [hLookup]
  exact .andThen (reads_expect (.of_cons rfl rfl rfl))
    (((reads_word ha).mono fun _ h => h.1).result rfl)

theorem reads_constraint {c : Constraint} (h : c.Spelled) :
    Reads (Before closers) constraint c.text c := by
  cases h with
  | init => exact ((reads_word (w := "init") rfl).mono fun _ h => h.1).result rfl
  | mutable => exact ((reads_word (w := "mut") rfl).mono fun _ h => h.1).result rfl
  | payer hWord => exact reads_naming (w := "payer") rfl rfl hWord
  | @space n =>
    change Reads _ _ (Text.ofString "space" ++ (Text.ofString " = " ++ Text.ofInt n)) _
    refine (reads_word (w := "space") rfl).bind ?_ fun _ _ _ => rfl
    exact .andThen (reads_expect (.of_cons rfl rfl rfl))
      (((reads_integer n).mono fun _ h => h.1).result rfl)
  | @seeds es hSeeds =>
    have hText : (Constraint.seeds es).text = Text.ofString "seeds" ++ (Text.ofString " = [" ++
        (Text.join ", " (es.map Expr.text) ++ Text.ofString "]")) := by
      simp only [Constraint.text, List.append_assoc]
      rfl
    rw [hText]
    refine (reads_word (w := "seeds") rfl).bind ?_ fun _ _ _ => rfl
    refine .andThen (reads_expect (.of_cons rfl rfl rfl)) (.result ?_ rfl)
    exact (reads_elements (t := "]") (fun e he => reads_seed (hSeeds e he)) (by decide)
      (fun _ => ⟨fun _ => rfl, _, _, rfl, by decide⟩) (fun _ => seed_eq_none) (.of_cons rfl rfl rfl)
      fun _ => not_prefix_of_ne nofun).mono fun _ _ => trivial
  | bump =>
    refine ((reads_word (w := "bump") rfl).mono fun _ h => h.1).looking fun rest hRest => ?_
    obtain ⟨_, l, r, hLexemes, hl⟩ := hRest
    change (given "=" >>= _) (lexemes rest) = _
    rw [given_bind_other]
    · rfl
    · rw [hLexemes]
      refine not_prefix_of_ne (l := .sign 61) ?_
      rintro rfl
      revert hl
      decide
  | @stored e hStored =>
    change Reads _ _ (Text.ofString "bump" ++ (Text.ofString " = " ++ e.text)) _
    refine (reads_word (w := "bump") rfl).bind ?_ fun _ _ _ => rfl
    refine .andThen (reads_given (.of_cons rfl rfl rfl)) ?_
    exact (hStored.reads.mono fun _ h => h.mono (by decide)).result rfl
  | @mint associated a hWord =>
    cases associated with
    | false => exact reads_naming (w := "token::mint") rfl rfl hWord
    | true => exact reads_naming (w := "associated_token::mint") rfl rfl hWord
  | @authority associated a hWord =>
    cases associated with
    | false => exact reads_naming (w := "token::authority") rfl rfl hWord
    | true => exact reads_naming (w := "associated_token::authority") rfl rfl hWord
  | close hWord => exact reads_naming (w := "close") rfl rfl hWord

end Constraint

theorem constraint_eq_none {ls : List Lexeme} (h : lexemes ")]" <+: ls) : constraint ls = none := by
  obtain ⟨r, rfl⟩ := h
  rfl

theorem reads_arg {a : HandlerArg} (h : ArgSpelled a) :
    Reads (Before closers) arg (argText a) a := by
  have hText : argText a = a.name ++ (Text.ofString ": " ++ a.type) := List.append_assoc ..
  rw [hText]
  refine (reads_word h.1).bind ?_ fun _ _ _ => rfl
  exact .andThen (reads_expect (.of_cons rfl rfl rfl)) ((reads_type h.2).result rfl)

theorem arg_eq_none {closing : Text} (hFirst : (lexemes closing).head? = some (.tok .rparen))
    {ls : List Lexeme} (h : lexemes closing <+: ls) : arg ls = none := by
  obtain ⟨r, rfl⟩ := h
  obtain ⟨bs, hClosing⟩ := List.head?_eq_some_iff.mp hFirst
  rw [hClosing]
  rfl

theorem reads_structField {f : StructField} (h : f.Spelled) :
    Reads (Before closers) structField
      (Text.ofString "pub " ++ f.name ++ ": " ++ f.type) f := by
  simp only [List.append_assoc]
  refine .andThen (reads_expect (.of_cons rfl rfl rfl)) ?_
  refine (reads_word h.1).bind ?_ fun _ _ _ => rfl
  exact .andThen (reads_expect (.of_cons rfl rfl rfl)) ((reads_type h.2).result rfl)

theorem readsLines_fieldLine {f : StructField} (h : f.Spelled) :
    ReadsLines (Reader.ended "," structField) [fieldLine f.name f.type] f :=
  (reads_structField h).commaLine (by decide)

theorem structField_eq_none {ls : List Lexeme} (h : lexemes "\x7d" <+: ls) :
    structField ls = none := by
  obtain ⟨r, rfl⟩ := h
  rfl

/-- The line that opens a struct, up to what its name is followed by. -/
theorem readsLines_struct {α : Type} {q : Text → Reader α} {name opening t : Text}
    {ls : List Line} {a : α} (hName : OneWord name) (hOpening : Writes t opening)
    (hParted : ∀ rest, Parted (t ++ rest)) (hq : ReadsLines (q name) ls a) :
    ReadsLines (do expect "pub struct"; let name ← word; expect opening; q name)
      (.top (Text.ofString "pub struct " ++ name ++ t) :: ls) a := by
  refine readsLines_cons fun d => ?_
  simp only [List.append_assoc]
  refine .andThen (reads_expect (.of_cons rfl rfl rfl)) ?_
  refine (reads_word hName).bind ?_ fun rest _ => ?_
  · exact .andThen (reads_expect hOpening) (hq d).newline
  · rw [List.append_assoc]
    exact hParted _

theorem StateStruct.Spelled.readsLines {s : StateStruct} (h : s.Spelled) :
    ReadsLines (do expect "#[account]"; stateStruct) s.lines s := by
  refine .andThen (u := [.top "#[account]"]) (readsLine (reads_expect (.of_cons rfl rfl rfl))) ?_
  refine readsLines_struct h.name (.of_cons rfl rfl rfl) (fun _ _ => rfl) (.result ?_ rfl)
  exact readsLines_elements (fun f hf => reads_structField (h.fields f hf)) (by decide)
    (fun _ => structField_eq_none) (.of_cons rfl rfl rfl)

section Constraints

variable {cs : List Constraint} (hSpelled : ∀ c ∈ cs, c.Spelled)

include hSpelled

theorem readsLines_constraintLines (hSome : cs ≠ []) :
    ReadsLines constraints (constraintLines cs) cs := by
  rw [constraintLines, if_neg (mt List.isEmpty_iff.mp hSome)]
  split
  · refine readsLine ?_
    simp only [List.append_assoc]
    refine .andThen (reads_given (.of_cons rfl rfl rfl)) ?_
    exact reads_elements (t := ")]\n")
      (fun c hc => Constraint.reads_constraint (hSpelled c hc)) (by decide)
      (fun _ => ⟨fun _ => rfl, _, _, rfl, by decide⟩) (fun _ => constraint_eq_none)
      (.of_cons rfl rfl rfl) fun _ => not_prefix_of_ne nofun
  · refine readsLines_cons fun d => .andThen (reads_given (.of_cons rfl rfl rfl)) ?_
    have hList := readsLines_elements (t := ")]")
      (fun c hc => Constraint.reads_constraint (hSpelled c hc)) (by decide)
      (fun _ => constraint_eq_none) (.of_cons rfl rfl rfl)
    exact (hList d).newline

theorem readsLines_constraints {α : Type} {q : List Constraint → Reader α} {ls : List Line} {a : α}
    (hq : ReadsLines (q cs) ls a)
    (hOther : ∀ d rest, ¬lexemes "#[account(" <+: lexemes (renderLines (shifted d ls) ++ rest)) :
    ReadsLines (constraints >>= q) (constraintLines cs ++ ls) a := by
  by_cases hNone : cs = []
  · subst hNone
    exact .passing (fun d rest => given_bind_other (hOther d rest) _) hq
  · exact (readsLines_constraintLines hSpelled hNone).andThen hq

end Constraints

theorem ended_contextField : Reader.ended "," contextField = (do
    let cs ← constraints
    let isUnchecked ← given "///"
    let f ← Reader.ended "," structField
    return ⟨cs, isUnchecked, f.name, f.type⟩) := by
  simp only [Reader.ended, contextField, bind_assoc, pure_bind]

theorem not_given {s : Text} {l m : Lexeme} {ls : List Lexeme}
    (h : (lexemes s).head? = some l) (hFirst : ls.head? = some m) (hOther : l ≠ m) :
    ¬lexemes s <+: ls := by
  rintro ⟨r, rfl⟩
  rw [List.head?_append, h] at hFirst
  exact hOther (Option.some.inj hFirst)

theorem lexemes_lines_cons (s : Text) (d : Nat) (ls : List Line) (rest : Text) :
    lexemes (renderLines (shifted d (.top s :: ls)) ++ rest) =
      lexemes (s ++ 10 :: (renderLines (shifted d ls) ++ rest)) := by
  rw [renderLines_shifted_cons, List.append_assoc, lexemes_render]
  rfl

theorem head?_fieldLine (name type : Text) (d : Nat) (rest : Text) :
    (lexemes (renderLines (shifted d [fieldLine name type]) ++ rest)).head? =
      some (.tok (.word "pub")) := by
  have hWord : Closed (Text.ofString "pub ") := rfl
  simp only [fieldLine, lexemes_lines_cons, List.append_assoc, lexemes_append hWord]
  rfl

theorem ContextField.Spelled.readsLines {f : ContextField} (h : f.Spelled) :
    ReadsLines (Reader.ended "," contextField) f.lines f := by
  have hField := readsLines_fieldLine (f := ⟨f.name, f.type⟩) ⟨h.name, h.type⟩
  rw [ended_contextField, ContextField.lines, List.append_assoc]
  obtain ⟨cs, isUnchecked, name, type⟩ := f
  have hFirst := head?_fieldLine name type
  refine readsLines_constraints h.constraints ?_ fun d rest => ?_
  · cases isUnchecked with
    | true => exact .andThen (readsLine (reads_given (.of_cons rfl rfl rfl))) (hField.result rfl)
    | false =>
      exact .passing (fun d rest => given_other (not_given rfl (hFirst d rest) (by decide)))
        (hField.result rfl)
  · cases isUnchecked with
    | true =>
      exact not_given rfl (congrArg List.head? (lexemes_lines_cons _ d _ rest)) (by decide)
    | false => exact not_given rfl (hFirst d rest) (by decide)

theorem contextField_eq_none {ls : List Lexeme} (h : lexemes "\x7d" <+: ls) :
    contextField ls = none := by
  obtain ⟨r, rfl⟩ := h
  rfl

theorem readsLines_contextFields {c : ContextStruct} (h : c.Spelled) :
    ReadsLines (listed "," "\x7d" contextField)
      ((c.fields.flatMap ContextField.lines).map Line.deeper ++ [Line.top "\x7d"]) c.fields := by
  have hList : ReadsLines (listed "," "\x7d" contextField)
      ((c.fields.flatMap ContextField.lines).map Line.deeper ++ [Line.top "\x7d"])
      (c.fields.map id) := by
    rw [List.map_flatMap]
    exact readsLines_listed (fun f hf => (h.fields f hf).readsLines.deeper)
      (fun _ => contextField_eq_none) (.of_cons rfl rfl rfl)
  rwa [List.map_id] at hList

theorem ContextStruct.Spelled.readsLines {c : ContextStruct} (h : c.Spelled) :
    ReadsLines (do expect "#[derive(Accounts)]"; contextStruct) c.lines c := by
  refine .andThen (u := [.top "#[derive(Accounts)]"])
    (readsLine (reads_expect (.of_cons rfl rfl rfl))) ?_
  have hFields (args : Option (List HandlerArg)) :
      ReadsLines (do
          expect "pub struct"
          let name ← word
          expect "<'info> \x7b"
          return ⟨name, args, ← listed "," "\x7d" contextField⟩)
        (enclosed (Text.ofString "pub struct " ++ c.name ++ "<'info> \x7b")
          (c.fields.flatMap ContextField.lines) "\x7d") (⟨c.name, args, c.fields⟩ : ContextStruct) :=
    readsLines_struct h.name (.of_cons rfl rfl rfl) (fun _ _ => rfl)
      ((readsLines_contextFields h).result rfl)
  obtain ⟨name, args, fields⟩ := c
  cases args with
  | none =>
    have hFirst (d : Nat) (rest : Text) : ¬lexemes "#[instruction(" <+: lexemes (renderLines (shifted d
        (enclosed (Text.ofString "pub struct " ++ name ++ "<'info> \x7b")
          (fields.flatMap ContextField.lines) "\x7d")) ++ rest) := by
      have hOpening : Closed (Text.ofString "pub struct ") := rfl
      refine not_given rfl (m := .tok (.word "pub")) ?_ (by decide)
      simp only [enclosed, List.cons_append, lexemes_lines_cons, List.append_assoc,
        lexemes_append hOpening]
      rfl
    exact .passing (fun d rest => given_bind_other (hFirst d rest) _) (hFields none)
  | some as =>
    refine .andThen (u := [_]) (readsLine ?_) (hFields (some as))
    simp only [List.append_assoc]
    refine .andThen (reads_given (.of_cons rfl rfl rfl)) (.result ?_ rfl)
    exact reads_elements (t := ")]\n") (fun a ha => reads_arg (h.args as rfl a ha)) (by decide)
      (fun _ => ⟨fun _ => rfl, _, _, rfl, by decide⟩) (fun _ => arg_eq_none rfl)
      (.of_cons rfl rfl rfl) fun _ => not_prefix_of_ne nofun

end AnchorScript.Rust
