import AnchorScript.Proofs.Syntax.PlacedReading
import AnchorScript.Proofs.Token.StringReplacement
import Mathlib.Data.List.Pairwise

/-!
# One string of a file replaced

No two tokens stand at one position, so no two members of a class share one. A string replaced in a
property therefore changes nothing in the methods, and in the tokens it changes itself alone.
-/

namespace AnchorScript.Syntax

open Outcome

/-- Another literal for the string at one place. -/
def Rewriting.single (place : SourcePos) (literal value : Text)
    (h : StringLiteral.value? literal = some value) : Rewriting where
  literal pos lit :=
    if pos = place ∧ (StringLiteral.value? lit).isSome = true then literal else lit
  value pos s := if pos = place then value else s
  value?_literal pos lit := by
    by_cases hPos : pos = place
    · cases hValue : StringLiteral.value? lit <;> simp [hPos, hValue, h]
    · simp [hPos]

variable {ρ : Rewriting}

/-- The strings at this place keep their value. -/
def Rewriting.Keeps (ρ : Rewriting) (pos : SourcePos) : Prop := ∀ s, ρ.value pos s = s

theorem Rewriting.keeps_single {place pos : SourcePos} {literal value : Text}
    {h : StringLiteral.value? literal = some value} (hPos : pos ≠ place) :
    (Rewriting.single place literal value h).Keeps pos :=
  fun _ => if_neg hPos

theorem Expr.rewritten_of_at {e : Expr} (h : e.At ρ.Keeps) : e.rewritten ρ = e.unplaced := by
  induction h with
  | name | number | bool => rfl
  | string hPos => rw [rewritten, unplaced, hPos]
  | array _ _ ih =>
    rw [rewritten, unplaced, rewrittenAll_eq, unplacedAll_eq, List.map_congr_left ih]
  | construct _ _ ih =>
    rw [rewritten, unplaced, rewrittenAll_eq, unplacedAll_eq, List.map_congr_left ih]
  | paren _ _ ih => rw [rewritten, unplaced, ih]
  | unary _ _ ih => rw [rewritten, unplaced, ih]
  | binary _ _ ihLeft ihRight => rw [rewritten, unplaced, ihLeft, ihRight]
  | assign _ _ ihTarget ihValue => rw [rewritten, unplaced, ihTarget, ihValue]
  | call _ _ ihCallee ih =>
    rw [rewritten, unplaced, rewrittenAll_eq, unplacedAll_eq, ihCallee, List.map_congr_left ih]
  | member _ _ ih => rw [rewritten, unplaced, ih]
  | index _ _ ihObject ihPosition => rw [rewritten, unplaced, ihObject, ihPosition]

theorem Statement.rewritten_of_exprs {s : Statement} (h : ∀ e ∈ s.exprs, e.At ρ.Keeps) :
    s.rewritten ρ = s.unplaced := by
  cases s with
  | binding _ _ _ _ value =>
    rw [rewritten, unplaced, Expr.rewritten_of_at (h value (List.mem_singleton_self _))]
  | expr _ value =>
    rw [rewritten, unplaced, Expr.rewritten_of_at (h value (List.mem_singleton_self _))]
  | ret _ value =>
    cases value with
    | none => rfl
    | some e =>
      rw [rewritten, unplaced, Option.map_some, Option.map_some,
        Expr.rewritten_of_at (h e (List.mem_singleton_self _))]

theorem MethodDecl.rewritten_of_exprs {m : MethodDecl} (h : ∀ e ∈ m.exprs, e.At ρ.Keeps) :
    m.rewritten ρ = m.unplaced := by
  have hBody : m.body.map (Statement.rewritten ρ) = m.body.map Statement.unplaced :=
    List.map_congr_left fun s hs =>
      Statement.rewritten_of_exprs fun e he => h e (List.mem_flatMap.mpr ⟨s, hs, he⟩)
  rw [rewritten, hBody]
  rfl

theorem Expr.At.mono {P Q : SourcePos → Prop} (hPQ : ∀ pos, P pos → Q pos) {e : Expr}
    (h : e.At P) : e.At Q := by
  induction h with
  | name hPos => exact .name (hPQ _ hPos)
  | number hPos => exact .number (hPQ _ hPos)
  | string hPos => exact .string (hPQ _ hPos)
  | bool hPos => exact .bool (hPQ _ hPos)
  | array hPos _ ih => exact .array (hPQ _ hPos) ih
  | construct hPos _ ih => exact .construct (hPQ _ hPos) ih
  | paren hPos _ ih => exact .paren (hPQ _ hPos) ih
  | unary hPos _ ih => exact .unary (hPQ _ hPos) ih
  | binary _ _ ihLeft ihRight => exact .binary ihLeft ihRight
  | assign _ _ ihTarget ihValue => exact .assign ihTarget ihValue
  | call _ _ ihCallee ih => exact .call ihCallee ih
  | member _ hPos ih => exact .member ih (hPQ _ hPos)
  | index _ _ ihObject ihPosition => exact .index ihObject ihPosition

namespace Parser

variable {ts : List Token}

/-- No two of the tokens stand at one position. -/
def Distinct (ts : List Token) : Prop := (ts.map Token.pos).Nodup

theorem Distinct.suffix {ts' : List Token} (h : Distinct ts) (hts : ts' <:+ ts) : Distinct ts' :=
  h.sublist (hts.sublist.map Token.pos)

/-- An expression stands at its own tokens and at none of those behind it. -/
theorem ReadBetween.at {stop : List Token} {e : Expr} (h : ReadBetween ts stop e)
    (hts : Distinct ts) : e.At fun pos => pos ∈ ts.map Token.pos ∧ pos ∉ stop.map Token.pos := by
  obtain ⟨ts', rest, hSuffix, hStop, hYields⟩ := h
  obtain ⟨used, hUsed, hSpelled, _⟩ := exprAt_spelled (by decide) hYields
  refine at_of_spelledBy hSpelled fun t ht => ⟨?_, fun hMem => ?_⟩
  · have hMem : t ∈ ts' := hUsed ▸ List.mem_append_left rest ht
    exact List.mem_map_of_mem (hSuffix.subset hMem)
  · have hDistinct := hts.suffix hSuffix
    rw [hUsed, Distinct, List.map_append] at hDistinct
    obtain ⟨t', ht', hSame⟩ := List.mem_map.mp hMem
    exact (List.nodup_append.mp hDistinct).2.2 _ (List.mem_map_of_mem ht) _
      (List.mem_map_of_mem (hStop.subset ht')) hSame.symm

/-- Some property of positions holds everywhere in one member and nowhere in the other. -/
def Member.Apart (m m' : Member) : Prop :=
  ∃ Q : SourcePos → Prop, (∀ e ∈ m.exprs, e.At Q) ∧ ∀ e ∈ m'.exprs, e.At fun pos => ¬ Q pos

instance : Std.Symm Member.Apart where
  symm _ _ := by
    rintro ⟨Q, hm, hm'⟩
    exact ⟨fun pos => ¬ Q pos, hm', fun e he => (hm e he).mono fun _ hPos => not_not.mpr hPos⟩

theorem members_apart {ts : List Token} (hts : Distinct ts) {p : Parsed (List Member) ts.length}
    (h : members ts = .ok p) : p.value.Pairwise Member.Apart := by
  match ts, p, h with
  | [], p, h =>
    rw [members] at h
    cases h
  | t :: r, p, h =>
    rw [members] at h
    split at h
    · cases h
      exact .nil
    · split at h
      · cases h
      · split at h
        · simp only [bind_eq_ok_iff, pure_eq_ok_iff] at h
          obtain ⟨⟨ms, r₁, h₁⟩, hRest, rfl⟩ := h
          exact members_apart (hts.suffix (List.suffix_cons t r)) hRest
        · simp only [bind_eq_ok_iff, pure_eq_ok_iff] at h
          obtain ⟨⟨m, r₁, h₁⟩, hFirst, ⟨ms, r₂, h₂⟩, hRest, rfl⟩ := h
          have hLength : r₁.length < (t :: r).length := h₁
          obtain ⟨hRead, hSuffix⟩ := member_read hFirst
          have hDistinct := hts.suffix hSuffix
          refine List.pairwise_cons.mpr ⟨fun m' hm' => ?_, members_apart hDistinct hRest⟩
          refine ⟨fun pos => pos ∉ r₁.map Token.pos, fun e he => ?_, fun e he => ?_⟩
          · exact ((hRead e he).at hts).mono fun _ hPos => hPos.2
          · obtain ⟨ts', q, hts', hq, rfl⟩ := (members_read hRest).1 m' hm'
            refine (((member_read hq).1 e he).at (hDistinct.suffix hts')).mono fun pos hPos => ?_
            exact not_not.mpr ((hts'.sublist.map Token.pos).subset hPos.1)
termination_by ts.length
decreasing_by all_goals simp only [List.length_cons] at *; omega

theorem classDecl_apart (hts : Distinct ts) {isExported isDefault : Bool}
    {p : Parsed ClassDecl ts.length} (h : classDecl isExported isDefault ts = .ok p) :
    ∀ d ∈ p.value.properties, ∀ m ∈ p.value.methods,
      Member.Apart (.property d) (.method m) := by
  simp only [classDecl, bind_eq_ok_iff, pure_eq_ok_iff] at h
  obtain ⟨⟨word, r, hr⟩, hWord, ⟨name, r₁, h₁⟩, hName, ⟨_, r₂, h₂⟩, hOpen, ⟨ms, r₃, h₃⟩,
    hMembers, rfl⟩ := h
  have hSuffix := ((take_suffix hOpen).trans (take_suffix hName)).trans (take_suffix hWord)
  have hApart := members_apart (hts.suffix hSuffix) hMembers
  intro d hd m hm
  obtain ⟨member, hMember, hProperty⟩ := List.mem_filterMap.mp hd
  obtain ⟨member', hMember', hMethod⟩ := List.mem_filterMap.mp hm
  cases member with
  | method => cases hProperty
  | property d' =>
    cases hProperty
    cases member' with
    | property => cases hMethod
    | method m' =>
      cases hMethod
      exact hApart.forall hMember hMember' (by simp)

theorem declaration_apart (hts : Distinct ts) {p : Parsed Declaration ts.length}
    (h : declaration ts = .ok p) {c : ClassDecl} (hc : p.value = .cls c) :
    ∀ d ∈ c.properties, ∀ m ∈ c.methods, Member.Apart (.property d) (.method m) := by
  simp only [declaration] at h
  split at h
  · simp only [bind_eq_ok_iff, pure_eq_ok_iff] at h
    obtain ⟨⟨c', r₁, h₁⟩, hClass, rfl⟩ := h
    cases hc
    exact classDecl_apart (hts.suffix (exportWords_suffix ts)) hClass
  · split at h
    · cases h
    · simp only [bind_eq_ok_iff, pure_eq_ok_iff] at h
      obtain ⟨⟨i, r₁, h₁⟩, hInterface, rfl⟩ := h
      cases hc
  · cases h
  · cases h

theorem file_apart (hts : Distinct ts) {f : File} (h : file ts = .ok f) :
    ∀ c ∈ f.classes, ∀ d ∈ c.properties, ∀ m ∈ c.methods,
      Member.Apart (.property d) (.method m) := by
  simp only [file, bind_eq_ok_iff, pure_eq_ok_iff] at h
  obtain ⟨⟨imports, r, hr⟩, hImports, ds, hDeclarations, rfl⟩ := h
  intro c hc
  obtain ⟨d, hd, hClass⟩ := List.mem_filterMap.mp hc
  obtain ⟨ts', q, hts', hq, hSame⟩ := declarations_read hDeclarations d hd
  cases d with
  | interface => cases hClass
  | cls c' =>
    cases hClass
    exact declaration_apart (hts.suffix (hts'.trans (importDecls_suffix hImports))) hq hSame

/-- The string in a constructor call was a token. -/
theorem ReadFrom.exists_string {pos place : SourcePos} {className s : Text}
    (h : ReadFrom ts (.construct pos className [.string place s])) :
    ∃ t ∈ ts, t.kind = .string ∧ t.pos = place ∧ StringLiteral.value? t.literal = some s := by
  obtain ⟨ts', rest, hSuffix, hYields⟩ := h
  obtain ⟨used, hUsed, hSpelled, _⟩ := exprAt_spelled (by decide) hYields
  generalize hExpr : Expr.construct pos className [.string place s] = e at hSpelled
  cases hSpelled with
  | @construct t name opening args cs _ _ _ hArgs hList =>
    injection hExpr with _ _ hArg
    obtain ⟨⟨e, part⟩, hSingle, hString⟩ := List.map_eq_singleton_iff.mp hArg.symm
    subst hSingle
    have hPart := hArgs (e, part) (List.mem_singleton_self _)
    dsimp only at hPart hString
    rw [hString] at hPart
    cases hPart with
    | @string t' _ hKind hValue =>
      have hMem : t' ∈ cs := hList.subset _ (List.mem_singleton_self _) (List.mem_singleton_self _)
      refine ⟨t', hSuffix.subset ?_, hKind, rfl, hValue⟩
      rw [hUsed]
      exact List.mem_append_left rest (by simp [hMem])
  | _ => cases hExpr

end Parser

/-- In the class with a string of its one property replaced, the methods are what they were. -/
theorem ClassDecl.rewritten_single {c : ClassDecl} {d : PropertyDecl} {pos place : SourcePos}
    {className s literal value : Text} {hLiteral : StringLiteral.value? literal = some value}
    (hProperties : c.properties = [d])
    (hValue : d.value = .construct pos className [.string place s])
    (hApart : ∀ m ∈ c.methods, Parser.Member.Apart (.property d) (.method m)) :
    c.rewritten (.single place literal value hLiteral) =
      ClassDecl.unplaced { c with
        properties := [{ d with value := .construct pos className [.string place value] }] } := by
  have hMethods : c.methods.map (MethodDecl.rewritten (.single place literal value hLiteral)) =
      c.methods.map MethodDecl.unplaced := by
    refine List.map_congr_left fun m hm => MethodDecl.rewritten_of_exprs fun e he => ?_
    obtain ⟨Q, hHere, hThere⟩ := hApart m hm
    have hPlace : Q place := by
      have hAt := hHere d.value (List.mem_singleton_self _)
      rw [hValue] at hAt
      cases hAt with
      | construct _ hArgs => exact (hArgs _ (List.mem_singleton_self _)).pos
    refine (hThere e he).mono fun pos' hPos => Rewriting.keeps_single ?_
    rintro rfl
    exact hPos hPlace
  rw [rewritten, unplaced, hMethods, hProperties]
  simp [PropertyDecl.rewritten, PropertyDecl.unplaced, hValue, Expr.rewritten, Expr.rewrittenAll,
    Expr.unplaced, Rewriting.single]

/-- A file whose tokens are those of another with strings rewritten declares what that one does,
with these strings rewritten. -/
theorem file_of_token_eq {ρ : Rewriting} {ts ts' : List Token} {f : File}
    (hTokens : ts'.map Token.unplaced = ts.map ρ.token) (h : Parser.file ts = .ok f) :
    ∃ f', Parser.file ts' = .ok f' ∧
      f'.unplaced.classes = f.classes.map (ClassDecl.rewritten ρ) ∧
      f'.unplaced.interfaces = f.interfaces.map InterfaceDecl.unplaced := by
  have hRight := Parser.file_alike ts'
  rw [hTokens] at hRight
  have hAgree := Agree.meet (Parser.file_agree (ρ := ρ) ts) hRight
  rw [h] at hAgree
  generalize Parser.file ts' = x at hAgree ⊢
  cases hAgree with
  | ok hSame =>
    obtain ⟨_, ⟨_, hClasses, hInterfaces⟩, rfl⟩ := hSame
    exact ⟨_, rfl, hClasses, hInterfaces⟩

theorem unplaced_tokensFrom (l l' : Location) (s : Text) :
    (Lexer.tokensFrom l s).map Token.unplaced = (Lexer.tokensFrom l' s).map Token.unplaced := by
  fun_induction Lexer.tokensFrom l s generalizing l' with
  | case1 l s gap start h =>
    rw [Lexer.tokensFrom_of_blanks_nil l' h]
    rfl
  | case2 l s gap start c r h k stop newline ih =>
    rw [Lexer.tokensFrom_of_blanks_cons l' h, List.map_cons, List.map_cons, ih]
    rfl

theorem map_token_single {before behind : List Token} {t : Token} {literal value : Text}
    (hDistinct : Parser.Distinct (before ++ t :: behind)) (hKind : t.kind = .string)
    (hClosed : (StringLiteral.value? t.literal).isSome = true)
    (h : StringLiteral.value? literal = some value) :
    (before ++ t :: behind).map (Rewriting.single t.pos literal value h).token =
      before.map Token.unplaced ++ { t.unplaced with literal } :: behind.map Token.unplaced := by
  have hOther {t' : Token} (hPos : t'.pos ≠ t.pos) :
      (Rewriting.single t.pos literal value h).token t' = t'.unplaced := by
    simp [Rewriting.token, Rewriting.single, hPos, Token.unplaced]
  have hHere : (Rewriting.single t.pos literal value h).token t =
      { t.unplaced with literal } := by
    simp [Rewriting.token, Rewriting.single, hKind, hClosed]
  rw [Parser.Distinct, List.map_append, List.map_cons, List.nodup_append, List.nodup_cons]
    at hDistinct
  obtain ⟨_, ⟨hBehind, _⟩, hBefore⟩ := hDistinct
  rw [List.map_append, List.map_cons, hHere]
  congr 1
  · refine List.map_congr_left fun t' ht' => hOther ?_
    exact hBefore _ (List.mem_map_of_mem ht') _ List.mem_cons_self
  · congr 1
    refine List.map_congr_left fun t' ht' => hOther fun hSame => ?_
    exact hBehind (hSame ▸ List.mem_map_of_mem ht')

theorem tokens_replaced {pre old new rest value : Text} {q : UInt8}
    (hq : Lexer.isQuote q = true)
    (hOpens : ∃ t ∈ tokens (pre ++ q :: (old ++ q :: rest)), t.start = Location.start.after pre)
    (hOld : Lexer.stringLength q (old ++ q :: rest) = old.length + 1)
    (hOldValue : (StringLiteral.value? (q :: (old ++ [q]))).isSome = true)
    (hNew : Lexer.stringLength q (new ++ q :: rest) = new.length + 1)
    (hNewValue : StringLiteral.value? (q :: (new ++ [q])) = some value) :
    (tokens (pre ++ q :: (new ++ q :: rest))).map Token.unplaced =
      (tokens (pre ++ q :: (old ++ q :: rest))).map
        (Rewriting.single (Location.start.after pre).pos _ value hNewValue).token := by
  obtain ⟨before, newline, hTokens⟩ := Lexer.exists_tokens_before_string hq hOpens
  have hDistinct := nodup_pos_tokens (pre ++ q :: (old ++ q :: rest))
  rw [tokens, hTokens, Lexer.stringTokens_of_length hOld] at hDistinct
  have hToken := map_token_single hDistinct rfl hOldValue hNewValue
  rw [tokens, tokens, hTokens, hTokens, Lexer.stringTokens_of_length hOld,
    Lexer.stringTokens_of_length hNew, List.map_append, List.map_cons,
    unplaced_tokensFrom _ ((Location.start.after pre).after (q :: (old ++ [q]))) rest]
  exact hToken.symm

end AnchorScript.Syntax
