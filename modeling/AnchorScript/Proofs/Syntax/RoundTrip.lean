import AnchorScript.Proofs.Syntax.Files
import AnchorScript.Proofs.Syntax.Placement
import AnchorScript.Proofs.Syntax.Precedence
import AnchorScript.Proofs.Token.Scanning
import AnchorScript.Syntax.Printer

/-!
# Printing an expression and reading it again

The text of an expression scans as the tokens of that expression, each at a new place. So an
expression that was read from a source, printed and read again is the same up to positions, provided
its strings hold nothing that quoting writes in a way the reader of string literals does not know.
-/

namespace AnchorScript.Syntax

open Lexer

namespace Expr

/-- The expressions directly under this one. -/
def children : Expr → List Expr
  | .name .. | .number .. | .string .. | .bool .. => []
  | .array _ elems => elems
  | .construct _ _ args => args
  | .paren _ inner => [inner]
  | .unary _ _ operand => [operand]
  | .binary _ left right => [left, right]
  | .assign target value => [target, value]
  | .call callee args => callee :: args
  | .member object _ _ => [object]
  | .index object position => [object, position]

/-- The expression stands in `whole`, at any depth. -/
inductive Within (e : Expr) : Expr → Prop
  | self : Within e e
  | under {part whole : Expr} (hPart : part ∈ whole.children) (h : Within e part) : Within e whole

mutual

/-- The values of the strings in an expression. -/
def strings : Expr → List Text
  | .name .. | .number .. | .bool .. => []
  | .string _ value => [value]
  | .array _ elems => stringsAll elems
  | .construct _ _ args => stringsAll args
  | .paren _ inner => inner.strings
  | .unary _ _ operand => operand.strings
  | .binary _ left right => left.strings ++ right.strings
  | .assign target value => target.strings ++ value.strings
  | .call callee args => callee.strings ++ stringsAll args
  | .member object _ _ => object.strings
  | .index object position => object.strings ++ position.strings

def stringsAll : List Expr → List Text
  | [] => []
  | e :: es => e.strings ++ stringsAll es

end

theorem strings_subset_stringsAll {e : Expr} {es : List Expr} (h : e ∈ es) :
    e.strings ⊆ stringsAll es := by
  induction es with
  | nil => cases h
  | cons e' es ih =>
    intro value hValue
    rcases List.mem_cons.mp h with rfl | h
    · exact List.mem_append_left _ hValue
    · exact List.mem_append_right _ (ih h hValue)

theorem strings_subset {e part : Expr} (h : part ∈ e.children) : part.strings ⊆ e.strings := by
  intro value hValue
  cases e with
  | name | number | string | bool => cases h
  | array => exact strings_subset_stringsAll h hValue
  | construct => exact strings_subset_stringsAll h hValue
  | paren | unary | member => exact List.mem_singleton.mp h ▸ hValue
  | binary | assign | index =>
    rcases List.mem_pair.mp h with rfl | rfl
    · exact List.mem_append_left _ hValue
    · exact List.mem_append_right _ hValue
  | call =>
    rcases List.mem_cons.mp h with rfl | h
    · exact List.mem_append_left _ hValue
    · exact List.mem_append_right _ (strings_subset_stringsAll h hValue)

section Text

variable (pos : SourcePos)

theorem text_array (elems : List Expr) :
    (Expr.array pos elems).text = "[" ++ listText elems ++ "]" := rfl

theorem text_construct (name : Text) (args : List Expr) :
    (Expr.construct pos name args).text = "new " ++ name ++ "(" ++ listText args ++ ")" := rfl

theorem text_paren (inner : Expr) : (Expr.paren pos inner).text = "(" ++ inner.text ++ ")" := rfl

theorem text_unary (op : UnaryOp) (operand : Expr) :
    (Expr.unary pos op operand).text = op.text ++ operand.text := rfl

theorem text_binary (op : BinaryOp) (left right : Expr) :
    (Expr.binary op left right).text = left.text ++ " " ++ op.text ++ " " ++ right.text := rfl

theorem text_assign (target value : Expr) :
    (Expr.assign target value).text = target.text ++ " = " ++ value.text := rfl

theorem text_call (callee : Expr) (args : List Expr) :
    (Expr.call callee args).text = callee.text ++ "(" ++ listText args ++ ")" := rfl

theorem text_member (object : Expr) (field : Text) :
    (Expr.member object pos field).text = object.text ++ "." ++ field := rfl

theorem text_index (object position : Expr) :
    (Expr.index object position).text = object.text ++ "[" ++ position.text ++ "]" := rfl

end Text

/-- Every string in the expression is plain text. -/
def PlainStrings (e : Expr) : Prop := ∀ value ∈ e.strings, ∀ b ∈ value, isPlain b = true

theorem PlainStrings.child {e part : Expr} (h : e.PlainStrings) (hPart : part ∈ e.children) :
    part.PlainStrings :=
  fun value hValue => h value (strings_subset hPart hValue)

/-- The text scans as the tokens of the expression, and what follows it is scanned by itself. -/
structure PrintsBack (e : Expr) : Prop where
  begins : ∃ c r, e.text = c :: r ∧ c ≠ 61
  scans : ∀ {rest}, Apart rest → ∀ l, ∃ (e' : Expr) (ts : List Token) (l' : Location),
    tokensFrom l (e.text ++ rest) = ts ++ tokensFrom l' rest ∧
      e'.SpelledBy ts ∧ e'.Stratified ∧ e'.unplaced = e.unplaced

theorem begins_of_beginsWord {first : UInt8 → Bool} {w : Text} (h : BeginsWord first w)
    (hFirst : ∀ b, first b = true → isIdentPart b = true) (rest : Text) :
    ∃ c r, w ++ rest = c :: r ∧ c ≠ 61 := by
  obtain ⟨c, r, rfl, hc, _⟩ := h
  exact ⟨c, r ++ rest, rfl, (begins_of_isIdentPart (hFirst c hc)).2.2.2⟩

theorem begins_append {s : Text} (rest : Text) (h : ∃ c r, s = c :: r ∧ c ≠ 61) :
    ∃ c r, s ++ rest = c :: r ∧ c ≠ 61 := by
  obtain ⟨c, r, rfl, hc⟩ := h
  exact ⟨c, r ++ rest, rfl, hc⟩

/-- Expressions between brackets, separated by commas. -/
theorem scans_listText {closing : Punct} (hClosing : isSingle closing = true) {es : List Expr}
    (hParts : ∀ e ∈ es, e.PrintsBack) (rest : Text) (l : Location) :
    ∃ (parts : List (Expr × List Token)) (ts : List Token) (l' : Location),
      tokensFrom l (listText es ++ (closing.text ++ rest)) = ts ++ tokensFrom l' rest ∧
        (∀ e ∈ parts, e.1.SpelledBy e.2) ∧ (∀ e ∈ parts.map Prod.fst, e.Stratified) ∧
        Separated closing (parts.map Prod.snd) ts ∧
        (parts.map Prod.fst).map unplaced = es.map unplaced := by
  induction es generalizing l with
  | nil =>
    obtain ⟨close, l', hKind, _, _, hTokens⟩ := scans_single hClosing rest l
    exact ⟨[], [close], l', hTokens, by simp, by simp, .nil hKind, rfl⟩
  | cons e es ih =>
    obtain ⟨hFirst, hOthers⟩ := List.forall_mem_cons.mp hParts
    cases es with
    | nil =>
      obtain ⟨e', ts, l₁, hTokens, hSpelled, hStratified, hSame⟩ :=
        hFirst.scans (apart_single hClosing rest) l
      obtain ⟨close, l', hKind, _, _, hClose⟩ := scans_single hClosing rest l₁
      refine ⟨[(e', ts)], ts ++ [close], l', ?_, by simpa using hSpelled, by simpa using hStratified,
        .last hKind, by simpa using hSame⟩
      rw [listText, hTokens, hClose, List.append_assoc]
      rfl
    | cons e₂ es =>
      have hText : listText (e :: e₂ :: es) ++ (closing.text ++ rest) =
          e.text ++ (Punct.comma.text ++ 32 :: (listText (e₂ :: es) ++ (closing.text ++ rest))) := by
        simp [listText, List.append_assoc]
        rfl
      obtain ⟨e', ts, l₁, hTokens, hSpelled, hStratified, hSame⟩ :=
        hFirst.scans (apart_single (p := .comma) rfl _) l
      obtain ⟨comma, l₂, hKind, _, _, hComma⟩ := scans_single (p := .comma) rfl
        (32 :: (listText (e₂ :: es) ++ (closing.text ++ rest))) l₁
      obtain ⟨parts, ts', l', hRest, hParts', hAll, hList, hSames⟩ := ih hOthers (l₂.next 32)
      refine ⟨(e', ts) :: parts, ts ++ comma :: ts', l', ?_,
        List.forall_mem_cons.mpr ⟨hSpelled, hParts'⟩,
        List.forall_mem_cons.mpr ⟨hStratified, hAll⟩, .cons hKind hList, ?_⟩
      · rw [hText, hTokens, hComma, tokensFrom_space, hRest, List.append_assoc]
        rfl
      · simp [hSame, hSames]

/-- Expressions through both brackets. -/
theorem scans_bracketed (opening closing : Punct) (hOpening : isSingle opening = true)
    (hClosing : isSingle closing = true) {es : List Expr} (hParts : ∀ e ∈ es, e.PrintsBack)
    (rest : Text) (l : Location) :
    ∃ (parts : List (Expr × List Token)) (t : Token) (ts : List Token) (l' : Location),
      tokensFrom l (opening.text ++ (listText es ++ (closing.text ++ rest))) =
        t :: ts ++ tokensFrom l' rest ∧
      (t.kind = .punct opening ∧ t.newlineBefore = false) ∧
      (∀ e ∈ parts, e.1.SpelledBy e.2) ∧ (∀ e ∈ parts.map Prod.fst, e.Stratified) ∧
      Separated closing (parts.map Prod.snd) ts ∧
      (parts.map Prod.fst).map unplaced = es.map unplaced := by
  obtain ⟨t, l₁, hKind, _, hLine, hFirst⟩ := scans_single hOpening
    (listText es ++ (closing.text ++ rest)) l
  obtain ⟨parts, ts, l', hTokens, hRest⟩ := scans_listText hClosing hParts rest l₁
  exact ⟨parts, t, ts, l', by rw [hFirst, hTokens]; rfl, ⟨hKind, hLine⟩, hRest⟩

/-- One expression through both brackets. -/
theorem PrintsBack.scans_enclosed {e : Expr} (h : e.PrintsBack) (opening closing : Punct)
    (hOpening : isSingle opening = true) (hClosing : isSingle closing = true) (rest : Text)
    (l : Location) :
    ∃ (e' : Expr) (t close : Token) (ts : List Token) (l' : Location),
      tokensFrom l (opening.text ++ (e.text ++ (closing.text ++ rest))) =
        t :: (ts ++ [close]) ++ tokensFrom l' rest ∧
      (t.kind = .punct opening ∧ t.newlineBefore = false) ∧ close.kind = .punct closing ∧
      e'.SpelledBy ts ∧ e'.Stratified ∧ e'.unplaced = e.unplaced := by
  obtain ⟨t, l₁, hKind, _, hLine, hFirst⟩ := scans_single hOpening
    (e.text ++ (closing.text ++ rest)) l
  obtain ⟨e', ts, l₂, hTokens, hRest⟩ := h.scans (apart_single hClosing rest) l₁
  obtain ⟨close, l', hClose, _, _, hLast⟩ := scans_single hClosing rest l₂
  refine ⟨e', t, close, ts, l', ?_, ⟨hKind, hLine⟩, hClose, hRest⟩
  rw [hFirst, hTokens, hLast]
  simp

/-- An expression of one token. -/
theorem PrintsBack.of_token {e : Expr} {kind : TokenKind} {literal : Text}
    (hBegins : ∃ c r, e.text = c :: r ∧ c ≠ 61)
    (hScans : ∀ {rest}, Apart rest → Scans e.text rest kind literal)
    (hLeaf : ∀ t : Token, t.kind = kind → t.literal = literal →
      ∃ e' : Expr, e'.SpelledBy [t] ∧ e'.Stratified ∧ e'.unplaced = e.unplaced) :
    e.PrintsBack where
  begins := hBegins
  scans hRest l := by
    obtain ⟨t, l', hKind, hLiteral, _, hTokens⟩ := hScans hRest l
    obtain ⟨e', hSpelled, hStratified, hSame⟩ := hLeaf t hKind hLiteral
    exact ⟨e', [t], l', hTokens, hSpelled, hStratified, hSame⟩

theorem exists_punct_of_infix {k : TokenKind} {op : BinaryOp}
    (h : Parser.Infix.ofKind? k = some (.op op)) : ∃ p, k = .punct p ∧ p.text = op.text := by
  unfold Parser.Infix.ofKind? at h
  split at h <;> cases h <;> exact ⟨_, rfl, rfl⟩

theorem exists_punct_of_unary {k : TokenKind} {op : UnaryOp} (h : Parser.unaryOp? k = some op) :
    ∃ p, k = .punct p ∧ p.text = op.text ∧
      ∀ {c : UInt8} {rest : Text}, c ≠ 61 → Scans p.text (c :: rest) (.punct p) p.text := by
  unfold Parser.unaryOp? at h
  split at h
  · cases h
    exact ⟨_, rfl, rfl, fun _ => scans_single rfl _⟩
  · cases h
    exact ⟨_, rfl, rfl, scans_bang⟩
  · cases h

/-- A member's name may be a keyword. -/
theorem scans_memberName {t : Token} (h : t.Spelled) (hName : t.isName = true) {rest : Text}
    (hRest : Apart rest) (l : Location) :
    ∃ (t' : Token) (l' : Location), t'.isName = true ∧ t'.literal = t.literal ∧
      tokensFrom l (t.literal ++ rest) = t' :: tokensFrom l' rest := by
  cases hKind : t.kind with
  | ident =>
    simp only [Token.Spelled, hKind] at h
    obtain ⟨t', l', hKind', hLiteral, _, hTokens⟩ := scans_ident h.1 h.2 hRest l
    exact ⟨t', l', by rw [Token.isName, hKind'], hLiteral, hTokens⟩
  | keyword k =>
    simp only [Token.Spelled, hKind] at h
    obtain ⟨t', l', hKind', hLiteral, _, hTokens⟩ := scans_keyword h.1 h.2 hRest l
    exact ⟨t', l', by rw [Token.isName, hKind'], hLiteral, hTokens⟩
  | illegal | endOfInput | number | string | punct =>
    rw [Token.isName, hKind] at hName
    cases hName

/-- Two operands with a spaced operator between them. -/
theorem scans_infix {left right : Expr} (hLeft : left.PrintsBack) (hRight : right.PrintsBack)
    (p : Punct) {rest : Text} (hRest : Apart rest) (l : Location) :
    ∃ (left' right' : Expr) (t : Token) (ls rs : List Token) (l' : Location),
      tokensFrom l (left.text ++ (32 :: (p.text ++ (32 :: (right.text ++ rest))))) =
        ls ++ t :: rs ++ tokensFrom l' rest ∧
      t.kind = .punct p ∧ (left'.SpelledBy ls ∧ left'.Stratified ∧ left'.unplaced = left.unplaced) ∧
      (right'.SpelledBy rs ∧ right'.Stratified ∧ right'.unplaced = right.unplaced) := by
  obtain ⟨left', ls, l₁, hLeftTokens, hLeft⟩ := hLeft.scans (apart_cons (c := 32) _ (by decide)) l
  obtain ⟨t, l₂, hKind, _, _, hOp⟩ := scans_spaced p (right.text ++ rest) (l₁.next 32)
  obtain ⟨right', rs, l', hRightTokens, hRight⟩ := hRight.scans hRest (l₂.next 32)
  refine ⟨left', right', t, ls, rs, l', ?_, hKind, hLeft, hRight⟩
  rw [hLeftTokens, tokensFrom_space, hOp, tokensFrom_space, hRightTokens]
  simp

theorem printsBack_parts {closing : Punct} {parts : List (Expr × List Token)} {ts : List Token}
    (hList : Separated closing (parts.map Prod.snd) ts)
    (ih : ∀ e ∈ parts, e.1.Stratified → (∀ t ∈ e.2, t.Spelled) → e.1.PlainStrings →
      e.1.PrintsBack)
    (hStratified : ∀ e ∈ parts.map Prod.fst, e.Stratified) (hts : ∀ t ∈ ts, t.Spelled)
    (hPlain : ∀ e ∈ parts.map Prod.fst, e.PlainStrings) :
    ∀ e ∈ parts.map Prod.fst, e.PrintsBack := by
  refine List.forall_mem_map.mpr fun e he => ih e he ?_ ?_ ?_
  · exact hStratified e.1 (List.mem_map_of_mem he)
  · intro t ht
    exact hts t (hList.subset e.2 (List.mem_map_of_mem he) ht)
  · exact hPlain e.1 (List.mem_map_of_mem he)

namespace PrintsBack

variable {pos : SourcePos}

theorem string {value : Text} (h : ∀ b ∈ value, isPlain b = true) :
    (Expr.string pos value).PrintsBack := by
  refine .of_token ⟨34, _, rfl, by decide⟩ (fun _ => scans_quoted h _) ?_
  intro t hKind hLiteral
  have hValue : StringLiteral.value? t.literal = some value := by rw [hLiteral, value?_quoted h]
  exact ⟨.string t.pos value, .string hKind hValue, .string, rfl⟩

theorem bool {value : Bool} : (Expr.bool pos value).PrintsBack := by
  have hWord : BeginsWord isIdentStart (Expr.bool pos value).text := by
    cases value
    · exact ⟨102, "alse", rfl, by decide, by decide +kernel⟩
    · exact ⟨116, "rue", rfl, by decide, by decide +kernel⟩
  have hName : Keyword.ofText? (Expr.bool pos value).text =
      some (if value then .kwTrue else .kwFalse) := by
    cases value <;> rfl
  have hBegins := begins_of_beginsWord hWord isIdentPart_of_isIdentStart []
  rw [List.append_nil] at hBegins
  refine .of_token hBegins (fun hRest => scans_keyword hWord hName hRest) ?_
  intro t hKind _
  exact ⟨.bool t.pos value, .bool hKind, .bool, rfl⟩

theorem array {elems : List Expr} (hParts : ∀ e ∈ elems, e.PrintsBack) :
    (Expr.array pos elems).PrintsBack := by
  refine ⟨⟨91, _, rfl, by decide⟩, fun {rest} _ l => ?_⟩
  obtain ⟨parts, opening, ts, l', hTokens, ⟨hOpening, _⟩, hSpelled, hAll, hSeparated, hSame⟩ :=
    scans_bracketed .lbracket .rbracket rfl rfl hParts rest l
  refine ⟨_, opening :: ts, l', ?_, .array hOpening hSpelled hSeparated, .array hAll, ?_⟩
  · rw [← hTokens]
    simp [text_array]
    rfl
  · simp only [unplaced, unplacedAll_eq, hSame]

theorem construct {name : Text} {args : List Expr} (hName : BeginsWord isIdentStart name)
    (hFree : Keyword.ofText? name = none) (hParts : ∀ e ∈ args, e.PrintsBack) :
    (Expr.construct pos name args).PrintsBack := by
  have hNew : BeginsWord isIdentStart Keyword.kwNew.text :=
    ⟨110, "ew", rfl, by decide, by decide +kernel⟩
  refine ⟨⟨110, _, rfl, by decide⟩, fun {rest} _ l => ?_⟩
  obtain ⟨word, l₁, hWord, _, _, hFirst⟩ :=
    scans_keyword hNew rfl (apart_cons (c := 32) _ (by decide)) l
  obtain ⟨name', l₂, hName', hLiteral, _, hSecond⟩ :=
    scans_ident hName hFree (apart_single (p := .lparen) rfl _) (l₁.next 32)
  obtain ⟨parts, opening, ts, l', hTokens, ⟨hOpening, _⟩, hSpelled, hAll, hSeparated, hSame⟩ :=
    scans_bracketed .lparen .rparen rfl rfl hParts rest l₂
  refine ⟨_, word :: name' :: opening :: ts, l', ?_,
    .construct hWord hName' hOpening hSpelled hSeparated, .construct hAll, ?_⟩
  · have hText : (Expr.construct pos name args).text ++ rest =
        Keyword.kwNew.text ++ 32 :: (name ++ (Punct.lparen.text ++
          (listText args ++ (Punct.rparen.text ++ rest)))) := by
      simp [text_construct]
      rfl
    rw [hText, hFirst, tokensFrom_space, hSecond, hTokens]
    rfl
  · simp only [unplaced, unplacedAll_eq, hSame, hLiteral]

theorem paren {inner : Expr} (h : inner.PrintsBack) : (Expr.paren pos inner).PrintsBack := by
  refine ⟨⟨40, _, rfl, by decide⟩, fun {rest} _ l => ?_⟩
  obtain ⟨inner', opening, close, ts, l', hTokens, ⟨hOpening, _⟩, hClose, hSpelled, hStratified,
    hSame⟩ := h.scans_enclosed .lparen .rparen rfl rfl rest l
  refine ⟨.paren opening.pos inner', opening :: (ts ++ [close]), l', ?_,
    .paren hOpening hSpelled hClose, .paren hStratified, ?_⟩
  · rw [← hTokens]
    simp [text_paren]
    rfl
  · simp only [unplaced, hSame]

theorem unary {k : TokenKind} {op : UnaryOp} {operand : Expr} (hOp : Parser.unaryOp? k = some op)
    (hLevel : 8 ≤ operand.level) (h : operand.PrintsBack) :
    (Expr.unary pos op operand).PrintsBack := by
  obtain ⟨p, rfl, hText, hScans⟩ := exists_punct_of_unary hOp
  refine ⟨?_, fun {rest} hRest l => ?_⟩
  · cases op
    · exact ⟨45, _, rfl, by decide⟩
    · exact ⟨33, _, rfl, by decide⟩
  obtain ⟨c, r, hBegins, hNotEq⟩ := h.begins
  have hScans' : Scans p.text (operand.text ++ rest) (.punct p) p.text := by
    rw [hBegins]
    exact hScans hNotEq
  obtain ⟨t, l₁, hKind, _, _, hFirst⟩ := hScans' l
  obtain ⟨operand', ts, l', hTokens, hSpelled, hStratified, hSame⟩ := h.scans hRest l₁
  have hOp' : Parser.unaryOp? t.kind = some op := by rw [hKind, hOp]
  refine ⟨.unary t.pos op operand', t :: ts, l', ?_, .unary hOp' hSpelled,
    .unary hStratified ?_, ?_⟩
  · rw [text_unary, ← hText, List.append_assoc, hFirst, hTokens]
    rfl
  · rw [level_eq_of_unplaced_eq hSame]
    exact hLevel
  · simp only [unplaced, hSame]

theorem binary {k : TokenKind} {op : BinaryOp} {left right : Expr}
    (hOp : Parser.Infix.ofKind? k = some (.op op))
    (hLeftLevel : Parser.Infix.opLevel op ≤ left.level)
    (hRightLevel : Parser.Infix.opLevel op < right.level) (hLeft : left.PrintsBack)
    (hRight : right.PrintsBack) : (Expr.binary op left right).PrintsBack := by
  obtain ⟨p, rfl, hText⟩ := exists_punct_of_infix hOp
  refine ⟨?_, fun {rest} hRest l => ?_⟩
  · rw [text_binary, List.append_assoc, List.append_assoc, List.append_assoc]
    exact begins_append _ hLeft.begins
  obtain ⟨left', right', t, ls, rs, l', hTokens, hKind, ⟨hLeftSpelled, hLeft', hLeftSame⟩,
    hRightSpelled, hRight', hRightSame⟩ := scans_infix hLeft hRight p hRest l
  have hOp' : Parser.Infix.ofKind? t.kind = some (.op op) := by rw [hKind, hOp]
  refine ⟨.binary op left' right', ls ++ t :: rs, l', ?_,
    .binary hOp' hLeftSpelled hRightSpelled, .binary hLeft' hRight' ?_ ?_, ?_⟩
  · rw [← hTokens, hText]
    simp [text_binary]
    rfl
  · rw [level_eq_of_unplaced_eq hLeftSame]
    exact hLeftLevel
  · rw [level_eq_of_unplaced_eq hRightSame]
    exact hRightLevel
  · simp only [unplaced, hLeftSame, hRightSame]

theorem assign {target value : Expr} (hLevel : 2 < target.level) (hTarget : target.PrintsBack)
    (hValue : value.PrintsBack) : (Expr.assign target value).PrintsBack := by
  refine ⟨?_, fun {rest} hRest l => ?_⟩
  · rw [text_assign, List.append_assoc]
    exact begins_append _ hTarget.begins
  obtain ⟨target', value', t, ls, rs, l', hTokens, hKind, ⟨hTargetSpelled, hTarget',
    hTargetSame⟩, hValueSpelled, hValue', hValueSame⟩ := scans_infix hTarget hValue .assign hRest l
  have hOp : Parser.Infix.ofKind? t.kind = some .assign := by rw [hKind]; rfl
  refine ⟨.assign target' value', ls ++ t :: rs, l', ?_,
    .assign hOp hTargetSpelled hValueSpelled, .assign hTarget' hValue' ?_, ?_⟩
  · rw [← hTokens]
    simp [text_assign]
    rfl
  · rw [level_eq_of_unplaced_eq hTargetSame]
    exact hLevel
  · simp only [unplaced, hTargetSame, hValueSame]

theorem call {callee : Expr} {args : List Expr} (hLevel : callee.level = 9)
    (hCallee : callee.PrintsBack) (hParts : ∀ e ∈ args, e.PrintsBack) :
    (Expr.call callee args).PrintsBack := by
  refine ⟨?_, fun {rest} _ l => ?_⟩
  · rw [text_call, List.append_assoc, List.append_assoc]
    exact begins_append _ hCallee.begins
  obtain ⟨callee', cs, l₁, hFirst, hCalleeSpelled, hCallee', hCalleeSame⟩ :=
    hCallee.scans (apart_single (p := .lparen) rfl _) l
  obtain ⟨parts, opening, ts, l', hTokens, ⟨hOpening, hLine⟩, hSpelled, hAll, hSeparated, hSame⟩ :=
    scans_bracketed .lparen .rparen rfl rfl hParts rest l₁
  refine ⟨_, cs ++ opening :: ts, l', ?_, .call hCalleeSpelled hOpening hLine hSpelled hSeparated,
    .call hCallee' ?_ hAll, ?_⟩
  · have hText : (Expr.call callee args).text ++ rest =
        callee.text ++ (Punct.lparen.text ++ (listText args ++ (Punct.rparen.text ++ rest))) := by
      simp [text_call]
      rfl
    rw [hText, hFirst, hTokens, List.append_assoc]
  · rw [level_eq_of_unplaced_eq hCalleeSame]
    exact hLevel
  · simp only [unplaced, unplacedAll_eq, hCalleeSame, hSame]

theorem member {object : Expr} {name : Token} (hName : name.Spelled) (hMember : name.isName = true)
    (hLevel : object.level = 9) (h : object.PrintsBack) :
    (Expr.member object pos name.literal).PrintsBack := by
  refine ⟨?_, fun {rest} hRest l => ?_⟩
  · rw [text_member, List.append_assoc]
    exact begins_append _ h.begins
  obtain ⟨object', os, l₁, hFirst, hSpelled, hObject', hSame⟩ :=
    h.scans (apart_single (p := .dot) rfl (name.literal ++ rest)) l
  obtain ⟨dot, l₂, hDot, _, _, hSecond⟩ := scans_single (p := .dot) rfl (name.literal ++ rest) l₁
  obtain ⟨name', l', hName', hLiteral, hThird⟩ := scans_memberName hName hMember hRest l₂
  refine ⟨.member object' name'.pos name'.literal, os ++ [dot, name'], l', ?_,
    .member hSpelled hDot hName', .member hObject' ?_, ?_⟩
  · have hText : (Expr.member object pos name.literal).text ++ rest =
        object.text ++ (Punct.dot.text ++ (name.literal ++ rest)) := by
      simp [text_member]
      rfl
    rw [hText, hFirst, hSecond, hThird]
    simp
  · rw [level_eq_of_unplaced_eq hSame]
    exact hLevel
  · simp only [unplaced, hSame, hLiteral]

theorem index {object position : Expr} (hLevel : object.level = 9) (hObject : object.PrintsBack)
    (hPosition : position.PrintsBack) : (Expr.index object position).PrintsBack := by
  refine ⟨?_, fun {rest} _ l => ?_⟩
  · rw [text_index, List.append_assoc, List.append_assoc]
    exact begins_append _ hObject.begins
  obtain ⟨object', os, l₁, hFirst, hObjectSpelled, hObject', hObjectSame⟩ :=
    hObject.scans (apart_single (p := .lbracket) rfl _) l
  obtain ⟨position', opening, close, ts, l', hTokens, ⟨hOpening, hLine⟩, hClose, hPositionSpelled,
    hPosition', hPositionSame⟩ := hPosition.scans_enclosed .lbracket .rbracket rfl rfl rest l₁
  refine ⟨.index object' position', os ++ opening :: (ts ++ [close]), l', ?_,
    .index hObjectSpelled hOpening hLine hPositionSpelled hClose, .index hObject' ?_ hPosition', ?_⟩
  · have hText : (Expr.index object position).text ++ rest =
        object.text ++ (Punct.lbracket.text ++ (position.text ++ (Punct.rbracket.text ++ rest))) := by
      simp [text_index]
      rfl
    rw [hText, hFirst, hTokens, List.append_assoc]
  · rw [level_eq_of_unplaced_eq hObjectSame]
    exact hLevel
  · simp only [unplaced, hObjectSame, hPositionSame]

end PrintsBack

/-- The text of a spelled expression is scanned and read back. -/
theorem printsBack_of_spelledBy {e : Expr} {ts : List Token} (h : e.SpelledBy ts)
    (hStratified : e.Stratified) (hts : ∀ t ∈ ts, t.Spelled) (hPlain : e.PlainStrings) :
    e.PrintsBack := by
  induction h with
  | @name t hKind =>
    have hSpelled := hts t List.mem_cons_self
    simp only [Token.Spelled, hKind] at hSpelled
    have hBegins := begins_of_beginsWord hSpelled.1 isIdentPart_of_isIdentStart []
    rw [List.append_nil] at hBegins
    refine .of_token hBegins (fun hRest => scans_ident hSpelled.1 hSpelled.2 hRest) ?_
    intro t' hKind' hLiteral
    exact ⟨.name t'.pos t'.literal, .name hKind', .name, by rw [hLiteral]; rfl⟩
  | @number t hKind =>
    have hSpelled := hts t List.mem_cons_self
    simp only [Token.Spelled, hKind] at hSpelled
    have hBegins := begins_of_beginsWord hSpelled isIdentPart_of_isDigit []
    rw [List.append_nil] at hBegins
    refine .of_token hBegins (fun hRest => scans_number hSpelled hRest) ?_
    intro t' hKind' hLiteral
    exact ⟨.number t'.pos t'.literal, .number hKind', .number, by rw [hLiteral]; rfl⟩
  | string => exact .string (hPlain _ (List.mem_singleton_self _))
  | bool => exact .bool
  | array _ _ hList ih =>
    cases hStratified with
    | array hElems =>
      exact .array (printsBack_parts hList ih hElems
        (fun t ht => hts t (List.mem_cons_of_mem _ ht)) fun e he => hPlain.child he)
  | @construct t name _ args _ _ hName _ _ hList ih =>
    cases hStratified with
    | construct hArgs =>
      have hClass := hts name (by simp)
      simp only [Token.Spelled, hName] at hClass
      exact .construct hClass.1 hClass.2 (printsBack_parts hList ih hArgs
        (fun t ht => hts t (by simp [ht])) fun e he => hPlain.child he)
  | @paren _ _ inner _ _ _ _ ih =>
    cases hStratified with
    | paren hInner =>
      exact .paren (ih hInner (fun t ht => hts t (by simp [ht]))
        (hPlain.child (List.mem_singleton_self inner)))
  | @unary _ _ operand _ hOp _ ih =>
    cases hStratified with
    | unary hOperand hLevel =>
      exact .unary hOp hLevel (ih hOperand (fun t ht => hts t (by simp [ht]))
        (hPlain.child (List.mem_singleton_self operand)))
  | @binary _ _ _ right _ _ hOp _ _ ihLeft ihRight =>
    cases hStratified with
    | binary hLeft hRight hLeftLevel hRightLevel =>
      exact .binary hOp hLeftLevel hRightLevel
        (ihLeft hLeft (fun t ht => hts t (by simp [ht])) (hPlain.child List.mem_cons_self))
        (ihRight hRight (fun t ht => hts t (by simp [ht]))
          (hPlain.child (List.mem_cons_of_mem _ (List.mem_singleton_self right))))
  | @assign _ _ value _ _ _ _ _ ihTarget ihValue =>
    cases hStratified with
    | assign hTarget hValue hLevel =>
      exact .assign hLevel
        (ihTarget hTarget (fun t ht => hts t (by simp [ht])) (hPlain.child List.mem_cons_self))
        (ihValue hValue (fun t ht => hts t (by simp [ht]))
          (hPlain.child (List.mem_cons_of_mem _ (List.mem_singleton_self value))))
  | call _ _ _ _ hList ihCallee ih =>
    cases hStratified with
    | call hCallee hLevel hArgs =>
      exact .call hLevel
        (ihCallee hCallee (fun t ht => hts t (by simp [ht])) (hPlain.child List.mem_cons_self))
        (printsBack_parts hList ih hArgs (fun t ht => hts t (by simp [ht]))
          fun e he => hPlain.child (List.mem_cons_of_mem _ he))
  | @member _ name object _ _ _ hName ih =>
    cases hStratified with
    | member hObject hLevel =>
      exact .member (hts name (by simp)) hName hLevel
        (ih hObject (fun t ht => hts t (by simp [ht]))
          (hPlain.child (List.mem_singleton_self object)))
  | @index _ _ _ position _ _ _ _ _ _ _ ihObject ihPosition =>
    cases hStratified with
    | index hObject hLevel hPosition =>
      exact .index hLevel
        (ihObject hObject (fun t ht => hts t (by simp [ht])) (hPlain.child List.mem_cons_self))
        (ihPosition hPosition (fun t ht => hts t (by simp [ht]))
          (hPlain.child (List.mem_cons_of_mem _ (List.mem_singleton_self position))))

theorem Separated.mem_part {closing : Punct} {parts : List (Expr × List Token)} {ts : List Token}
    (hList : Separated closing (parts.map Prod.snd) ts) (hParts : ∀ e ∈ parts, e.1.SpelledBy e.2)
    {part : Expr} (h : part ∈ parts.map Prod.fst) : ∃ ts', part.SpelledBy ts' ∧ ts' ⊆ ts := by
  obtain ⟨e, he, rfl⟩ := List.mem_map.mp h
  exact ⟨e.2, hParts e he, hList.subset e.2 (List.mem_map_of_mem he)⟩

/-- The tokens of a part are tokens of the whole. -/
theorem SpelledBy.child {e part : Expr} {ts : List Token} (h : e.SpelledBy ts)
    (hPart : part ∈ e.children) : ∃ ts', part.SpelledBy ts' ∧ ts' ⊆ ts := by
  cases h with
  | name | number | string | bool => cases hPart
  | array _ hElems hList =>
    obtain ⟨ts', hSpelled, hSubset⟩ := hList.mem_part hElems hPart
    exact ⟨ts', hSpelled, fun t ht => by simp [hSubset ht]⟩
  | construct _ _ _ hArgs hList =>
    obtain ⟨ts', hSpelled, hSubset⟩ := hList.mem_part hArgs hPart
    exact ⟨ts', hSpelled, fun t ht => by simp [hSubset ht]⟩
  | paren _ hInner =>
    cases List.mem_singleton.mp hPart
    exact ⟨_, hInner, fun t ht => by simp [ht]⟩
  | unary _ hOperand =>
    cases List.mem_singleton.mp hPart
    exact ⟨_, hOperand, fun t ht => by simp [ht]⟩
  | binary _ hLeft hRight | assign _ hLeft hRight =>
    rcases List.mem_pair.mp hPart with rfl | rfl
    · exact ⟨_, hLeft, fun t ht => by simp [ht]⟩
    · exact ⟨_, hRight, fun t ht => by simp [ht]⟩
  | call hCallee _ _ hArgs hList =>
    rcases List.mem_cons.mp hPart with rfl | hPart
    · exact ⟨_, hCallee, fun t ht => by simp [ht]⟩
    · obtain ⟨ts', hSpelled, hSubset⟩ := hList.mem_part hArgs hPart
      exact ⟨ts', hSpelled, fun t ht => by simp [hSubset ht]⟩
  | member hObject =>
    cases List.mem_singleton.mp hPart
    exact ⟨_, hObject, fun t ht => by simp [ht]⟩
  | index hObject _ _ hPosition =>
    rcases List.mem_pair.mp hPart with rfl | rfl
    · exact ⟨_, hObject, fun t ht => by simp [ht]⟩
    · exact ⟨_, hPosition, fun t ht => by simp [ht]⟩

theorem Stratified.child {e part : Expr} (h : e.Stratified) (hPart : part ∈ e.children) :
    part.Stratified := by
  cases h with
  | name | number | string | bool => cases hPart
  | array hElems => exact hElems part hPart
  | construct hArgs => exact hArgs part hPart
  | paren hInner => exact List.mem_singleton.mp hPart ▸ hInner
  | unary hOperand => exact List.mem_singleton.mp hPart ▸ hOperand
  | member hObject => exact List.mem_singleton.mp hPart ▸ hObject
  | binary hLeft hRight | assign hLeft hRight | index hLeft _ hRight =>
    rcases List.mem_pair.mp hPart with rfl | rfl
    · exact hLeft
    · exact hRight
  | call hCallee _ hArgs =>
    rcases List.mem_cons.mp hPart with rfl | hPart
    · exact hCallee
    · exact hArgs part hPart

/-- The expression can stand in a source. -/
structure Legible (e : Expr) : Prop where
  stratified : e.Stratified
  spelled : ∃ ts, e.SpelledBy ts ∧ ∀ t ∈ ts, t.Spelled

theorem Within.legible {e whole : Expr} (h : e.Within whole) (hWhole : whole.Legible) :
    e.Legible := by
  induction h with
  | self => exact hWhole
  | under hPart _ ih =>
    obtain ⟨hStratified, ts, hSpelled, hts⟩ := hWhole
    obtain ⟨ts', hSpelled', hSubset⟩ := hSpelled.child hPart
    exact ih ⟨hStratified.child hPart, ts', hSpelled', fun t ht => hts t (hSubset ht)⟩

theorem legible_of_readFrom {src : Text} {e : Expr} (h : Parser.ReadFrom (tokens src) e) :
    e.Legible := by
  obtain ⟨ts, rest, hSuffix, hYields⟩ := h
  obtain ⟨used, hUsed, hSpelled, hStratified, _⟩ :=
    Parser.exprAt_spelled (by decide) hYields
  refine ⟨hStratified, used, hSpelled, fun t ht => spelled_tokens src t (hSuffix.subset ?_)⟩
  rw [hUsed]
  exact List.mem_append_left _ ht

theorem Legible.read_text {e : Expr} (h : e.Legible) (hPlain : e.PlainStrings) :
    ∃ (e' : Expr) (stop : Token), Parser.Yields (Parser.expression (tokens e.text)) e' [stop] ∧
      stop.kind = .endOfInput ∧ e'.unplaced = e.unplaced := by
  obtain ⟨hStratified, ts, hSpelled, hts⟩ := h
  have hPrints := printsBack_of_spelledBy hSpelled hStratified hts hPlain
  obtain ⟨e', ts', l', hTokens, hSpelled', hStratified', hSame⟩ := hPrints.scans apart_nil .start
  rw [List.append_nil, tokensFrom_nil] at hTokens
  refine ⟨e', ⟨.endOfInput, [], l', l', false⟩, ?_, rfl, hSame⟩
  rw [tokens, hTokens]
  refine (Parser.readBack_of_spelledBy hSpelled' hStratified').whole ?_
  rintro t r hCons
  cases hCons
  exact ⟨rfl, rfl⟩

end Expr

/-- Printing an expression of a parsed source and reading the text gives the expression back up to
positions, and leaves nothing of the text. -/
theorem parse_exprs_read_text {name src : Text} {f : File} (h : parse name src = .ok f)
    {whole e : Expr} (hWhole : whole ∈ f.exprs) (hWithin : e.Within whole)
    (hPlain : e.PlainStrings) :
    ∃ (e' : Expr) (stop : Token), Parser.Yields (Parser.expression (tokens e.text)) e' [stop] ∧
      stop.kind = .endOfInput ∧ e'.unplaced = e.unplaced := by
  have hLegible := Expr.legible_of_readFrom (parse_read h whole hWhole)
  exact (hWithin.legible hLegible).read_text hPlain

/-- A property whose value mixes quotes, escapes, a trailing comma and a keyword as a member. -/
def quotingSource : Text :=
  "class P \x7b x = f('say \"hi\"\\n', [!-y,])[0] === g.new - -1 \x7d"

theorem quotingSource_read_text :
    ∃ (f : File) (e : Expr), parse "q.ts" quotingSource = .ok f ∧ e ∈ f.exprs ∧
      e.text = "f(\"say \\\"hi\\\"\\n\", [!-y])[0] == g.new - -1" ∧ e.PlainStrings ∧
      ∃ (e' : Expr) (stop : Token), Parser.Yields (Parser.expression (tokens e.text)) e' [stop] ∧
        stop.kind = .endOfInput ∧ e'.unplaced = e.unplaced := by
  obtain ⟨f, hParsed, hCheck⟩ := Outcome.exists_ok_of_any (x := parse "q.ts" quotingSource)
    (fun f => f.exprs.any fun e => e.text = "f(\"say \\\"hi\\\"\\n\", [!-y])[0] == g.new - -1" &&
      e.strings.all (·.all isPlain)) (by
      simp (disch := rfl) only [quotingSource, Text.ofString_literal]
      decide +kernel)
  obtain ⟨e, he, hBoth⟩ := List.any_eq_true.mp hCheck
  obtain ⟨hText, hStrings⟩ := Bool.and_eq_true_iff.mp hBoth
  have hPlain : e.PlainStrings := fun value hValue =>
    List.all_eq_true.mp (List.all_eq_true.mp hStrings value hValue)
  exact ⟨f, e, hParsed, he, of_decide_eq_true hText, hPlain,
    parse_exprs_read_text hParsed he .self hPlain⟩

end AnchorScript.Syntax
