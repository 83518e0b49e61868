import AnchorScript.Proofs.Syntax.Readers

/-!
# Reading with a cursor

The reader of source files as a program over a cursor: a token in hand, the text that is not scanned
yet, and the faults found so far. Its loops go round until a test of their own ends them, and an
expression is read within another to any depth. No bound stands behind either: a loop has the
outcome that some number of rounds is enough for, and one that goes on for ever has none. So loops
and expressions are unfolded as they stand in a program, once more each time.
-/

namespace AnchorScript

/-- The token that a text at `l` begins with, and the place and the text behind it. -/
def Lexer.nextToken (l : Location) (s : Text) : Token × Location × Text :=
  let gap := (blanks s).1
  let start := l.after gap
  match (blanks s).2 with
  | [] => (⟨.endOfInput, [], start, start, gap.contains 10⟩, start, [])
  | c :: r =>
    let k := lexeme c r
    let stop := start.after (c :: k.tail)
    let newline := gap.contains 10 || (k.kind = .illegal && k.tail.contains 10)
    (⟨k.kind, k.literal, start, stopOf k stop, newline⟩, stop, r.drop k.tail.length)

namespace Syntax

open AnchorScript.Syntax.Parser (Infix isFrom isTypeArg startsPostfix unaryOp? anyLevel)

structure Cursor where
  current : Token
  place : Location
  text : Text
  faults : List Parser.Failure
  /-- The fault is one that more input could mend. -/
  waits : Bool

namespace Cursor

/-- Faults behind the first are not recorded. -/
def record (f : Parser.Failure) (waits : Bool) (s : Cursor) : Cursor :=
  if s.faults.isEmpty then { s with faults := s.faults ++ [f], waits := waits } else s

/-- A comment that nothing closes is a fault when it is met. -/
def advance (s : Cursor) : Cursor :=
  let (t, l, r) := Lexer.nextToken s.place s.text
  let s := { s with current := t, place := l, text := r }
  if t.isOpenComment then s.record ⟨t, "unterminated block comment"⟩ true else s

/-- The cursor on the first token of a text. -/
def scanned (place : Location) (text : Text) : Cursor :=
  advance ⟨Parser.noToken, place, text, [], false⟩

def start (src : Text) : Cursor := scanned .start src

/-- A computation that moves the cursor. It succeeds or fails, or it has no outcome. -/
abbrev Reads (α : Type) := OptionT (StateT Cursor Option) α

variable {α β σ : Type}

/-- The outcome of a computation that begins at `s`. -/
def runFrom (m : Reads α) (s : Cursor) : Option (Option α × Cursor) := (OptionT.run m).run s

def current? : Reads Token := return (← get).current

def next : Reads PUnit := modify advance

def refuse {α : Type} (t : Token) (message : Text) : Reads α := do
  modify (·.record ⟨t, message⟩ (t.kind = .endOfInput))
  failure

def takeIf (accept : Token → Bool) (message : Text) : Reads Token := do
  let t ← current?
  if accept t then
    next
    return t
  else refuse t message

def take (k : TokenKind) (message : Text) : Reads Token := takeIf (·.kind = k) message

/-- Passes over one token of kind `k` if it is in hand. -/
def skip? (k : TokenKind) : Reads Bool := do
  if (← current?).kind = k then
    next
    return true
  else return false

def endOfStatement (what : Text) : Reads PUnit := do
  let t ← current?
  if t.kind = .punct .semicolon then next
  else if t.kind = .punct .rbrace || t.kind = .endOfInput || t.newlineBefore then return
  else refuse t ("expected ';' after " ++ what ++ ", got '" ++ t.literal ++ "'")

noncomputable section

/-- A computation that goes on for ever. -/
def endless : Reads α := OptionT.mk fun _ => none

open Classical in
/-- The outcome that one of the attempts has, if any of them has one. -/
def search (attempts : Nat → Reads α) : Reads α := OptionT.mk fun s =>
  if h : ∃ r n, runFrom (attempts n) s = some r then some h.choose else none

/-- The loop that has no outcome before `n` rounds are enough. -/
def roundsWithin (round : σ → Reads (σ ⊕ β)) : (n : Nat) → σ → Reads β
  | 0, _ => endless
  | n + 1, a => do
    match ← round a with
    | .inl a => roundsWithin round n a
    | .inr b => return b

/-- Goes round with a new value each time until a round leaves the loop with a result. -/
def rounds (round : σ → Reads (σ ⊕ β)) (a : σ) : Reads β := search (roundsWithin round · a)

/-- One more item of a list in which commas stand between the items. -/
abbrev itemRound (closing : Punct) (item : Reads α) (items : List α) :
    Reads (List α ⊕ List α) := do
  if (← current?).kind = .punct closing then return .inr items
  else
    let a ← item
    if ← skip? (.punct .comma) then return .inl (items ++ [a])
    else return .inr (items ++ [a])

def listUntil (closing : Punct) (message : Text) (item : Reads α) : Reads (List α) := do
  let items ← rounds (itemRound closing item) []
  let _ ← take (.punct closing) message
  return items

section Operands

-- How an expression within an expression is read.
variable (inner : (min : Nat) → Reads Expr)

def exprsOf (closing : Punct) (what : Text) : Reads (List Expr) :=
  listUntil closing ("expected '" ++ closing.text ++ "' to close " ++ what) (inner anyLevel)

def prefixOf : Reads Expr := do
  let t ← current?
  match unaryOp? t.kind with
  | some op =>
    next
    let e ← inner 8
    return .unary t.pos op e
  | none =>
    match t.kind with
    | .ident =>
      next
      return .name t.pos t.literal
    | .number =>
      next
      return .number t.pos t.literal
    | .string =>
      match StringLiteral.value? t.literal with
      | some value =>
        next
        return .string t.pos value
      | none => refuse t ("invalid string literal " ++ t.literal)
    | .keyword .kwTrue =>
      next
      return .bool t.pos true
    | .keyword .kwFalse =>
      next
      return .bool t.pos false
    | .punct .lbracket =>
      next
      let elems ← exprsOf inner .rbracket "array literal"
      return .array t.pos elems
    | .keyword .kwNew =>
      next
      let name ← take .ident "expected class name after 'new'"
      let _ ← take (.punct .lparen) ("expected '(' after 'new " ++ name.literal ++ "'")
      let args ← exprsOf inner .rparen "constructor arguments"
      return .construct t.pos name.literal args
    | .punct .lparen =>
      next
      let e ← inner anyLevel
      let _ ← take (.punct .rparen) "expected ')' to close expression"
      return .paren t.pos e
    | .endOfInput => refuse t "unexpected EOF, expected expression"
    | _ => refuse t ("unexpected token '" ++ t.literal ++ "' in expression")

def postfixOf (left : Expr) : Reads Expr := do
  match (← current?).kind with
  | .punct .lparen =>
    next
    let args ← exprsOf inner .rparen "argument list"
    return .call left args
  | .punct .dot =>
    next
    let name ← takeIf Token.isName "expected member name after '.'"
    return .member left name.pos name.literal
  | .punct .lbracket =>
    next
    let position ← inner anyLevel
    let _ ← take (.punct .rbracket) "expected ']' after index expression"
    return .index left position
  | _ => return left

/-- One more call, member access, index or operator behind `left`. -/
def roundOf (min : Nat) (left : Expr) : Reads (Expr ⊕ Expr) := do
  let t ← current?
  if startsPostfix t then
    if 9 < min then return .inr left
    else return .inl (← postfixOf inner left)
  else
    match Infix.ofKind? t.kind with
    | none => return .inr left
    | some i =>
      if i.level < min then return .inr left
      else
        next
        let right ← inner i.rightLevel
        return .inl (i.apply left right)

def exprOf (min : Nat) : Reads Expr := do
  let left ← prefixOf inner
  rounds (roundOf inner min) left

end Operands

/-- The reading of an expression that has no outcome before a nesting of `n` is enough. -/
def exprWithin : (n min : Nat) → Reads Expr
  | 0, _ => endless
  | n + 1, min => exprOf (exprWithin n) min

def exprAt (min : Nat) : Reads Expr := search (exprWithin · min)

abbrev exprsUntil : (closing : Punct) → (what : Text) → Reads (List Expr) := exprsOf exprAt

abbrev prefixExpr : Reads Expr := prefixOf exprAt

abbrev postfixExpr : (left : Expr) → Reads Expr := postfixOf exprAt

abbrev exprRound : (min : Nat) → (left : Expr) → Reads (Expr ⊕ Expr) := roundOf exprAt

def expression : Reads Expr := exprAt anyLevel

def typeRef : Reads TypeRef := do
  let name ← take .ident "expected type name"
  let arg ←
    if ← skip? (.punct .lt) then do
      let arg ← takeIf isTypeArg ("expected type argument in '" ++ name.literal ++ "<...>'")
      let _ ← take (.punct .gt) "expected '>' to close type argument"
      pure (some arg.literal)
    else pure none
  let t ← current?
  if t.kind = .punct .lbracket then refuse t "array types are not supported"
  else return ⟨name.literal, arg, name.pos⟩

def field (what : Text) : Reads FieldDecl := do
  let name ← take .ident ("expected " ++ what ++ " name")
  let t ← current?
  if t.kind = .punct .question then
    refuse t ("optional " ++ what ++ " '" ++ name.literal ++ "' is not supported")
  else
    let _ ← take (.punct .colon) ("expected ':' after " ++ what ++ " name '" ++ name.literal ++ "'")
    let type ← typeRef
    return ⟨name.literal, type, name.pos⟩

def typeAnnotation : Reads (Option TypeRef) := do
  if ← skip? (.punct .colon) then return some (← typeRef)
  else return none

/-- The word in hand begins the declaration of a variable. -/
def binding (kind : BindingKind) : Reads Statement := do
  let word ← current?
  next
  let name ← take .ident ("expected variable name after '" ++ kind.text ++ "'")
  let type ← typeAnnotation
  let _ ← take (.punct .assign) ("expected '=' in declaration of '" ++ name.literal ++ "'")
  let value ← expression
  endOfStatement "variable declaration"
  return .binding word.pos kind name.literal type value

/-- A returned expression begins on the line of the word that returns it. -/
def returned : Reads (Option Expr) := do
  let t ← current?
  if t.kind = .punct .semicolon || t.kind = .punct .rbrace || t.newlineBefore then return none
  else return some (← expression)

def statement : Reads Statement := do
  let t ← current?
  match t.kind with
  | .keyword .kwConst => binding .const
  | .keyword .kwLet => binding .letting
  | .keyword .kwReturn =>
    next
    let value ← returned
    endOfStatement "return statement"
    return .ret t.pos value
  | _ =>
    let value ← expression
    endOfStatement "expression statement"
    return .expr t.pos value

def statementRound (what : Text) (ss : List Statement) :
    Reads (List Statement ⊕ List Statement) := do
  let t ← current?
  if t.kind = .punct .rbrace then return .inr ss
  else if t.kind = .endOfInput then refuse t ("unexpected EOF while parsing " ++ what)
  else if ← skip? (.punct .semicolon) then return .inl ss
  else return .inl (ss ++ [← statement])

/-- Statements through the closing brace. -/
def statements (what : Text) : Reads (List Statement) := do
  let body ← rounds (statementRound what) []
  next
  return body

def block (what : Text) : Reads (List Statement) := do
  let _ ← take (.punct .lbrace) ("expected '\x7b' before " ++ what)
  statements what

def importedNames : Reads (List Text) := do
  let t ← current?
  match t.kind with
  | .punct .lbrace =>
    next
    let names ← listUntil .rbrace "expected '\x7d' to close import list"
      (take .ident "expected imported name")
    return names.map Token.literal
  | .ident =>
    next
    return [t.literal]
  | _ => refuse t "expected '\x7b' or identifier after 'import'"

def importDecl : Reads ImportDecl := do
  let word ← take (.keyword .kwImport) "expected 'import'"
  let names ← importedNames
  let _ ← takeIf isFrom "expected 'from' in import declaration"
  let literal ← take .string "expected module path string after 'from'"
  match StringLiteral.value? literal.literal with
  | none => refuse literal ("invalid string literal " ++ literal.literal)
  | some module =>
    endOfStatement "import declaration"
    return ⟨names, module, word.pos⟩

def importRound (imports : List ImportDecl) : Reads (List ImportDecl ⊕ List ImportDecl) := do
  if (← current?).kind = .keyword .kwImport then return .inl (imports ++ [← importDecl])
  else return .inr imports

def params : Reads (List FieldDecl) := do
  let _ ← take (.punct .lparen) "expected '(' to start parameter list"
  listUntil .rparen "expected ')' after parameter list" (field "parameter")

/-- `name` begins a method, and its parameters come next. -/
def method (name : Token) : Reads MethodDecl := do
  let params ← params
  let returns ← typeAnnotation
  let body ← block "method body"
  return ⟨name.literal, params, returns, body, name.pos⟩

def member : Reads Parser.Member := do
  let _ ← skip? (.keyword .kwPublic)
  let isStatic ← skip? (.keyword .kwStatic)
  let name ← take .ident "expected class member name"
  let t ← current?
  match t.kind with
  | .punct .assign =>
    next
    let value ← expression
    endOfStatement "property declaration"
    return .property ⟨name.literal, isStatic, value, name.pos⟩
  | .punct .lparen =>
    if isStatic then refuse name "static methods are not supported"
    else return .method (← method name)
  | _ => refuse t ("expected '=' or '(' after class member name '" ++ name.literal ++ "'")

def memberRound (ms : List Parser.Member) :
    Reads (List Parser.Member ⊕ List Parser.Member) := do
  let t ← current?
  if t.kind = .punct .rbrace || t.kind = .endOfInput then return .inr ms
  else if ← skip? (.punct .semicolon) then return .inl ms
  else return .inl (ms ++ [← member])

/-- Members through the closing brace. -/
def members : Reads (List Parser.Member) := do
  let ms ← rounds memberRound []
  let _ ← take (.punct .rbrace) "expected '\x7d' to close class body"
  return ms

def classDecl (isExported isDefault : Bool) : Reads ClassDecl := do
  let word ← take (.keyword .kwClass) "expected 'class'"
  let name ← take .ident "expected class name"
  let _ ← take (.punct .lbrace) "expected '\x7b' after class name"
  let ms ← members
  return ⟨name.literal, isExported, isDefault, ms.filterMap Parser.Member.property?,
    ms.filterMap Parser.Member.method?, word.pos⟩

def endOfField (name : Text) : Reads PUnit := do
  let t ← current?
  if t.kind = .punct .semicolon || t.kind = .punct .comma then next
  else if t.kind = .punct .rbrace || t.newlineBefore then return
  else refuse t ("expected ';' after interface field '" ++ name ++ "'")

def fieldRound (fs : List FieldDecl) : Reads (List FieldDecl ⊕ List FieldDecl) := do
  let t ← current?
  if t.kind = .punct .rbrace || t.kind = .endOfInput then return .inr fs
  else
    let f ← field "field"
    endOfField f.name
    return .inl (fs ++ [f])

/-- Fields through the closing brace. -/
def interfaceFields : Reads (List FieldDecl) := do
  let fields ← rounds fieldRound []
  let _ ← take (.punct .rbrace) "expected '\x7d' to close interface body"
  return fields

def baseInterface : Reads (Option Text) := do
  if ← skip? (.keyword .kwExtends) then
    let base ← take .ident "expected base interface name after 'extends'"
    return some base.literal
  else return none

def interfaceDecl (isExported : Bool) : Reads InterfaceDecl := do
  let word ← take (.keyword .kwInterface) "expected 'interface'"
  let name ← take .ident "expected interface name"
  let base ← baseInterface
  let _ ← take (.punct .lbrace) "expected '\x7b' after interface name"
  let fields ← interfaceFields
  return ⟨name.literal, isExported, base, fields, word.pos⟩

/-- Whether `export` and then `default` begin a declaration. -/
def exportWords : Reads (Bool × Bool) := do
  if ← skip? (.keyword .kwExport) then return (true, ← skip? (.keyword .kwDefault))
  else return (false, false)

def declaration : Reads Parser.Declaration := do
  let (isExported, isDefault) ← exportWords
  let t ← current?
  match t.kind with
  | .keyword .kwClass => return .cls (← classDecl isExported isDefault)
  | .keyword .kwInterface =>
    if isDefault then refuse t "default-exported interfaces are not supported"
    else return .interface (← interfaceDecl isExported)
  | .keyword .kwImport => refuse t "import declarations must precede all other declarations"
  | _ =>
    refuse t ("unexpected token '" ++ t.literal ++
      "' at top level, expected class or interface declaration")

def declarationRound (ds : List Parser.Declaration) :
    Reads (List Parser.Declaration ⊕ List Parser.Declaration) := do
  if (← current?).kind = .endOfInput then return .inr ds
  else if ← skip? (.punct .semicolon) then return .inl ds
  else return .inl (ds ++ [← declaration])

def file : Reads File := do
  let imports ← rounds importRound []
  let ds ← rounds declarationRound []
  return ⟨imports, ds.filterMap Parser.Declaration.class?,
    ds.filterMap Parser.Declaration.interface?⟩

end

variable {s s' : Cursor} {m : Reads α} {f : α → Reads β}

theorem runFrom_pure (a : α) (s : Cursor) : runFrom (pure a) s = some (some a, s) := rfl

theorem runFrom_bind_of_some {a : α} (h : runFrom m s = some (some a, s')) :
    runFrom (m >>= f) s = runFrom (f a) s' := by
  simp only [runFrom, OptionT.run_bind] at *
  rw [Option.elimM, StateT.run_bind, h]
  rfl

theorem runFrom_bind_of_none (h : runFrom m s = some (none, s')) :
    runFrom (m >>= f) s = some (none, s') := by
  simp only [runFrom, OptionT.run_bind] at *
  rw [Option.elimM, StateT.run_bind, h]
  rfl

theorem runFrom_current?_bind (f : Token → Reads β) (s : Cursor) :
    runFrom (current? >>= f) s = runFrom (f s.current) s := rfl

theorem runFrom_next_bind (f : PUnit → Reads β) (s : Cursor) :
    runFrom (next >>= f) s = runFrom (f ⟨⟩) s.advance := rfl

theorem runFrom_refuse (t : Token) (message : Text) (s : Cursor) :
    runFrom (refuse t message : Reads α) s =
      some (none, s.record ⟨t, message⟩ (t.kind = .endOfInput)) := rfl

theorem runFrom_take_of_eq {kind : TokenKind} (message : Text) (hKind : s.current.kind = kind) :
    runFrom (take kind message) s = some (some s.current, s.advance) := by
  rw [take, takeIf, runFrom_current?_bind, if_pos (decide_eq_true hKind)]
  rfl

theorem runFrom_take_of_ne {kind : TokenKind} (message : Text) (hKind : s.current.kind ≠ kind) :
    runFrom (take kind message) s =
      some (none, s.record ⟨s.current, message⟩ (s.current.kind = .endOfInput)) := by
  rw [take, takeIf, runFrom_current?_bind, if_neg (by simp [hKind])]
  rfl

theorem runFrom_skip? (kind : TokenKind) (s : Cursor) :
    runFrom (skip? kind) s =
      if s.current.kind = kind then some (some true, s.advance) else some (some false, s) := by
  rw [skip?, runFrom_current?_bind]
  split <;> rfl

theorem runFrom_bind_cases {r : Option β × Cursor} (h : runFrom (m >>= f) s = some r) :
    (∃ a s', runFrom m s = some (some a, s') ∧ runFrom (f a) s' = some r) ∨
      ∃ s', runFrom m s = some (none, s') ∧ r = (none, s') := by
  cases hRun : runFrom m s with
  | none =>
    simp only [runFrom, OptionT.run_bind] at h hRun
    rw [Option.elimM, StateT.run_bind, hRun] at h
    cases h
  | some out =>
    obtain ⟨_ | a, s'⟩ := out
    · rw [runFrom_bind_of_none hRun] at h
      exact .inr ⟨s', rfl, (Option.some.inj h).symm⟩
    · rw [runFrom_bind_of_some hRun] at h
      exact .inl ⟨a, s', rfl, h⟩

/-- The second computation has every outcome of the first. -/
def Below (m m' : Reads α) : Prop := ∀ s r, runFrom m s = some r → runFrom m' s = some r

theorem Below.refl (m : Reads α) : Below m m := fun _ _ h => h

theorem endless_below (m : Reads α) : Below endless m := by
  intro s r h
  cases h

theorem Below.bind {m' : Reads α} {f' : α → Reads β} (h : Below m m')
    (hNext : ∀ a, Below (f a) (f' a)) : Below (m >>= f) (m' >>= f') := by
  intro s r hRun
  rcases runFrom_bind_cases hRun with ⟨a, s', hFirst, hRest⟩ | ⟨s', hFirst, rfl⟩
  · exact (runFrom_bind_of_some (h _ _ hFirst)).trans (hNext a _ _ hRest)
  · exact runFrom_bind_of_none (h _ _ hFirst)

/-- The computation has every outcome of an attempt, and an outcome that it has is that of all
attempts from some one on. -/
structure Approached (F : Nat → Reads α) (m : Reads α) : Prop where
  below : ∀ n, Below (F n) m
  reached : ∀ {s r}, runFrom m s = some r → ∃ n₀, ∀ n ≥ n₀, runFrom (F n) s = some r

theorem approached_search {F : Nat → Reads α} (hStep : ∀ n, Below (F n) (F (n + 1))) :
    Approached F (search F) := by
  have hMono {n k : Nat} (hLe : n ≤ k) : Below (F n) (F k) := by
    induction hLe with
    | refl => exact .refl _
    | step _ ih => exact fun s r h => hStep _ s r (ih s r h)
  refine ⟨fun n s r h => ?_, fun {s r} h => ?_⟩
  · have hSome : ∃ r n, runFrom (F n) s = some r := ⟨r, n, h⟩
    obtain ⟨k, hChosen⟩ := hSome.choose_spec
    have hSame : hSome.choose = r := by
      rcases Nat.le_total n k with hLe | hLe
      · exact Option.some.inj (hChosen.symm.trans (hMono hLe s r h))
      · exact Option.some.inj ((hMono hLe s _ hChosen).symm.trans h)
    exact (dif_pos hSome).trans (congrArg some hSame)
  · by_cases hSome : ∃ r n, runFrom (F n) s = some r
    · obtain ⟨k, hChosen⟩ := hSome.choose_spec
      rw [show runFrom (search F) s = some hSome.choose from dif_pos hSome] at h
      rw [Option.some.inj h] at hChosen
      exact ⟨k, fun n hLe => hMono hLe s r hChosen⟩
    · rw [show runFrom (search F) s = none from dif_neg hSome] at h
      cases h

namespace Approached

variable {F : Nat → Reads α} {G : Nat → α → Reads β} {m' : Reads α}

theorem const (m : Reads α) : Approached (fun _ => m) m :=
  ⟨fun _ => .refl m, fun h => ⟨0, fun _ _ => h⟩⟩

theorem shift (h : Approached F m) : Approached (fun n => F (n + 1)) m := by
  refine ⟨fun n => h.below (n + 1), fun hRun => ?_⟩
  obtain ⟨n₀, hFrom⟩ := h.reached hRun
  exact ⟨n₀, fun n hn => hFrom (n + 1) (Nat.le_succ_of_le hn)⟩

theorem below_of_approached (h : Approached F m) (h' : Approached F m') : Below m m' := by
  intro s r hRun
  obtain ⟨n₀, hFrom⟩ := h.reached hRun
  exact h'.below n₀ s r (hFrom n₀ (Nat.le_refl _))

theorem unique (h : Approached F m) (h' : Approached F m') : m = m' :=
  funext fun s => Option.ext fun r =>
    ⟨below_of_approached h h' s r, below_of_approached h' h s r⟩

theorem bind (h : Approached F m) (hNext : ∀ a, Approached (G · a) (f a)) :
    Approached (fun n => F n >>= G n) (m >>= f) := by
  refine ⟨fun n => (h.below n).bind fun a => (hNext a).below n, fun hRun => ?_⟩
  rcases runFrom_bind_cases hRun with ⟨a, s', hFirst, hRest⟩ | ⟨s', hFirst, rfl⟩
  · obtain ⟨n₁, hFrom₁⟩ := h.reached hFirst
    obtain ⟨n₂, hFrom₂⟩ := (hNext a).reached hRest
    refine ⟨max n₁ n₂, fun n hn => ?_⟩
    obtain ⟨hn₁, hn₂⟩ := Nat.max_le.mp hn
    exact (runFrom_bind_of_some (hFrom₁ n hn₁)).trans (hFrom₂ n hn₂)
  · obtain ⟨n₁, hFrom₁⟩ := h.reached hFirst
    exact ⟨n₁, fun n hn => runFrom_bind_of_none (hFrom₁ n hn)⟩

theorem ite {p : Prop} [Decidable p] {F' : Nat → Reads α} (hThen : Approached F m)
    (hElse : Approached F' m') :
    Approached (fun n => if p then F n else F' n) (if p then m else m') := by
  by_cases hp : p
  · simpa only [if_pos hp] using hThen
  · simpa only [if_neg hp] using hElse

/-- What is below a computation is a first attempt at it. -/
theorem of_below (h : Below m m') : Approached (fun n => if n = 0 then m else m') m' := by
  refine ⟨fun n => ?_, fun hRun => ⟨1, fun n hn => ?_⟩⟩
  · split
    · exact h
    · exact .refl m'
  · rw [if_neg (by omega)]
    exact hRun

end Approached

section Loops

variable {round : σ → Reads (σ ⊕ β)}

theorem approached_rounds (round : σ → Reads (σ ⊕ β)) (a : σ) :
    Approached (roundsWithin round · a) (rounds round a) := by
  refine approached_search fun n => ?_
  induction n generalizing a with
  | zero => exact endless_below _
  | succ n ih =>
    refine (Below.refl (round a)).bind fun x => ?_
    cases x with
    | inl a' => exact ih a'
    | inr b => exact .refl _

theorem rounds_eq (round : σ → Reads (σ ⊕ β)) (a : σ) :
    rounds round a = round a >>= Sum.elim (rounds round) pure := by
  refine (approached_rounds round a).shift.unique (.bind (.const _) fun x => ?_)
  cases x with
  | inl a' => exact approached_rounds round a'
  | inr b => exact .const _

theorem Approached.rounds {F : Nat → σ → Reads (σ ⊕ β)} (h : ∀ a, Approached (F · a) (round a))
    (a : σ) : Approached (fun n => Cursor.rounds (F n) a) (Cursor.rounds round a) := by
  have hWithin (k : Nat) (a : σ) :
      Approached (fun n => roundsWithin (F n) k a) (roundsWithin round k a) := by
    induction k generalizing a with
    | zero => exact .const _
    | succ k ih =>
      refine (h a).bind fun x => ?_
      cases x with
      | inl a' => exact ih a'
      | inr b => exact .const _
  refine ⟨fun n s r hRun => ?_, fun {s r} hRun => ?_⟩
  · obtain ⟨k, hFrom⟩ := (approached_rounds (F n) a).reached hRun
    exact (approached_rounds round a).below k s r
      ((hWithin k a).below n s r (hFrom k (Nat.le_refl _)))
  · obtain ⟨k, hFrom⟩ := (approached_rounds round a).reached hRun
    obtain ⟨n₀, hFrom'⟩ := (hWithin k a).reached (hFrom k (Nat.le_refl _))
    exact ⟨n₀, fun n hn => (approached_rounds (F n) a).below k s r (hFrom' n hn)⟩

end Loops

section Operands

variable {c : Nat → (min : Nat) → Reads Expr} {inner : (min : Nat) → Reads Expr}

theorem approached_exprsOf (h : ∀ min, Approached (c · min) (inner min)) (closing : Punct)
    (what : Text) :
    Approached (fun n => exprsOf (c n) closing what) (exprsOf inner closing what) := by
  refine .bind (.rounds (fun es => ?_) []) fun es => .const _
  exact .bind (.const _) fun t => .ite (.const _) (.bind (h anyLevel) fun e => .const _)

theorem approached_prefixOf (h : ∀ min, Approached (c · min) (inner min)) :
    Approached (fun n => prefixOf (c n)) (prefixOf inner) := by
  refine .bind (.const _) fun t => ?_
  cases unaryOp? t.kind with
  | some op => exact .bind (.const _) fun _ => .bind (h 8) fun e => .const _
  | none =>
    cases t.kind with
    | keyword word =>
      cases word
      case kwNew =>
        refine .bind (.const _) fun _ => .bind (.const _) fun name => .bind (.const _) fun _ => ?_
        exact .bind (approached_exprsOf h ..) fun args => .const _
      all_goals exact .const _
    | punct p =>
      cases p
      case lbracket =>
        exact .bind (.const _) fun _ => .bind (approached_exprsOf h ..) fun elems => .const _
      case lparen => exact .bind (.const _) fun _ => .bind (h anyLevel) fun e => .const _
      all_goals exact .const _
    | _ => exact .const _

theorem approached_postfixOf (h : ∀ min, Approached (c · min) (inner min)) (left : Expr) :
    Approached (fun n => postfixOf (c n) left) (postfixOf inner left) := by
  refine .bind (.const _) fun t => ?_
  cases t.kind with
  | punct p =>
    cases p
    case lparen =>
      exact .bind (.const _) fun _ => .bind (approached_exprsOf h ..) fun args => .const _
    case lbracket => exact .bind (.const _) fun _ => .bind (h anyLevel) fun position => .const _
    all_goals exact .const _
  | _ => exact .const _

theorem approached_roundOf (h : ∀ min, Approached (c · min) (inner min)) (min : Nat)
    (left : Expr) : Approached (fun n => roundOf (c n) min left) (roundOf inner min left) := by
  refine .bind (.const _) fun t => .ite ?_ ?_
  · exact .ite (.const _) (.bind (approached_postfixOf h left) fun e => .const _)
  · cases Infix.ofKind? t.kind with
    | none => exact .const _
    | some i =>
      exact .ite (.const _) (.bind (.const _) fun _ => .bind (h i.rightLevel) fun e => .const _)

theorem approached_exprOf (h : ∀ min, Approached (c · min) (inner min)) (min : Nat) :
    Approached (fun n => exprOf (c n) min) (exprOf inner min) :=
  .bind (approached_prefixOf h) fun left => .rounds (approached_roundOf h min) left

end Operands

theorem exprWithin_below (n min : Nat) : Below (exprWithin n min) (exprWithin (n + 1) min) := by
  induction n generalizing min with
  | zero => exact endless_below _
  | succ n ih =>
    have hFirst := approached_exprOf (fun min => Approached.of_below (ih min)) min
    exact hFirst.below 0

theorem exprAt_eq (min : Nat) : exprAt min = exprOf exprAt min := by
  have hAttempts (min : Nat) : Approached (exprWithin · min) (exprAt min) :=
    approached_search fun n => exprWithin_below n min
  exact (hAttempts min).shift.unique (approached_exprOf hAttempts min)

end Cursor

end Syntax

end AnchorScript
