import AnchorScript.Proofs.Syntax.Grammar

/-!
# Trees without their places

`unplaced` puts every token, and every part of a tree, at the start of the file. Two trees are the
same up to positions when they are equal without their places. `rewritten` does so too and writes
other strings at some of the places.
-/

namespace AnchorScript

/-- The token at the start of the file: its kind and text, and whether it begins a line. -/
def Token.unplaced (t : Token) : Token := { t with start := .start, stop := .start }

/-- The place that stands for every place. -/
def nowhere : SourcePos := Location.start.pos

namespace Syntax.Expr

mutual

def unplaced : Expr → Expr
  | .name _ id => .name nowhere id
  | .number _ lit => .number nowhere lit
  | .string _ value => .string nowhere value
  | .bool _ value => .bool nowhere value
  | .array _ elems => .array nowhere (unplacedAll elems)
  | .construct _ className args => .construct nowhere className (unplacedAll args)
  | .paren _ inner => .paren nowhere inner.unplaced
  | .unary _ op operand => .unary nowhere op operand.unplaced
  | .binary op left right => .binary op left.unplaced right.unplaced
  | .assign target value => .assign target.unplaced value.unplaced
  | .call callee args => .call callee.unplaced (unplacedAll args)
  | .member object _ field => .member object.unplaced nowhere field
  | .index object position => .index object.unplaced position.unplaced

def unplacedAll : List Expr → List Expr
  | [] => []
  | e :: es => e.unplaced :: unplacedAll es

end

@[simp] theorem unplacedAll_eq (es : List Expr) : unplacedAll es = es.map unplaced := by
  induction es with
  | nil => rfl
  | cons e es ih => rw [unplacedAll, ih, List.map_cons]

@[simp] theorem level_unplaced (e : Expr) : e.unplaced.level = e.level := by
  cases e <;> rfl

theorem level_eq_of_unplaced_eq {e e' : Expr} (h : e'.unplaced = e.unplaced) :
    e'.level = e.level := by
  rw [← level_unplaced, h, level_unplaced]

@[simp] theorem path?_unplaced (e : Expr) : e.unplaced.path? = e.path? := by
  fun_induction path? e with
  | case1 => rfl
  | case2 object _ field ih => simp only [unplaced, path?, ih]
  | case3 _ inner ih => simp only [unplaced, path?, ih]
  | case4 e hName hMember hParen =>
    cases e with
    | name pos id => exact absurd rfl (hName pos id)
    | member object pos field => exact absurd rfl (hMember object pos field)
    | paren pos inner => exact absurd rfl (hParen pos inner)
    | _ => rfl

end Syntax.Expr

namespace Syntax

def TypeRef.unplaced (t : TypeRef) : TypeRef := { t with pos := nowhere }

def FieldDecl.unplaced (f : FieldDecl) : FieldDecl :=
  { f with type := f.type.unplaced, pos := nowhere }

def Statement.unplaced : Statement → Statement
  | .binding _ kind name type value =>
    .binding nowhere kind name (type.map TypeRef.unplaced) value.unplaced
  | .expr _ value => .expr nowhere value.unplaced
  | .ret _ value => .ret nowhere (value.map Expr.unplaced)

def ImportDecl.unplaced (d : ImportDecl) : ImportDecl := { d with pos := nowhere }

def PropertyDecl.unplaced (p : PropertyDecl) : PropertyDecl :=
  { p with value := p.value.unplaced, pos := nowhere }

def MethodDecl.unplaced (m : MethodDecl) : MethodDecl :=
  { m with
    params := m.params.map FieldDecl.unplaced
    returns := m.returns.map TypeRef.unplaced
    body := m.body.map Statement.unplaced
    pos := nowhere }

def ClassDecl.unplaced (c : ClassDecl) : ClassDecl :=
  { c with
    properties := c.properties.map PropertyDecl.unplaced
    methods := c.methods.map MethodDecl.unplaced
    pos := nowhere }

def InterfaceDecl.unplaced (d : InterfaceDecl) : InterfaceDecl :=
  { d with fields := d.fields.map FieldDecl.unplaced, pos := nowhere }

def File.unplaced (f : File) : File :=
  { imports := f.imports.map ImportDecl.unplaced
    classes := f.classes.map ClassDecl.unplaced
    interfaces := f.interfaces.map InterfaceDecl.unplaced }

/-- What is written instead of the string literal at a place, with its value. -/
structure Rewriting where
  literal : SourcePos → Text → Text
  value : SourcePos → Text → Text
  value?_literal : ∀ pos lit,
    StringLiteral.value? (literal pos lit) = (StringLiteral.value? lit).map (value pos)

/-- Every string is written as it was. -/
def Rewriting.none : Rewriting where
  literal _ lit := lit
  value _ s := s
  value?_literal _ _ := Option.map_id'.symm

def Rewriting.token (ρ : Rewriting) (t : Token) : Token :=
  { t.unplaced with literal := if t.kind = .string then ρ.literal t.pos t.literal else t.literal }

variable (ρ : Rewriting)

mutual

def Expr.rewritten : Expr → Expr
  | .name _ id => .name nowhere id
  | .number _ lit => .number nowhere lit
  | .string pos value => .string nowhere (ρ.value pos value)
  | .bool _ value => .bool nowhere value
  | .array _ elems => .array nowhere (Expr.rewrittenAll elems)
  | .construct _ className args => .construct nowhere className (Expr.rewrittenAll args)
  | .paren _ inner => .paren nowhere inner.rewritten
  | .unary _ op operand => .unary nowhere op operand.rewritten
  | .binary op left right => .binary op left.rewritten right.rewritten
  | .assign target value => .assign target.rewritten value.rewritten
  | .call callee args => .call callee.rewritten (Expr.rewrittenAll args)
  | .member object _ field => .member object.rewritten nowhere field
  | .index object position => .index object.rewritten position.rewritten

def Expr.rewrittenAll : List Expr → List Expr
  | [] => []
  | e :: es => e.rewritten :: Expr.rewrittenAll es

end

theorem Expr.rewrittenAll_eq (es : List Expr) :
    Expr.rewrittenAll ρ es = es.map (Expr.rewritten ρ) := by
  induction es with
  | nil => rfl
  | cons e es ih => rw [Expr.rewrittenAll, ih, List.map_cons]

def Statement.rewritten : Statement → Statement
  | .binding _ kind name type value =>
    .binding nowhere kind name (type.map TypeRef.unplaced) (value.rewritten ρ)
  | .expr _ value => .expr nowhere (value.rewritten ρ)
  | .ret _ value => .ret nowhere (value.map (Expr.rewritten ρ))

def PropertyDecl.rewritten (p : PropertyDecl) : PropertyDecl :=
  { p with value := p.value.rewritten ρ, pos := nowhere }

def MethodDecl.rewritten (m : MethodDecl) : MethodDecl :=
  { m.unplaced with body := m.body.map (Statement.rewritten ρ) }

def ClassDecl.rewritten (c : ClassDecl) : ClassDecl :=
  { c with
    properties := c.properties.map (PropertyDecl.rewritten ρ)
    methods := c.methods.map (MethodDecl.rewritten ρ)
    pos := nowhere }

@[simp] theorem token_none : Rewriting.none.token = Token.unplaced := by
  funext t
  exact congrArg (fun literal => { t.unplaced with literal }) (ite_self _)

mutual

theorem Expr.rewritten_none : ∀ e : Expr, e.rewritten .none = e.unplaced
  | .name .. | .number .. | .string .. | .bool .. => rfl
  | .array _ elems => by
    simp only [Expr.rewritten, Expr.unplaced, Expr.rewrittenAll_none elems]
  | .construct _ _ args => by
    simp only [Expr.rewritten, Expr.unplaced, Expr.rewrittenAll_none args]
  | .paren _ inner => by simp only [Expr.rewritten, Expr.unplaced, inner.rewritten_none]
  | .unary _ _ operand => by simp only [Expr.rewritten, Expr.unplaced, operand.rewritten_none]
  | .binary _ left right => by
    simp only [Expr.rewritten, Expr.unplaced, left.rewritten_none, right.rewritten_none]
  | .assign target value => by
    simp only [Expr.rewritten, Expr.unplaced, target.rewritten_none, value.rewritten_none]
  | .call callee args => by
    simp only [Expr.rewritten, Expr.unplaced, callee.rewritten_none, Expr.rewrittenAll_none args]
  | .member object _ _ => by simp only [Expr.rewritten, Expr.unplaced, object.rewritten_none]
  | .index object position => by
    simp only [Expr.rewritten, Expr.unplaced, object.rewritten_none, position.rewritten_none]

theorem Expr.rewrittenAll_none : ∀ es : List Expr,
    Expr.rewrittenAll .none es = Expr.unplacedAll es
  | [] => rfl
  | e :: es => by
    simp only [Expr.rewrittenAll, Expr.unplacedAll, e.rewritten_none, Expr.rewrittenAll_none es]

end

theorem Statement.rewritten_none (s : Statement) : s.rewritten .none = s.unplaced := by
  cases s <;> simp [Statement.rewritten, Statement.unplaced, funext Expr.rewritten_none]

theorem ClassDecl.rewritten_none (c : ClassDecl) : c.rewritten .none = c.unplaced := by
  have hProperty : PropertyDecl.rewritten .none = PropertyDecl.unplaced := by
    funext p
    simp only [PropertyDecl.rewritten, PropertyDecl.unplaced, Expr.rewritten_none]
  have hMethod : MethodDecl.rewritten .none = MethodDecl.unplaced := by
    funext m
    simp only [MethodDecl.rewritten, MethodDecl.unplaced, funext Statement.rewritten_none]
  simp only [ClassDecl.rewritten, ClassDecl.unplaced, hProperty, hMethod]

end Syntax

end AnchorScript
