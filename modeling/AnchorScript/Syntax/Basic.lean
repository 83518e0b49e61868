import AnchorScript.Token

/-!
# Program sources as trees

A source file holds imports, classes and interfaces. Expressions keep the position of each leaf and
of each construct that a word or bracket of its own begins; the position of any other expression is
that of its leftmost part.
-/

namespace AnchorScript.Syntax

inductive UnaryOp where
  | neg | not
  deriving DecidableEq

inductive BinaryOp where
  | or | and | eq | ne | lt | le | gt | ge | add | sub | mul | div | rem
  deriving DecidableEq

inductive Expr where
  | name (pos : SourcePos) (id : Text)
  | number (pos : SourcePos) (literal : Text)
  | string (pos : SourcePos) (value : Text)
  | bool (pos : SourcePos) (value : Bool)
  | array (pos : SourcePos) (elems : List Expr)
  | construct (pos : SourcePos) (className : Text) (args : List Expr)
  | paren (pos : SourcePos) (inner : Expr)
  | unary (pos : SourcePos) (op : UnaryOp) (operand : Expr)
  | binary (op : BinaryOp) (left right : Expr)
  | assign (target value : Expr)
  | call (callee : Expr) (args : List Expr)
  | member (object : Expr) (pos : SourcePos) (field : Text)
  | index (object position : Expr)

namespace Expr

/-- A member access is reported at the member's name. -/
def pos : Expr → SourcePos
  | name p _ | number p _ | string p _ | bool p _ | array p _ | construct p _ _ => p
  | paren p _ | unary p _ _ | member _ p _ => p
  | binary _ l _ => l.pos
  | assign t _ => t.pos
  | call c _ => c.pos
  | index o _ => o.pos

/-- The names of a dotted path, seen through parentheses. -/
def path? : Expr → Option (List Text)
  | name _ id => some [id]
  | member o _ f => o.path?.map (· ++ [f])
  | paren _ e => e.path?
  | _ => none

end Expr

structure TypeRef where
  name : Text
  arg : Option Text
  pos : SourcePos

/-- A name with its type: an interface field or a method parameter. -/
structure FieldDecl where
  name : Text
  type : TypeRef
  pos : SourcePos

inductive BindingKind where
  | const | letting
  deriving DecidableEq

def BindingKind.text : BindingKind → Text
  | const => "const"
  | letting => "let"

inductive Statement where
  | binding (pos : SourcePos) (kind : BindingKind) (name : Text) (type : Option TypeRef)
      (value : Expr)
  | expr (pos : SourcePos) (value : Expr)
  | ret (pos : SourcePos) (value : Option Expr)

def Statement.pos : Statement → SourcePos
  | binding p .. => p
  | expr p _ => p
  | ret p _ => p

structure ImportDecl where
  names : List Text
  module : Text
  pos : SourcePos

structure PropertyDecl where
  name : Text
  isStatic : Bool
  value : Expr
  pos : SourcePos

structure MethodDecl where
  name : Text
  params : List FieldDecl
  returns : Option TypeRef
  body : List Statement
  pos : SourcePos

structure ClassDecl where
  name : Text
  isExported : Bool
  isDefault : Bool
  properties : List PropertyDecl
  methods : List MethodDecl
  pos : SourcePos

structure InterfaceDecl where
  name : Text
  isExported : Bool
  base : Option Text
  fields : List FieldDecl
  pos : SourcePos

structure File where
  imports : List ImportDecl
  classes : List ClassDecl
  interfaces : List InterfaceDecl

end AnchorScript.Syntax
