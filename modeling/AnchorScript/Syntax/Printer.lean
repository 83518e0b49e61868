import AnchorScript.Syntax.Basic
import AnchorScript.Text.Quoted

/-!
# Printing trees

An expression prints on one line in a form that reads back as the same expression. A file prints as
an outline: method bodies are shown by their number of statements.
-/

namespace AnchorScript.Syntax

def UnaryOp.text : UnaryOp → Text
  | neg => "-"
  | not => "!"

def BinaryOp.text : BinaryOp → Text
  | or => "||" | and => "&&"
  | eq => "==" | ne => "!=" | lt => "<" | le => "<=" | gt => ">" | ge => ">="
  | add => "+" | sub => "-" | mul => "*" | div => "/" | rem => "%"

mutual
def Expr.text : Expr → Text
  | .name _ id => id
  | .number _ lit => lit
  | .string _ value => Text.quoted value
  | .bool _ true => "true"
  | .bool _ false => "false"
  | .array _ elems => "[" ++ Expr.listText elems ++ "]"
  | .construct _ className args => "new " ++ className ++ "(" ++ Expr.listText args ++ ")"
  | .paren _ inner => "(" ++ inner.text ++ ")"
  | .unary _ op operand => op.text ++ operand.text
  | .binary op left right => left.text ++ " " ++ op.text ++ " " ++ right.text
  | .assign target value => target.text ++ " = " ++ value.text
  | .call callee args => callee.text ++ "(" ++ Expr.listText args ++ ")"
  | .member object _ field => object.text ++ "." ++ field
  | .index object position => object.text ++ "[" ++ position.text ++ "]"

def Expr.listText : List Expr → Text
  | [] => []
  | [e] => e.text
  | e :: es => e.text ++ ", " ++ Expr.listText es
end

def TypeRef.text (t : TypeRef) : Text :=
  match t.arg with
  | none => t.name
  | some arg => t.name ++ "<" ++ arg ++ ">"

def FieldDecl.text (f : FieldDecl) : Text := f.name ++ ": " ++ f.type.text

def ImportDecl.text (d : ImportDecl) : Text :=
  "import \x7b " ++ Text.join ", " d.names ++ " \x7d from " ++ Text.quoted d.module ++ "\n"

def PropertyDecl.text (p : PropertyDecl) : Text :=
  "  " ++ (if p.isStatic then Text.ofString "static " else []) ++ p.name ++ " = " ++
    p.value.text ++ "\n"

def MethodDecl.text (m : MethodDecl) : Text :=
  let returns : Text := match m.returns with
    | some t => ": " ++ t.text
    | none => []
  "  " ++ m.name ++ "(" ++ Text.join ", " (m.params.map FieldDecl.text) ++ ")" ++ returns ++
    " \x7b ... \x7d // stmts=" ++ Text.ofNat m.body.length ++ "\n"

def ClassDecl.text (c : ClassDecl) : Text :=
  (if c.isExported then Text.ofString "export " else []) ++
    (if c.isDefault then Text.ofString "default " else []) ++
    "class " ++ c.name ++ " \x7b\n" ++ c.properties.flatMap PropertyDecl.text ++
    c.methods.flatMap MethodDecl.text ++ "\x7d\n"

def InterfaceDecl.text (d : InterfaceDecl) : Text :=
  let base : Text := match d.base with
    | some b => " extends " ++ b
    | none => []
  "interface " ++ d.name ++ base ++ " \x7b\n" ++
    d.fields.flatMap (fun f => ("  " ++ f.text ++ "\n" : Text)) ++ "\x7d\n"

/-- The outline of a file, without a line feed at its end. -/
def File.text (f : File) : Text :=
  Text.trimRight (· = 10) (f.imports.flatMap ImportDecl.text ++
    f.classes.flatMap ClassDecl.text ++ f.interfaces.flatMap InterfaceDecl.text)

end AnchorScript.Syntax
