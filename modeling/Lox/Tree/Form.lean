import Lox.Tree.Basic
import Lox.Number.Text

set_option autoImplicit false

/-! # The prefix form of a tree

A tree is shown with every node in parentheses, its name or operator first and its parts after
single spaces: `1 + 2 * x` is `(+ 1.0 (* 2.0 x))`. Strings are shown without quotes, whole
numbers with all their digits and `.0`.
-/

namespace Lox

/-- The form of a literal. -/
def Literal.form : Literal → String
  | nil => "nil"
  | bool true => "true"
  | bool false => "false"
  | number value => Number.Format.tree.text value
  | string contents => contents

mutual

/-- The form of an expression. -/
def Expr.form : Expr → String
  | .literal value => value.form
  | .grouping inner => "(group " ++ inner.form ++ ")"
  | .unary op _ operand => "(" ++ op.text ++ " " ++ operand.form ++ ")"
  | .binary op _ left right => "(" ++ op.text ++ " " ++ left.form ++ " " ++ right.form ++ ")"
  | .logical op left right => "(" ++ op.text ++ " " ++ left.form ++ " " ++ right.form ++ ")"
  | .variable name => name.text
  | .assign name value => "(= " ++ name.text ++ " " ++ value.form ++ ")"
  | .call callee arguments _ => "(call " ++ callee.form ++ Expr.forms arguments ++ ")"
  | .get object property => "(. " ++ object.form ++ " " ++ property.text ++ ")"
  | .set object property value =>
    "(= (. " ++ object.form ++ " " ++ property.text ++ ") " ++ value.form ++ ")"
  | .this _ => "this"
  | .super _ method => "(super " ++ method.text ++ ")"

/-- The forms of expressions, a space before each. -/
def Expr.forms : List Expr → String
  | [] => ""
  | e :: es => " " ++ e.form ++ Expr.forms es

end

/-- The parameters of a function in its form. -/
def Function.parameterForm (parameters : List Name) : String :=
  "(" ++ String.intercalate " " (parameters.map Name.text) ++ ")"

mutual

/-- The form of a statement. -/
def Stmt.form : Stmt → String
  | .expression e => "(expr " ++ e.form ++ ")"
  | .print e => "(print " ++ e.form ++ ")"
  | .var name none => "(var " ++ name.text ++ ")"
  | .var name (some e) => "(var " ++ name.text ++ " " ++ e.form ++ ")"
  | .block body => "(block" ++ Stmt.forms body ++ ")"
  | .branch condition yes none => "(if " ++ condition.form ++ " " ++ yes.form ++ ")"
  | .branch condition yes (some no) =>
    "(if " ++ condition.form ++ " " ++ yes.form ++ " " ++ no.form ++ ")"
  | .loop condition body => "(while " ++ condition.form ++ " " ++ body.form ++ ")"
  | .function f => f.form
  | .ret _ none => "(return)"
  | .ret _ (some e) => "(return " ++ e.form ++ ")"
  | .classDecl name none methods => "(class " ++ name.text ++ Function.forms methods ++ ")"
  | .classDecl name (some superclass) methods =>
    "(class " ++ name.text ++ " < " ++ superclass.text ++ Function.forms methods ++ ")"

/-- The forms of statements, a space before each. -/
def Stmt.forms : List Stmt → String
  | [] => ""
  | s :: ss => " " ++ s.form ++ Stmt.forms ss

/-- The form of a function or method. -/
def Function.form : Function → String
  | .mk name parameters body =>
    "(fun " ++ name.text ++ " " ++ Function.parameterForm parameters ++ Stmt.forms body ++ ")"

/-- The forms of methods, a space before each. -/
def Function.forms : List Function → String
  | [] => ""
  | f :: fs => " " ++ f.form ++ Function.forms fs

end

end Lox
