set_option autoImplicit false

/-! # Syntax trees

The trees that the parser builds and all later stages work on. Names keep the line and the
offset of their token: the line locates errors, and the offset tells one reference from every
other (`Name.start`), so it serves as the key of the reference in a binding table. In the trees of a
parser that draws identities (`Drawing`), the identity of a reference stands there instead.

The tree has no `for`: such a loop is written with `block` and `loop`.
-/

namespace Lox

/-- A name as it stands in a source: an identifier, `this` or `super`. -/
structure Name where
  text : String
  line : Nat
  start : Nat
deriving DecidableEq, Inhabited

/-- The value of a literal. -/
inductive Literal
  | nil
  | bool (value : Bool)
  | number (value : Float)
  | string (contents : String)
deriving Inhabited

inductive UnaryOp
  | negate
  | not
deriving DecidableEq, Inhabited

inductive BinaryOp
  | add
  | subtract
  | multiply
  | divide
  | less
  | lessEqual
  | greater
  | greaterEqual
  | equal
  | notEqual
deriving DecidableEq, Inhabited

inductive LogicalOp
  | and
  | or
deriving DecidableEq, Inhabited

/-- Expressions. A unary or binary operator has the line of its token, a call that of its
closing parenthesis: there their errors are reported. -/
inductive Expr
  | literal (value : Literal)
  | grouping (inner : Expr)
  | unary (op : UnaryOp) (line : Nat) (operand : Expr)
  | binary (op : BinaryOp) (line : Nat) (left right : Expr)
  | logical (op : LogicalOp) (left right : Expr)
  | variable (name : Name)
  | assign (name : Name) (value : Expr)
  | call (callee : Expr) (arguments : List Expr) (line : Nat)
  | get (object : Expr) (property : Name)
  | set (object : Expr) (property : Name) (value : Expr)
  | this (keyword : Name)
  | super (keyword method : Name)
deriving Inhabited

mutual

/-- Statements. -/
inductive Stmt
  | expression (expr : Expr)
  | print (expr : Expr)
  | var (name : Name) (initial : Option Expr)
  | block (body : List Stmt)
  | branch (condition : Expr) (yes : Stmt) (no : Option Stmt)
  | loop (condition : Expr) (body : Stmt)
  | function (decl : Function)
  | ret (keyword : Name) (value : Option Expr)
  | classDecl (name : Name) (superclass : Option Name) (methods : List Function)

/-- The declaration of a function or a method. -/
inductive Function
  | mk (name : Name) (parameters : List Name) (body : List Stmt)

end

instance : Inhabited Stmt := ⟨.block []⟩

instance : Inhabited Function := ⟨.mk default [] []⟩

namespace Function

/-- The name of a function. -/
def name : Function → Name
  | mk name _ _ => name

/-- The parameters of a function. -/
def parameters : Function → List Name
  | mk _ parameters _ => parameters

/-- The body of a function. -/
def body : Function → List Stmt
  | mk _ _ body => body

/-- How many arguments a function takes. -/
def arity (f : Function) : Nat := f.parameters.length

/-- The name of the method that runs when an instance is made. -/
def initializerName : String := "init"

/-- The function, as a method of a class, runs when an instance is made. -/
def isNamedInit (f : Function) : Bool := f.name.text == initializerName

end Function

/-- A program is its declarations and statements in order. -/
abbrev Program := List Stmt

namespace UnaryOp

/-- The spelling of a unary operator. -/
def text : UnaryOp → String
  | negate => "-"
  | not => "!"

end UnaryOp

namespace BinaryOp

/-- The spelling of a binary operator. -/
def text : BinaryOp → String
  | add => "+"
  | subtract => "-"
  | multiply => "*"
  | divide => "/"
  | less => "<"
  | lessEqual => "<="
  | greater => ">"
  | greaterEqual => ">="
  | equal => "=="
  | notEqual => "!="

end BinaryOp

namespace LogicalOp

/-- The spelling of a logical operator. -/
def text : LogicalOp → String
  | and => "and"
  | or => "or"

end LogicalOp

end Lox
