import Lox.Binding.Resolve

set_option autoImplicit false

/-! # Static rules

The static rules of the language, without a walk that carries scopes along. A `Place` is a point
of a program where a rule can be broken, together with everything that is around it, and
`Place.Breaks` gives one constructor to each rule.

What is around a place is a list of enclosures, the innermost first. At the top level nothing is
around a place, so declarations there have no scope.
-/

namespace Lox

/-- A construct around a place. A scope comes with the names that it declares before the place;
the parameters of a function and its body are one scope. -/
inductive Enclosure
  | block (declared : List String)
  | function (isMethod : Bool) (name : String) (declared : List String)
  | classBody (hasSuperclass : Bool)
  /-- The initializer of a variable. -/
  | initializer (name : String)
deriving DecidableEq

namespace Enclosure

/-- A function or a method. -/
def isFunction : Enclosure → Bool
  | function _ _ _ => true
  | _ => false

/-- A class. -/
def isClass : Enclosure → Bool
  | classBody _ => true
  | _ => false

end Enclosure

/-- The constructs around a place, the innermost first. -/
abbrev Enclosures := List Enclosure

namespace Enclosures

/-- What the innermost scope declares before a place, unless the place is at the top level. -/
def scope? : Enclosures → Option (List String)
  | .block declared :: _ => some declared
  | .function _ _ declared :: _ => some declared
  | _ => none

/-- Declares a name in the innermost scope. -/
def declare (name : String) : Enclosures → Enclosures
  | .block declared :: outer => .block (name :: declared) :: outer
  | .function isMethod f declared :: outer => .function isMethod f (name :: declared) :: outer
  | around => around

/-- Declares names one after another. -/
def declareAll : Enclosures → List Name → Enclosures
  | around, [] => around
  | around, name :: names => (around.declare name.text).declareAll names

end Enclosures

/-- What stands at a place. -/
inductive Place.Item
  /-- A variable, function, class or parameter. -/
  | declaration (name : Name)
  | read (name : Name)
  | assign (name : Name)
  | ret (keyword : Name) (hasValue : Bool)
  | this (keyword : Name)
  | super (keyword : Name)
  /-- The superclass clause of a class. -/
  | superclass (className name : Name)
deriving DecidableEq

/-- A point of a program and what is around it. -/
structure Place where
  item : Place.Item
  around : Enclosures
deriving DecidableEq

/-! ## The places of a program -/

mutual

/-- The places of an expression. -/
def Expr.places (around : Enclosures) : Expr → List Place
  | .literal _ => []
  | .grouping inner => inner.places around
  | .unary _ _ operand => operand.places around
  | .binary _ _ left right => left.places around ++ right.places around
  | .logical _ left right => left.places around ++ right.places around
  | .variable name => [⟨.read name, around⟩]
  | .assign name value => ⟨.assign name, around⟩ :: value.places around
  | .call callee arguments _ => callee.places around ++ Expr.placesAll around arguments
  | .get object _ => object.places around
  | .set object _ value => object.places around ++ value.places around
  | .this keyword => [⟨.this keyword, around⟩]
  | .super keyword _ => [⟨.super keyword, around⟩]

/-- The places of expressions. -/
def Expr.placesAll (around : Enclosures) : List Expr → List Place
  | [] => []
  | e :: es => e.places around ++ Expr.placesAll around es

end

/-- The places of an expression, if there is one. -/
def Expr.placesOf? (around : Enclosures) : Option Expr → List Place
  | none => []
  | some e => e.places around

/-- The places of declarations in the innermost scope, one after another. -/
def Place.declarations (around : Enclosures) : List Name → List Place
  | [] => []
  | name :: names =>
    ⟨.declaration name, around⟩ :: declarations (around.declare name.text) names

/-- The places of the superclass clause of a class. -/
def Place.superclass (around : Enclosures) (className : Name) : Option Name → List Place
  | none => []
  | some name => [⟨.superclass className name, around⟩, ⟨.read name, around⟩]

/-- What is around the statements after a statement. -/
def Stmt.aroundNext (around : Enclosures) : Stmt → Enclosures
  | .var name _ => around.declare name.text
  | .function f => around.declare f.name.text
  | .classDecl name _ _ => around.declare name.text
  | _ => around

mutual

/-- The places of a statement. -/
def Stmt.places (around : Enclosures) : Stmt → List Place
  | .expression e => e.places around
  | .print e => e.places around
  | .var name initial =>
    ⟨.declaration name, around⟩ :: Expr.placesOf? (.initializer name.text :: around) initial
  | .block body => Stmt.placesAll (.block [] :: around) body
  | .branch condition yes none => condition.places around ++ yes.places around
  | .branch condition yes (some no) =>
    condition.places around ++ yes.places around ++ no.places around
  | .loop condition body => condition.places around ++ body.places around
  | .function f =>
    ⟨.declaration f.name, around⟩ :: f.places false (around.declare f.name.text)
  | .ret keyword value =>
    ⟨.ret keyword value.isSome, around⟩ :: Expr.placesOf? around value
  | .classDecl name superclass methods =>
    let around' := around.declare name.text
    ⟨.declaration name, around⟩ :: Place.superclass around' name superclass ++
      Function.placesAll (.classBody superclass.isSome :: around') methods

/-- The places of statements, each seeing the declarations before it. -/
def Stmt.placesAll (around : Enclosures) : List Stmt → List Place
  | [] => []
  | s :: ss => s.places around ++ Stmt.placesAll (s.aroundNext around) ss

/-- The places of a function. -/
def Function.places (isMethod : Bool) (around : Enclosures) : Function → List Place
  | .mk name parameters body =>
    let inside : Enclosures := .function isMethod name.text [] :: around
    Place.declarations inside parameters ++ Stmt.placesAll (inside.declareAll parameters) body

/-- The places of the methods of a class. -/
def Function.placesAll (around : Enclosures) : List Function → List Place
  | [] => []
  | f :: fs => f.places true around ++ Function.placesAll around fs

end

/-- The places of a program. -/
def Program.places (p : Program) : List Place := Stmt.placesAll [] p

/-! ## The rules -/

/-- What stands at a place breaks a rule, and the error is at a name. -/
inductive Place.Breaks : Place → ResolveError → Prop
  /-- A scope declares a name once. -/
  | redeclaration {name : Name} {around : Enclosures} {declared : List String}
      (hscope : around.scope? = some declared) (h : name.text ∈ declared) :
      Breaks ⟨.declaration name, around⟩ ⟨.redeclaration, name⟩
  /-- A new local variable is not read in its own initializer. -/
  | ownInitializer {name : Name} {inner outer : Enclosures} {declared : List String}
      (hscope : outer.scope? = some declared) (h : name.text ∉ declared) :
      Breaks ⟨.read name, inner ++ .initializer name.text :: outer⟩ ⟨.ownInitializer, name⟩
  /-- Only functions and methods return. -/
  | topLevelReturn {keyword : Name} {hasValue : Bool} {around : Enclosures}
      (h : ∀ e ∈ around, e.isFunction = false) :
      Breaks ⟨.ret keyword hasValue, around⟩ ⟨.topLevelReturn, keyword⟩
  /-- The initializer of a class returns no value. -/
  | initializerReturn {keyword : Name} {inner outer : Enclosures} {declared : List String}
      (h : ∀ e ∈ inner, e.isFunction = false) :
      Breaks ⟨.ret keyword true, inner ++ .function true "init" declared :: outer⟩
        ⟨.initializerReturn, keyword⟩
  /-- Only classes have `this`. -/
  | thisOutsideClass {keyword : Name} {around : Enclosures}
      (h : ∀ e ∈ around, e.isClass = false) :
      Breaks ⟨.this keyword, around⟩ ⟨.thisOutsideClass, keyword⟩
  /-- Only classes have `super`. -/
  | superOutsideClass {keyword : Name} {around : Enclosures}
      (h : ∀ e ∈ around, e.isClass = false) :
      Breaks ⟨.super keyword, around⟩ ⟨.superOutsideClass, keyword⟩
  /-- Only classes with a superclass have `super`. -/
  | superWithoutSuperclass {keyword : Name} {inner outer : Enclosures}
      (h : ∀ e ∈ inner, e.isClass = false) :
      Breaks ⟨.super keyword, inner ++ .classBody false :: outer⟩
        ⟨.superWithoutSuperclass, keyword⟩
  /-- No class is its own superclass. -/
  | ownSuperclass {className name : Name} {around : Enclosures}
      (h : name.text = className.text) :
      Breaks ⟨.superclass className name, around⟩ ⟨.ownSuperclass, name⟩

end Lox
