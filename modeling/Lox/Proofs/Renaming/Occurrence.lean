import Lox.Proofs.Parsing.Names
import Lox.Proofs.Renaming.Tree
import Mathlib.Data.List.Perm.Subperm

set_option autoImplicit false

/-! # Where a local variable occurs

What a name refers to can be read off a program: the nearest declaration of its spelling, among
those before it in the blocks and functions around it. `Program.occurrences` lists all names of a
program, each with the local variable or parameter that it stands for, if it stands for one; the
declaration itself stands for what it declares. Nothing else is known here of scopes or of runs.

The names of a program that is read from a text come from identifiers, each from one of its own.
-/

namespace Lox

/-! ## Names -/

mutual

/-- The identifiers in an expression. -/
def Expr.names : Expr → List Name
  | .literal _ | .this _ => []
  | .grouping inner => inner.names
  | .unary _ _ operand => operand.names
  | .binary _ _ left right => left.names ++ right.names
  | .logical _ left right => left.names ++ right.names
  | .variable name => [name]
  | .assign name value => name :: value.names
  | .call callee arguments _ => callee.names ++ Expr.namesAll arguments
  | .get object property => object.names ++ [property]
  | .set object property value => object.names ++ property :: value.names
  | .super _ method => [method]

/-- The identifiers in expressions. -/
def Expr.namesAll : List Expr → List Name
  | [] => []
  | e :: es => e.names ++ Expr.namesAll es

end

/-- The identifiers in an expression, if there is one. -/
def Expr.namesOf? : Option Expr → List Name
  | none => []
  | some e => e.names

mutual

/-- The identifiers in a statement. -/
def Stmt.names : Stmt → List Name
  | .expression e | .print e => e.names
  | .var name initial => name :: Expr.namesOf? initial
  | .block body => Stmt.namesAll body
  | .branch condition yes none => condition.names ++ yes.names
  | .branch condition yes (some no) => condition.names ++ (yes.names ++ no.names)
  | .loop condition body => condition.names ++ body.names
  | .function f => f.names
  | .ret _ value => Expr.namesOf? value
  | .classDecl name superclass methods =>
    name :: (superclass.toList ++ Function.namesAll methods)

/-- The identifiers in statements. -/
def Stmt.namesAll : List Stmt → List Name
  | [] => []
  | s :: ss => s.names ++ Stmt.namesAll ss

/-- The identifiers in a function. -/
def Function.names : Function → List Name
  | .mk name parameters body => name :: (parameters ++ Stmt.namesAll body)

/-- The identifiers in functions. -/
def Function.namesAll : List Function → List Name
  | [] => []
  | f :: fs => f.names ++ Function.namesAll fs

end

/-- The identifiers in a program. -/
def Program.names (p : Program) : List Name := Stmt.namesAll p

/-! ## Meanings -/

/-- What names mean at a place, the nearest declaration first: a local variable or a parameter, or
something else that was declared. -/
abbrev Meanings := List (String × Option Name)

namespace Meanings

/-- The local variable or parameter that a name stands for. -/
def of (m : Meanings) (name : Name) : Option Name := (m.lookup name.text).join

/-- What names mean after a variable. -/
def afterVariable (m : Meanings) (isLocal : Bool) (name : Name) : Meanings :=
  (name.text, if isLocal then some name else none) :: m

/-- What names mean after a function or a class. -/
def afterOther (m : Meanings) (name : Name) : Meanings := (name.text, none) :: m

/-- What names mean after the parameters of a function. -/
def afterParameters (m : Meanings) : List Name → Meanings
  | [] => m
  | name :: names => (m.afterVariable true name).afterParameters names

end Meanings

/-- A name in a program, with the local variable or parameter that it stands for. -/
structure Occurrence where
  name : Name
  meaning : Option Name
deriving DecidableEq

mutual

/-- What the names in an expression stand for. -/
def Expr.occurrences (m : Meanings) : Expr → List Occurrence
  | .literal _ | .this _ => []
  | .grouping inner => inner.occurrences m
  | .unary _ _ operand => operand.occurrences m
  | .binary _ _ left right => left.occurrences m ++ right.occurrences m
  | .logical _ left right => left.occurrences m ++ right.occurrences m
  | .variable name => [⟨name, m.of name⟩]
  | .assign name value => ⟨name, m.of name⟩ :: value.occurrences m
  | .call callee arguments _ => callee.occurrences m ++ Expr.occurrencesAll m arguments
  | .get object property => object.occurrences m ++ [⟨property, none⟩]
  | .set object property value => object.occurrences m ++ ⟨property, none⟩ :: value.occurrences m
  | .super _ method => [⟨method, none⟩]

/-- What the names in expressions stand for. -/
def Expr.occurrencesAll (m : Meanings) : List Expr → List Occurrence
  | [] => []
  | e :: es => e.occurrences m ++ Expr.occurrencesAll m es

end

/-- What the names in an expression stand for, if there is one. -/
def Expr.occurrencesOf? (m : Meanings) : Option Expr → List Occurrence
  | none => []
  | some e => e.occurrences m

/-- What names mean after a statement. Nothing at the top level is a local variable. -/
def Stmt.meaningsAfter (isLocal : Bool) (m : Meanings) : Stmt → Meanings
  | .var name _ => m.afterVariable isLocal name
  | .function f => m.afterOther f.name
  | .classDecl name _ _ => m.afterOther name
  | _ => m

mutual

/-- What the names in a statement stand for. A variable is in scope in its own initializer, a
function in its body, and a class in its superclass clause and its methods. -/
def Stmt.occurrences (isLocal : Bool) (m : Meanings) : Stmt → List Occurrence
  | .expression e | .print e => e.occurrences m
  | .var name initial =>
    ⟨name, if isLocal then some name else none⟩ ::
      Expr.occurrencesOf? (m.afterVariable isLocal name) initial
  | .block body => Stmt.occurrencesAll true m body
  | .branch condition yes none => condition.occurrences m ++ yes.occurrences isLocal m
  | .branch condition yes (some no) =>
    condition.occurrences m ++ (yes.occurrences isLocal m ++ no.occurrences isLocal m)
  | .loop condition body => condition.occurrences m ++ body.occurrences isLocal m
  | .function f => f.occurrences (m.afterOther f.name)
  | .ret _ value => Expr.occurrencesOf? m value
  | .classDecl name superclass methods =>
    ⟨name, none⟩ ::
      (superclass.toList.map (fun above => ⟨above, (m.afterOther name).of above⟩) ++
        Function.occurrencesAll (m.afterOther name) methods)

/-- What the names in statements stand for, each statement seeing those before it. -/
def Stmt.occurrencesAll (isLocal : Bool) (m : Meanings) : List Stmt → List Occurrence
  | [] => []
  | s :: ss => s.occurrences isLocal m ++ Stmt.occurrencesAll isLocal (s.meaningsAfter isLocal m) ss

/-- What the names in a function stand for. -/
def Function.occurrences (m : Meanings) : Function → List Occurrence
  | .mk name parameters body =>
    ⟨name, none⟩ :: (parameters.map (fun n => ⟨n, some n⟩) ++
      Stmt.occurrencesAll true (m.afterParameters parameters) body)

/-- What the names in functions stand for. -/
def Function.occurrencesAll (m : Meanings) : List Function → List Occurrence
  | [] => []
  | f :: fs => f.occurrences m ++ Function.occurrencesAll m fs

end

namespace Program

/-- What the names in a program stand for. -/
def occurrences (p : Program) : List Occurrence := Stmt.occurrencesAll false [] p

/-- The program declares this local variable or parameter: the name stands for itself. -/
def DeclaresLocal (p : Program) (d : Name) : Prop := ⟨d, some d⟩ ∈ p.occurrences

instance (p : Program) (d : Name) : Decidable (p.DeclaresLocal d) :=
  inferInstanceAs (Decidable (_ ∈ _))

/-- Another name for a local variable or parameter: where it is declared, and wherever a name
stands for it. -/
def renamingOf (p : Program) (d : Name) (new : String) : Renaming where
  old := d.text
  new
  starts := (p.occurrences.filter (·.meaning = some d)).map (·.name.start)

end Program

/-! ## Occurrences are names -/

mutual

theorem Expr.map_name_occurrences (m : Meanings) :
    (e : Expr) → (e.occurrences m).map Occurrence.name = e.names
  | .literal _ | .this _ | .variable _ | .super _ _ => rfl
  | .grouping inner => Expr.map_name_occurrences m inner
  | .unary _ _ operand => Expr.map_name_occurrences m operand
  | .binary _ _ left right | .logical _ left right => by
      simp [Expr.occurrences, Expr.names, Expr.map_name_occurrences m left,
        Expr.map_name_occurrences m right]
  | .assign name value => by
      simp [Expr.occurrences, Expr.names, Expr.map_name_occurrences m value]
  | .call callee arguments _ => by
      simp [Expr.occurrences, Expr.names, Expr.map_name_occurrences m callee,
        Expr.map_name_occurrencesAll m arguments]
  | .get object property => by
      simp [Expr.occurrences, Expr.names, Expr.map_name_occurrences m object]
  | .set object property value => by
      simp [Expr.occurrences, Expr.names, Expr.map_name_occurrences m object,
        Expr.map_name_occurrences m value]

theorem Expr.map_name_occurrencesAll (m : Meanings) :
    (es : List Expr) → (Expr.occurrencesAll m es).map Occurrence.name = Expr.namesAll es
  | [] => rfl
  | e :: es => by
      simp [Expr.occurrencesAll, Expr.namesAll, Expr.map_name_occurrences m e,
        Expr.map_name_occurrencesAll m es]

end

theorem Expr.map_name_occurrencesOf? (m : Meanings) (e : Option Expr) :
    (Expr.occurrencesOf? m e).map Occurrence.name = Expr.namesOf? e := by
  cases e with
  | none => rfl
  | some e => exact e.map_name_occurrences m

mutual

theorem Stmt.map_name_occurrences (isLocal : Bool) (m : Meanings) :
    (s : Stmt) → (s.occurrences isLocal m).map Occurrence.name = s.names
  | .expression e | .print e => e.map_name_occurrences m
  | .var name initial => by
      simp [Stmt.occurrences, Stmt.names, Expr.map_name_occurrencesOf?]
  | .block body => Stmt.map_name_occurrencesAll true m body
  | .branch condition yes none => by
      simp [Stmt.occurrences, Stmt.names, Expr.map_name_occurrences,
        Stmt.map_name_occurrences isLocal m yes]
  | .branch condition yes (some no) => by
      simp [Stmt.occurrences, Stmt.names, Expr.map_name_occurrences,
        Stmt.map_name_occurrences isLocal m yes, Stmt.map_name_occurrences isLocal m no]
  | .loop condition body => by
      simp [Stmt.occurrences, Stmt.names, Expr.map_name_occurrences,
        Stmt.map_name_occurrences isLocal m body]
  | .function f => Function.map_name_occurrences _ f
  | .ret _ value => Expr.map_name_occurrencesOf? m value
  | .classDecl name superclass methods => by
      simp [Stmt.occurrences, Stmt.names, Function.map_name_occurrencesAll _ methods,
        Function.comp_def]

theorem Stmt.map_name_occurrencesAll (isLocal : Bool) (m : Meanings) :
    (ss : List Stmt) →
      (Stmt.occurrencesAll isLocal m ss).map Occurrence.name = Stmt.namesAll ss
  | [] => rfl
  | s :: ss => by
      simp [Stmt.occurrencesAll, Stmt.namesAll, Stmt.map_name_occurrences isLocal m s,
        Stmt.map_name_occurrencesAll isLocal _ ss]

theorem Function.map_name_occurrences (m : Meanings) :
    (f : Function) → (f.occurrences m).map Occurrence.name = f.names
  | .mk name parameters body => by
      simp [Function.occurrences, Function.names, Stmt.map_name_occurrencesAll true _ body,
        Function.comp_def]

theorem Function.map_name_occurrencesAll (m : Meanings) :
    (fs : List Function) →
      (Function.occurrencesAll m fs).map Occurrence.name = Function.namesAll fs
  | [] => rfl
  | f :: fs => by
      simp [Function.occurrencesAll, Function.namesAll, Function.map_name_occurrences m f,
        Function.map_name_occurrencesAll m fs]

end

theorem Program.map_name_occurrences (p : Program) :
    p.occurrences.map Occurrence.name = p.names := Stmt.map_name_occurrencesAll false [] p

/-! ## Meanings have the spelling of what they mean -/

/-- A name that stands for a variable has its spelling. -/
def Occurrence.SameText (o : Occurrence) : Prop := ∀ v ∈ o.meaning, v.text = o.name.text

theorem Occurrence.sameText_none (name : Name) : Occurrence.SameText ⟨name, none⟩ := nofun

theorem Occurrence.sameText_self (isLocal : Bool) (name : Name) :
    Occurrence.SameText ⟨name, if isLocal then some name else none⟩ := by
  intro v hv
  cases isLocal with
  | false => cases hv
  | true =>
      cases hv
      rfl

namespace Meanings

/-- What was declared is known under its spelling. -/
def SameText (m : Meanings) : Prop := ∀ text v, (text, some v) ∈ m → v.text = text

variable {m : Meanings}

theorem sameText_nil : SameText [] := nofun

theorem SameText.of (hm : m.SameText) (name : Name) : Occurrence.SameText ⟨name, m.of name⟩ := by
  intro v hv
  have hlookup : m.lookup name.text = some (some v) := Option.join_eq_some_iff.1 hv
  obtain ⟨before, after, hsplit, -⟩ := List.lookup_eq_some_iff.1 hlookup
  have hmem : (name.text, some v) ∈ m := by
    rw [hsplit]
    exact List.mem_append_right before List.mem_cons_self
  exact hm name.text v hmem

theorem SameText.afterOther (hm : m.SameText) (name : Name) : (m.afterOther name).SameText := by
  intro text v h
  rcases List.mem_cons.1 h with h | h
  · cases h
  · exact hm text v h

theorem SameText.afterVariable (hm : m.SameText) (isLocal : Bool) (name : Name) :
    (m.afterVariable isLocal name).SameText := by
  intro text v h
  rcases List.mem_cons.1 h with h | h
  · obtain ⟨rfl, hmeaning⟩ := Prod.mk.inj h
    exact Occurrence.sameText_self isLocal name v hmeaning.symm
  · exact hm text v h

theorem SameText.afterParameters (hm : m.SameText) (names : List Name) :
    (m.afterParameters names).SameText := by
  induction names generalizing m with
  | nil => exact hm
  | cons name names ih => exact ih (hm.afterVariable true name)

theorem SameText.after (hm : m.SameText) (isLocal : Bool) (s : Stmt) :
    (s.meaningsAfter isLocal m).SameText := by
  cases s with
  | var name initial => exact hm.afterVariable isLocal name
  | function f => exact hm.afterOther f.name
  | classDecl name superclass methods => exact hm.afterOther name
  | _ => exact hm

end Meanings

mutual

theorem Expr.sameText_occurrences {m : Meanings} (hm : m.SameText) :
    (e : Expr) → ∀ o ∈ e.occurrences m, o.SameText
  | .literal _ | .this _ => nofun
  | .grouping inner => Expr.sameText_occurrences hm inner
  | .unary _ _ operand => Expr.sameText_occurrences hm operand
  | .binary _ _ left right | .logical _ left right =>
      List.forall_mem_append.2
        ⟨Expr.sameText_occurrences hm left, Expr.sameText_occurrences hm right⟩
  | .variable name => List.forall_mem_singleton.2 (hm.of name)
  | .assign name value =>
      List.forall_mem_cons.2 ⟨hm.of name, Expr.sameText_occurrences hm value⟩
  | .call callee arguments _ =>
      List.forall_mem_append.2
        ⟨Expr.sameText_occurrences hm callee, Expr.sameText_occurrencesAll hm arguments⟩
  | .get object property =>
      List.forall_mem_append.2 ⟨Expr.sameText_occurrences hm object,
        List.forall_mem_singleton.2 (Occurrence.sameText_none property)⟩
  | .set object property value =>
      List.forall_mem_append.2 ⟨Expr.sameText_occurrences hm object,
        List.forall_mem_cons.2
          ⟨Occurrence.sameText_none property, Expr.sameText_occurrences hm value⟩⟩
  | .super _ method => List.forall_mem_singleton.2 (Occurrence.sameText_none method)

theorem Expr.sameText_occurrencesAll {m : Meanings} (hm : m.SameText) :
    (es : List Expr) → ∀ o ∈ Expr.occurrencesAll m es, o.SameText
  | [] => nofun
  | e :: es =>
      List.forall_mem_append.2
        ⟨Expr.sameText_occurrences hm e, Expr.sameText_occurrencesAll hm es⟩

end

theorem Expr.sameText_occurrencesOf? {m : Meanings} (hm : m.SameText) (e : Option Expr) :
    ∀ o ∈ Expr.occurrencesOf? m e, o.SameText := by
  cases e with
  | none => exact nofun
  | some e => exact Expr.sameText_occurrences hm e

mutual

theorem Stmt.sameText_occurrences (isLocal : Bool) {m : Meanings} (hm : m.SameText) :
    (s : Stmt) → ∀ o ∈ s.occurrences isLocal m, o.SameText
  | .expression e | .print e => Expr.sameText_occurrences hm e
  | .var name initial =>
      List.forall_mem_cons.2 ⟨Occurrence.sameText_self isLocal name,
        Expr.sameText_occurrencesOf? (hm.afterVariable isLocal name) initial⟩
  | .block body => Stmt.sameText_occurrencesAll true hm body
  | .branch condition yes none =>
      List.forall_mem_append.2
        ⟨Expr.sameText_occurrences hm condition, Stmt.sameText_occurrences isLocal hm yes⟩
  | .branch condition yes (some no) =>
      List.forall_mem_append.2 ⟨Expr.sameText_occurrences hm condition,
        List.forall_mem_append.2
          ⟨Stmt.sameText_occurrences isLocal hm yes, Stmt.sameText_occurrences isLocal hm no⟩⟩
  | .loop condition body =>
      List.forall_mem_append.2
        ⟨Expr.sameText_occurrences hm condition, Stmt.sameText_occurrences isLocal hm body⟩
  | .function f => Function.sameText_occurrences (hm.afterOther f.name) f
  | .ret _ value => Expr.sameText_occurrencesOf? hm value
  | .classDecl name superclass methods => by
      have hinside := hm.afterOther name
      have habove : ∀ o ∈ superclass.toList.map
          (fun above => (⟨above, (m.afterOther name).of above⟩ : Occurrence)), o.SameText :=
        List.forall_mem_map.2 fun above _ => hinside.of above
      exact List.forall_mem_cons.2 ⟨Occurrence.sameText_none name,
        List.forall_mem_append.2 ⟨habove, Function.sameText_occurrencesAll hinside methods⟩⟩

theorem Stmt.sameText_occurrencesAll (isLocal : Bool) {m : Meanings} (hm : m.SameText) :
    (ss : List Stmt) → ∀ o ∈ Stmt.occurrencesAll isLocal m ss, o.SameText
  | [] => nofun
  | s :: ss =>
      List.forall_mem_append.2 ⟨Stmt.sameText_occurrences isLocal hm s,
        Stmt.sameText_occurrencesAll isLocal (hm.after isLocal s) ss⟩

theorem Function.sameText_occurrences {m : Meanings} (hm : m.SameText) :
    (f : Function) → ∀ o ∈ f.occurrences m, o.SameText
  | .mk name parameters body =>
      List.forall_mem_cons.2 ⟨Occurrence.sameText_none name,
        List.forall_mem_append.2
          ⟨List.forall_mem_map.2 fun parameter _ => Occurrence.sameText_self true parameter,
            Stmt.sameText_occurrencesAll true (hm.afterParameters parameters) body⟩⟩

theorem Function.sameText_occurrencesAll {m : Meanings} (hm : m.SameText) :
    (fs : List Function) → ∀ o ∈ Function.occurrencesAll m fs, o.SameText
  | [] => nofun
  | f :: fs =>
      List.forall_mem_append.2
        ⟨Function.sameText_occurrences hm f, Function.sameText_occurrencesAll hm fs⟩

end

theorem Program.sameText_occurrences (p : Program) : ∀ o ∈ p.occurrences, o.SameText :=
  Stmt.sameText_occurrencesAll false Meanings.sameText_nil p

/-! ## Names are identifiers -/

namespace Grammar

/-- The identifiers in a tree. -/
def Tree.identifiers : Tree → List Name
  | .expr e => e.names
  | .maybeExpr e => Expr.namesOf? e
  | .exprs es => Expr.namesAll es
  | .name n => n.toList
  | .names ns => ns
  | .stmt s => s.names
  | .maybeStmt none => []
  | .maybeStmt (some s) => s.names
  | .stmts ss => Stmt.namesAll ss
  | .function f => f.names
  | .functions fs => Function.namesAll fs

theorem names_join (op : InfixOp) (line : Nat) (left right : Expr) :
    (op.join line left right).names = left.names ++ right.names := by
  cases op <;> rfl

theorem names_branch (condition : Expr) (yes : Stmt) (no : Option Stmt) :
    (Stmt.branch condition yes no).names =
      condition.names ++ (yes.names ++ Tree.identifiers (.maybeStmt no)) := by
  cases no with
  | none => exact congrArg _ (List.append_nil _).symm
  | some no => rfl

/-- A loop has the names of its clauses and its body. -/
theorem perm_names_forLoop (initial : Option Stmt) (condition increment : Option Expr)
    (body : Stmt) :
    (Stmt.forLoop initial condition increment body).names.Perm
      (Tree.identifiers (.maybeStmt initial) ++ (Tree.identifiers (.maybeExpr condition) ++
        (Tree.identifiers (.maybeExpr increment) ++ body.names))) := by
  have hcondition : (condition.getD (.literal (.bool true))).names =
      Tree.identifiers (.maybeExpr condition) := by
    cases condition <;> rfl
  have hrounds : (Stmt.forLoop none condition increment body).names.Perm
      (Tree.identifiers (.maybeExpr condition) ++
        (Tree.identifiers (.maybeExpr increment) ++ body.names)) := by
    cases increment with
    | none =>
        simp only [Stmt.forLoop, Stmt.names, hcondition]
        exact .refl _
    | some e =>
        -- The increment follows the body in the block that is run each time.
        simp only [Stmt.forLoop, Stmt.names, Stmt.namesAll, hcondition, List.append_nil]
        exact List.perm_append_comm.append_left _
  cases initial with
  | none => exact hrounds
  | some s =>
      have hloop : Stmt.forLoop (some s) condition increment body =
          .block [s, Stmt.forLoop none condition increment body] := rfl
      simp only [hloop, Stmt.names, Stmt.namesAll, List.append_nil]
      exact hrounds.append_left _

/-- The name that a token spells, if it is an identifier. -/
def name? (t : Token) : Option Name :=
  match t.kind with
  | .identifier => some t.toName
  | _ => none

theorem name?_of_identifier {t : Token} (h : t.kind = .identifier) : name? t = some t.toName := by
  simp [name?, h]

/-- The names that tokens spell. -/
def identifiers (ts : List Token) : List Name := ts.filterMap name?

@[simp] theorem identifiers_nil : identifiers [] = [] := rfl

@[simp] theorem identifiers_append (ts us : List Token) :
    identifiers (ts ++ us) = identifiers ts ++ identifiers us := List.filterMap_append

@[simp] theorem identifiers_cons (t : Token) (ts : List Token) :
    identifiers (t :: ts) = (name? t).toList ++ identifiers ts := by
  rw [identifiers, List.filterMap_cons]
  cases name? t <;> rfl

/-- The names of a tree come from the identifiers that spell it, no two from one of them. -/
theorem Spells.count_names_le {p : Phrase} {ts : List Token} {tree : Tree}
    (h : Spells p ts tree) (n : Name) : tree.identifiers.count n ≤ (identifiers ts).count n := by
  induction h with
  | primary _ ih | callUnary _ ih | operand _ ih | disjunction _ ih | expression _ ih
  | arguments _ ih | someExpression _ ih | variableDecl _ ih | statement _ ih
  | expressionStmt _ ih | forVariable _ ih | forExpression _ ih | blockStmt _ ih =>
      exact ih
  | @forStmt _ _ _ _ _ _ _ _ initial condition increment body =>
      have hperm := (perm_names_forLoop initial condition increment body).count_eq n
      simp only [Tree.identifiers, identifiers_cons, identifiers_append, List.count_append] at *
      omega
  | _ =>
      simp only [Tree.identifiers, Expr.names, Expr.namesAll, Expr.namesOf?, Stmt.names,
        Stmt.namesAll, Function.names, Function.namesAll, names_join, names_branch,
        Option.toList_none, Option.toList_some, identifiers_cons, identifiers_append,
        identifiers_nil, List.count_append, List.count_cons, List.count_nil,
        name?_of_identifier, *] at *
      omega

/-- A name that tokens spell is an identifier among them. -/
theorem exists_of_mem_identifiers {ts : List Token} {n : Name} (h : n ∈ identifiers ts) :
    ∃ t ∈ ts, t.kind = .identifier ∧ t.toName = n := by
  obtain ⟨t, ht, hn⟩ := List.mem_filterMap.1 h
  rw [name?] at hn
  split at hn
  · rename_i hkind
    exact ⟨t, ht, hkind, Option.some.inj hn⟩
  · cases hn

theorem sublist_starts (ts : List Token) :
    ((identifiers ts).map Name.start).Sublist (ts.map Token.start) := by
  induction ts with
  | nil => exact .slnil
  | cons t ts ih =>
      rw [identifiers_cons, List.map_append, List.map_cons]
      by_cases h : t.kind = .identifier
      · rw [name?_of_identifier h]
        exact ih.cons_cons _
      · have hnone : name? t = none := by
          rw [name?]
          split
          · contradiction
          · rfl
        rw [hnone]
        exact ih.cons _

end Grammar

namespace Program

variable {source : String} {offset : Nat} {p : Program} {d n : Name} {new : String}

/-- The names of a program that is read from a text are its identifiers, each taken once. -/
theorem names_subperm (h : (Program.ofText source offset).parsed = .ok p) :
    p.names.Subperm (Grammar.identifiers (Scan.ofText source offset).tokens) :=
  List.subperm_ext_iff.2 fun n _ => (spells_of_ofText h).count_names_le n

theorem exists_token_of_mem_names (h : (Program.ofText source offset).parsed = .ok p)
    (hn : n ∈ p.names) :
    ∃ t ∈ (Scan.ofText source offset).tokens, t.kind = .identifier ∧ t.toName = n :=
  Grammar.exists_of_mem_identifiers ((names_subperm h).subset hn)

/-- No two names of a program that is read from a text stand at one offset. -/
theorem nodup_starts (h : (Program.ofText source offset).parsed = .ok p) :
    (p.names.map Name.start).Nodup := by
  obtain ⟨names, hperm, hsublist⟩ := names_subperm h
  have hstarts := (hsublist.map Name.start).trans (Grammar.sublist_starts _)
  have hnodup := (Scan.nodup_starts source offset).sublist hstarts
  exact (hperm.map Name.start).nodup_iff.1 hnodup

/-- If names are told apart by their offsets, then those at the offsets that a renaming of a local
variable changes are those that stand for the variable. -/
theorem mem_starts_iff (hnodup : (p.names.map Name.start).Nodup) {o : Occurrence}
    (ho : o ∈ p.occurrences) :
    o.name.start ∈ (p.renamingOf d new).starts ↔ o.meaning = some d := by
  rw [← map_name_occurrences, List.map_map] at hnodup
  constructor
  · intro h
    obtain ⟨o', ho', hstart⟩ := List.mem_map.1 h
    obtain ⟨ho', hmeaning⟩ := List.mem_filter.1 ho'
    have heq := List.inj_on_of_nodup_map hnodup ho' ho hstart
    rw [← heq]
    exact of_decide_eq_true hmeaning
  · intro h
    exact List.mem_map_of_mem (List.mem_filter.2 ⟨ho, decide_eq_true h⟩)

end Program

end Lox
