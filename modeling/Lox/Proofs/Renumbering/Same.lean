import Lox.Proofs.Renumbering.Tree

set_option autoImplicit false

/-! # The renumbering that changes nothing -/

namespace Lox

/-- The same numbers for lines and for offsets. -/
def Renumbering.same : Renumbering := ⟨id, id⟩

theorem Token.renumber_same (t : Token) : t.renumber .same = t := rfl

theorem Name.renumber_same (n : Name) : n.renumber .same = n := rfl

theorem Token.map_renumber_same (ts : List Token) : ts.map (Token.renumber .same) = ts :=
  List.map_id ts

theorem ParseError.map_renumber_same (es : List ParseError) :
    es.map (ParseError.renumber .same) = es :=
  List.map_id es

mutual

theorem Expr.renumber_same : ∀ e : Expr, e.renumber .same = e
  | .literal _ | .variable _ | .this _ | .super _ _ => by rw [Expr.renumber] <;> rfl
  | .grouping inner => by rw [Expr.renumber, Expr.renumber_same inner]
  | .unary _ _ operand => by rw [Expr.renumber, Expr.renumber_same operand]; rfl
  | .binary _ _ left right => by
    rw [Expr.renumber, Expr.renumber_same left, Expr.renumber_same right]; rfl
  | .logical _ left right => by
    rw [Expr.renumber, Expr.renumber_same left, Expr.renumber_same right]
  | .assign _ value => by rw [Expr.renumber, Expr.renumber_same value]; rfl
  | .call callee arguments _ => by
    rw [Expr.renumber, Expr.renumber_same callee, Expr.renumberAll_same arguments]; rfl
  | .get object _ => by rw [Expr.renumber, Expr.renumber_same object]; rfl
  | .set object _ value => by
    rw [Expr.renumber, Expr.renumber_same object, Expr.renumber_same value]; rfl

theorem Expr.renumberAll_same : ∀ es : List Expr, Expr.renumberAll .same es = es
  | [] => by rw [Expr.renumberAll]
  | e :: es => by rw [Expr.renumberAll, Expr.renumber_same e, Expr.renumberAll_same es]

end

theorem Name.map_renumber_same (ns : List Name) : ns.map (Name.renumber .same) = ns :=
  List.map_id ns

theorem Name.optionMap_renumber_same (n : Option Name) : n.map (Name.renumber .same) = n :=
  Option.map_id_apply

theorem Expr.optionMap_renumber_same (e : Option Expr) : e.map (Expr.renumber .same) = e := by
  have hsame : Expr.renumber .same = id := funext Expr.renumber_same
  rw [hsame, Option.map_id_apply]

mutual

theorem Stmt.renumber_same : ∀ s : Stmt, s.renumber .same = s
  | .expression e => by rw [Stmt.renumber, Expr.renumber_same]
  | .print e => by rw [Stmt.renumber, Expr.renumber_same]
  | .var _ initial => by rw [Stmt.renumber, Expr.optionMap_renumber_same]; rfl
  | .block body => by rw [Stmt.renumber, Stmt.renumberAll_same body]
  | .branch _ yes none => by rw [Stmt.renumber, Expr.renumber_same, Stmt.renumber_same yes]
  | .branch _ yes (some no) => by
    rw [Stmt.renumber, Expr.renumber_same, Stmt.renumber_same yes, Stmt.renumber_same no]
  | .loop _ body => by rw [Stmt.renumber, Expr.renumber_same, Stmt.renumber_same body]
  | .function f => by rw [Stmt.renumber, Function.renumber_same f]
  | .ret _ value => by rw [Stmt.renumber, Expr.optionMap_renumber_same]; rfl
  | .classDecl _ superclass methods => by
    rw [Stmt.renumber, Name.optionMap_renumber_same, Function.renumberAll_same methods]; rfl

theorem Stmt.renumberAll_same : ∀ ss : List Stmt, Stmt.renumberAll .same ss = ss
  | [] => by rw [Stmt.renumberAll]
  | s :: ss => by rw [Stmt.renumberAll, Stmt.renumber_same s, Stmt.renumberAll_same ss]

theorem Function.renumber_same : ∀ f : Function, f.renumber .same = f
  | .mk _ _ body => by
    rw [Function.renumber, Name.map_renumber_same, Stmt.renumberAll_same body]; rfl

theorem Function.renumberAll_same : ∀ fs : List Function, Function.renumberAll .same fs = fs
  | [] => by rw [Function.renumberAll]
  | f :: fs => by
    rw [Function.renumberAll, Function.renumber_same f, Function.renumberAll_same fs]

end

theorem Stmt.map_renumber_same (ss : List Stmt) : ss.map (Stmt.renumber .same) = ss := by
  rw [← Stmt.renumberAll_eq_map, Stmt.renumberAll_same]

end Lox
