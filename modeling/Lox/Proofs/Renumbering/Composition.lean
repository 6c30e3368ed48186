import Lox.Proofs.Renumbering.Step
import Mathlib.Logic.Basic

set_option autoImplicit false

/-! # One renumbering after another -/

namespace Lox

/-- One renumbering and then another one. -/
def Renumbering.andThen (r q : Renumbering) : Renumbering := ⟨q.line ∘ r.line, q.start ∘ r.start⟩

variable (r q : Renumbering)

theorem Name.map_renumber_renumber (ns : List Name) :
    (ns.map (Name.renumber r)).map (Name.renumber q) = ns.map (Name.renumber (r.andThen q)) :=
  List.map_map

mutual

theorem Expr.renumber_renumber :
    (e : Expr) → (e.renumber r).renumber q = e.renumber (r.andThen q)
  | .literal _ | .variable _ | .this _ | .super _ _ => rfl
  | .grouping inner => congrArg Expr.grouping (Expr.renumber_renumber inner)
  | .unary _ _ operand => congrArg (Expr.unary _ _) (Expr.renumber_renumber operand)
  | .binary _ _ left right =>
      congrArg₂ (Expr.binary _ _) (Expr.renumber_renumber left) (Expr.renumber_renumber right)
  | .logical _ left right =>
      congrArg₂ (Expr.logical _) (Expr.renumber_renumber left) (Expr.renumber_renumber right)
  | .assign _ value => congrArg (Expr.assign _) (Expr.renumber_renumber value)
  | .call callee arguments _ =>
      congrArg₂ (Expr.call · · _) (Expr.renumber_renumber callee)
        (Expr.renumberAll_renumberAll arguments)
  | .get object _ => congrArg (Expr.get · _) (Expr.renumber_renumber object)
  | .set object _ value =>
      congrArg₂ (Expr.set · _ ·) (Expr.renumber_renumber object) (Expr.renumber_renumber value)

theorem Expr.renumberAll_renumberAll :
    (es : List Expr) →
      Expr.renumberAll q (Expr.renumberAll r es) = Expr.renumberAll (r.andThen q) es
  | [] => rfl
  | e :: es => congrArg₂ List.cons (Expr.renumber_renumber e) (Expr.renumberAll_renumberAll es)

end

theorem Expr.optionMap_renumber_renumber (e : Option Expr) :
    (e.map (Expr.renumber r)).map (Expr.renumber q) = e.map (Expr.renumber (r.andThen q)) := by
  cases e with
  | none => rfl
  | some e => exact congrArg some (Expr.renumber_renumber r q e)

theorem Name.optionMap_renumber_renumber (n : Option Name) :
    (n.map (Name.renumber r)).map (Name.renumber q) = n.map (Name.renumber (r.andThen q)) := by
  cases n <;> rfl

mutual

theorem Stmt.renumber_renumber :
    (s : Stmt) → (s.renumber r).renumber q = s.renumber (r.andThen q)
  | .expression e => congrArg Stmt.expression (Expr.renumber_renumber r q e)
  | .print e => congrArg Stmt.print (Expr.renumber_renumber r q e)
  | .var _ initial => congrArg (Stmt.var _) (Expr.optionMap_renumber_renumber r q initial)
  | .block body => congrArg Stmt.block (Stmt.renumberAll_renumberAll body)
  | .branch condition yes none =>
      congrArg₂ (Stmt.branch · · none) (Expr.renumber_renumber r q condition)
        (Stmt.renumber_renumber yes)
  | .branch condition yes (some no) => by
      rw [Stmt.renumber, Stmt.renumber, Stmt.renumber, Expr.renumber_renumber,
        Stmt.renumber_renumber yes, Stmt.renumber_renumber no]
  | .loop condition body =>
      congrArg₂ Stmt.loop (Expr.renumber_renumber r q condition) (Stmt.renumber_renumber body)
  | .function f => congrArg Stmt.function (Function.renumber_renumber f)
  | .ret _ value => congrArg (Stmt.ret _) (Expr.optionMap_renumber_renumber r q value)
  | .classDecl _ superclass methods =>
      congrArg₂ (Stmt.classDecl _) (Name.optionMap_renumber_renumber r q superclass)
        (Function.renumberAll_renumberAll methods)

theorem Stmt.renumberAll_renumberAll :
    (ss : List Stmt) →
      Stmt.renumberAll q (Stmt.renumberAll r ss) = Stmt.renumberAll (r.andThen q) ss
  | [] => rfl
  | s :: ss => congrArg₂ List.cons (Stmt.renumber_renumber s) (Stmt.renumberAll_renumberAll ss)

theorem Function.renumber_renumber :
    (f : Function) → (f.renumber r).renumber q = f.renumber (r.andThen q)
  | .mk _ parameters body =>
      congrArg₂ (Function.mk _) (Name.map_renumber_renumber r q parameters)
        (Stmt.renumberAll_renumberAll body)

theorem Function.renumberAll_renumberAll :
    (fs : List Function) →
      Function.renumberAll q (Function.renumberAll r fs) = Function.renumberAll (r.andThen q) fs
  | [] => rfl
  | f :: fs =>
      congrArg₂ List.cons (Function.renumber_renumber f) (Function.renumberAll_renumberAll fs)

end

theorem Program.renumber_renumber (p : Program) :
    (p.map (Stmt.renumber r)).map (Stmt.renumber q) = p.map (Stmt.renumber (r.andThen q)) := by
  rw [List.map_map]
  exact List.map_congr_left fun s _ => Stmt.renumber_renumber r q s

theorem Closure.renumber_renumber {ε : Type} (c : Closure ε) :
    (c.renumber r).renumber q = c.renumber (r.andThen q) :=
  congrArg (fun decl => { c with decl }) (Function.renumber_renumber r q c.decl)

theorem ClassObject.renumber_renumber {ε : Type} (c : ClassObject ε) :
    (c.renumber r).renumber q = c.renumber (r.andThen q) := by
  have hmethods : (c.methods.map fun m => (m.1, m.2.renumber r)).map
      (fun m => (m.1, m.2.renumber q)) =
        c.methods.map fun m => (m.1, m.2.renumber (r.andThen q)) := by
    rw [List.map_map]
    exact List.map_congr_left fun m _ => congrArg (m.1, ·) (Closure.renumber_renumber r q m.2)
  exact congrArg (fun methods => { c with methods }) hmethods

theorem Store.renumber_renumber (st : Store) :
    (st.renumber r).renumber q = st.renumber (r.andThen q) := by
  have hfunctions : (st.functions.map (Closure.renumber r)).map (Closure.renumber q) =
      st.functions.map (Closure.renumber (r.andThen q)) := by
    rw [Array.map_map]
    exact Array.map_congr_left fun c _ => Closure.renumber_renumber r q c
  have hclasses : (st.classes.map (ClassObject.renumber r)).map (ClassObject.renumber q) =
      st.classes.map (ClassObject.renumber (r.andThen q)) := by
    rw [Array.map_map]
    exact Array.map_congr_left fun c _ => ClassObject.renumber_renumber r q c
  simp only [Store.renumber, hfunctions, hclasses]

theorem State.renumber_renumber (st : State) :
    (st.renumber r "").renumber q "" = st.renumber (r.andThen q) "" := by
  simp only [State.renumber, Store.renumber_renumber, String.empty_append]

end Lox
