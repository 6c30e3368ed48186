import Lox.Proofs.Binding.Bound

set_option autoImplicit false

/-! # Where a `return` may stand

What the static passes ensure of `return` in an accepted program: it stands in a function, and it
has no value if the innermost function around it is the initializer of a class. Code returns as the
function around it may (`Stmt.Returns`) if this holds of all code in it, each function in it
starting anew. Classes and blocks change nothing.
-/

namespace Lox

/-- A `return` may stand here, with this value. -/
def FunctionContext.allows (k : FunctionContext) (value : Option Expr) : Prop :=
  k ≠ .none ∧ (k = .initializer → value = .none)

/-- The context of the body of a method. -/
def FunctionContext.ofMethod (f : Function) : FunctionContext :=
  if f.isNamedInit then .initializer else .method

mutual

/-- Each `return` of a statement may stand where it stands. -/
def Stmt.Returns (k : FunctionContext) : Stmt → Prop
  | .expression _ | .print _ | .var _ _ => True
  | .block body => Stmt.ReturnsAll k body
  | .branch _ yes none => yes.Returns k
  | .branch _ yes (some no) => yes.Returns k ∧ no.Returns k
  | .loop _ body => body.Returns k
  | .function f => f.Returns .function
  | .ret _ value => k.allows value
  | .classDecl _ _ methods => Function.ReturnsMethods methods

/-- Each `return` of statements may stand where it stands. -/
def Stmt.ReturnsAll (k : FunctionContext) : List Stmt → Prop
  | [] => True
  | s :: ss => s.Returns k ∧ Stmt.ReturnsAll k ss

/-- Each `return` of a function of a kind may stand where it stands. -/
def Function.Returns (k : FunctionContext) : Function → Prop
  | .mk _ _ body => Stmt.ReturnsAll k body

/-- Each `return` of the methods of a class may stand where it stands. -/
def Function.ReturnsMethods : List Function → Prop
  | [] => True
  | f :: fs => f.Returns (.ofMethod f) ∧ Function.ReturnsMethods fs

end

theorem Function.returnsMethods_iff {fs : List Function} :
    Function.ReturnsMethods fs ↔ ∀ f ∈ fs, f.Returns (.ofMethod f) := by
  induction fs with
  | nil => simp [Function.ReturnsMethods]
  | cons f fs ih => rw [Function.ReturnsMethods, List.forall_mem_cons, ih]

theorem Function.Returns.body {k : FunctionContext} {f : Function} (h : f.Returns k) :
    Stmt.ReturnsAll k f.body := by
  cases f with
  | mk name parameters body => exact h

/-! ## From a walk without errors -/

theorem FunctionContext.allows_of_errors {k : FunctionContext} {keyword : Name}
    {value : Option Expr}
    (htop : (Findings.errorIf (k = .none) .topLevelReturn keyword).errors = [])
    (hinit : (Findings.errorIf (k = .initializer && value.isSome) .initializerReturn
      keyword).errors = []) : k.allows value := by
  rw [Findings.errorIf_errors_eq_nil_iff] at htop hinit
  refine ⟨of_decide_eq_false htop, fun heq => ?_⟩
  subst heq
  cases value with
  | none => rfl
  | some e => simp at hinit

mutual

/-- A statement that is walked without errors returns as the function around it may. -/
theorem Stmt.returns_of_errors {ctx : Context} {scopes : Scopes} :
    (s : Stmt) → (s.findings ctx scopes).errors = [] → s.Returns ctx.inFunction
  | .expression _, _ | .print _, _ | .var _ _, _ => trivial
  | .block body, h => Stmt.returnsAll_of_errors body h
  | .branch _ yes none, h => by
      simp only [Stmt.findings, Findings.errors_append_eq_nil_iff] at h
      exact Stmt.returns_of_errors yes h.2
  | .branch _ yes (some no), h => by
      simp only [Stmt.findings, Findings.errors_append_eq_nil_iff] at h
      exact ⟨Stmt.returns_of_errors yes h.1.2, Stmt.returns_of_errors no h.2⟩
  | .loop _ body, h => by
      simp only [Stmt.findings, Findings.errors_append_eq_nil_iff] at h
      exact Stmt.returns_of_errors body h.2
  | .function f, h => by
      simp only [Stmt.findings, Findings.errors_append_eq_nil_iff] at h
      exact Function.returns_of_errors f h.2
  | .ret keyword value, h => by
      simp only [Stmt.findings, Findings.errors_append_eq_nil_iff] at h
      exact FunctionContext.allows_of_errors h.1.1 h.1.2
  | .classDecl _ _ methods, h => by
      simp only [Stmt.findings, Findings.errors_append_eq_nil_iff] at h
      exact Function.returnsMethods_of_errors methods h.2

theorem Stmt.returnsAll_of_errors {ctx : Context} {scopes : Scopes} :
    (ss : List Stmt) → (Stmt.findingsAll ctx scopes ss).errors = [] →
      Stmt.ReturnsAll ctx.inFunction ss
  | [], _ => trivial
  | s :: ss, h => by
      simp only [Stmt.findingsAll, Findings.errors_append_eq_nil_iff] at h
      exact ⟨Stmt.returns_of_errors s h.1, Stmt.returnsAll_of_errors ss h.2⟩

theorem Function.returns_of_errors {ctx : Context} {scopes : Scopes} :
    (f : Function) → (f.findings ctx scopes).errors = [] → f.Returns ctx.inFunction
  | .mk _ _ body, h => by
      simp only [Function.findings, Findings.errors_append_eq_nil_iff] at h
      exact Stmt.returnsAll_of_errors body h.2

theorem Function.returnsMethods_of_errors {ctx : Context} {scopes : Scopes} :
    (fs : List Function) → (Function.findingsAll ctx scopes fs).errors = [] →
      Function.ReturnsMethods fs
  | [], _ => trivial
  | f :: fs, h => by
      simp only [Function.findingsAll, Findings.errors_append_eq_nil_iff] at h
      exact ⟨Function.returns_of_errors f h.1, Function.returnsMethods_of_errors fs h.2⟩

end

/-- No statement of an accepted program returns at the top level. -/
theorem Session.returns_of_accept {session : Session} {source : String} {p : Program}
    {t : BindingTable} (h : session.accept source = .ok (p, t)) : Stmt.ReturnsAll .none p := by
  have herrors : (Stmt.findingsAll .top [] p).errors = [] :=
    (Program.bind_eq_ok_iff.1 (of_accept h).2).1
  exact Stmt.returnsAll_of_errors p herrors

end Lox
