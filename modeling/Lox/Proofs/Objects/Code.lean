import Lox.Proofs.Parsing.Names

set_option autoImplicit false

/-! # What code may bind

Whatever a program that was read from a text declares or assigns to is an identifier. So no code,
resolved or not, gives `this` or `super` another value (`Program.ordinary_of_ofText`).
-/

namespace Lox

/-- What the expression assigns to are identifiers. -/
def Expr.Ordinary (e : Expr) : Prop := ∀ r ∈ e.references, r.role = .assign → r.name.Ordinary

mutual

/-- What the statement declares or assigns to are identifiers. -/
def Stmt.Ordinary : Stmt → Prop
  | .expression e | .print e => e.Ordinary
  | .var name initial => name.Ordinary ∧ ∀ e ∈ initial, e.Ordinary
  | .block body => Stmt.OrdinaryAll body
  | .branch condition yes none => condition.Ordinary ∧ yes.Ordinary
  | .branch condition yes (some no) => condition.Ordinary ∧ yes.Ordinary ∧ no.Ordinary
  | .loop condition body => condition.Ordinary ∧ body.Ordinary
  | .function f => f.Ordinary
  | .ret _ value => ∀ e ∈ value, e.Ordinary
  | .classDecl name _ methods => name.Ordinary ∧ Function.OrdinaryAll methods

/-- What the statements declare or assign to are identifiers. -/
def Stmt.OrdinaryAll : List Stmt → Prop
  | [] => True
  | s :: ss => s.Ordinary ∧ Stmt.OrdinaryAll ss

/-- The name and the parameters of the function, and what its body binds, are identifiers. -/
def Function.Ordinary : Function → Prop
  | .mk name parameters body =>
    name.Ordinary ∧ (∀ n ∈ parameters, n.Ordinary) ∧ Stmt.OrdinaryAll body

@[inherit_doc Function.Ordinary]
def Function.OrdinaryAll : List Function → Prop
  | [] => True
  | f :: fs => f.Ordinary ∧ Function.OrdinaryAll fs

end

theorem Function.ordinaryAll_iff {fs : List Function} :
    Function.OrdinaryAll fs ↔ ∀ f ∈ fs, f.Ordinary := by
  induction fs with
  | nil => simp [Function.OrdinaryAll]
  | cons f fs ih => rw [Function.OrdinaryAll, List.forall_mem_cons, ih]

namespace Function.Ordinary

variable {f : Function}

theorem name (h : f.Ordinary) : f.name.Ordinary := by
  cases f with
  | mk name parameters body => exact h.1

theorem parameters (h : f.Ordinary) : ∀ n ∈ f.parameters, n.Ordinary := by
  cases f with
  | mk name parameters body => exact h.2.1

theorem body (h : f.Ordinary) : Stmt.OrdinaryAll f.body := by
  cases f with
  | mk name parameters body => exact h.2.2

end Function.Ordinary

/-! ## Parts of expressions -/

theorem Expr.ordinaryAll_iff {es : List Expr} :
    (∀ r ∈ Expr.referencesAll es, r.role = .assign → r.name.Ordinary) ↔
      ∀ e ∈ es, e.Ordinary := by
  induction es with
  | nil => simp [Expr.referencesAll]
  | cons e es ih =>
      rw [Expr.referencesAll, List.forall_mem_append, List.forall_mem_cons, ih, Ordinary]

/-! ## From a text -/

theorem Expr.ordinary_of_wellNamed {e : Expr} (h : ∀ r ∈ e.references, r.WellNamed) :
    e.Ordinary := by
  intro r hr hassign
  have hnamed := h r hr
  rw [Reference.WellNamed, hassign] at hnamed
  exact hnamed

theorem Expr.ordinary_of_wellNamed? {initial : Option Expr}
    (h : ∀ r ∈ Expr.referencesOf? initial, r.WellNamed) : ∀ e ∈ initial, e.Ordinary := by
  intro e he
  cases he
  exact Expr.ordinary_of_wellNamed h

mutual

theorem Stmt.WellFormed.ordinary :
    (s : Stmt) → s.WellFormed → (∀ r ∈ s.references, r.WellNamed) → s.Ordinary
  | .expression _, _, hnamed | .print _, _, hnamed => Expr.ordinary_of_wellNamed hnamed
  | .var _ _, hformed, hnamed => ⟨hformed, Expr.ordinary_of_wellNamed? hnamed⟩
  | .block body, hformed, hnamed => Stmt.WellFormed.ordinaryAll body hformed hnamed
  | .branch _ yes none, hformed, hnamed => by
      rw [Stmt.references, List.forall_mem_append] at hnamed
      exact ⟨Expr.ordinary_of_wellNamed hnamed.1, Stmt.WellFormed.ordinary yes hformed.2 hnamed.2⟩
  | .branch _ yes (some no), hformed, hnamed => by
      rw [Stmt.references, List.forall_mem_append, List.forall_mem_append] at hnamed
      obtain ⟨⟨hcondition, hyes⟩, hno⟩ := hnamed
      exact ⟨Expr.ordinary_of_wellNamed hcondition, Stmt.WellFormed.ordinary yes hformed.1.2 hyes,
        Stmt.WellFormed.ordinary no hformed.2.2 hno⟩
  | .loop _ body, hformed, hnamed => by
      rw [Stmt.references, List.forall_mem_append] at hnamed
      exact ⟨Expr.ordinary_of_wellNamed hnamed.1,
        Stmt.WellFormed.ordinary body hformed.2 hnamed.2⟩
  | .function f, hformed, hnamed => Function.WellFormed.ordinary f hformed hnamed
  | .ret _ _, _, hnamed => Expr.ordinary_of_wellNamed? hnamed
  | .classDecl _ _ methods, hformed, hnamed => by
      rw [Stmt.references, List.forall_mem_append] at hnamed
      exact ⟨hformed.1, Function.WellFormed.ordinaryAll methods hformed.2 hnamed.2⟩

theorem Stmt.WellFormed.ordinaryAll :
    (ss : List Stmt) → Stmt.WellFormedAll ss →
      (∀ r ∈ Stmt.referencesAll ss, r.WellNamed) → Stmt.OrdinaryAll ss
  | [], _, _ => trivial
  | s :: ss, hformed, hnamed => by
      rw [Stmt.referencesAll, List.forall_mem_append] at hnamed
      exact ⟨Stmt.WellFormed.ordinary s hformed.1 hnamed.1,
        Stmt.WellFormed.ordinaryAll ss hformed.2 hnamed.2⟩

theorem Function.WellFormed.ordinary :
    (f : Function) → f.WellFormed → (∀ r ∈ f.references, r.WellNamed) → f.Ordinary
  | .mk _ _ body, hformed, hnamed =>
      ⟨hformed.1, hformed.2.1, Stmt.WellFormed.ordinaryAll body hformed.2.2 hnamed⟩

theorem Function.WellFormed.ordinaryAll :
    (fs : List Function) → Function.WellFormedAll fs →
      (∀ r ∈ Function.referencesAll fs, r.WellNamed) → Function.OrdinaryAll fs
  | [], _, _ => trivial
  | f :: fs, hformed, hnamed => by
      rw [Function.referencesAll, List.forall_mem_append] at hnamed
      exact ⟨Function.WellFormed.ordinary f hformed.1 hnamed.1,
        Function.WellFormed.ordinaryAll fs hformed.2 hnamed.2⟩

end

/-- A program that is read from a text binds identifiers only. -/
theorem Program.ordinary_of_ofText {source : String} {offset : Nat} {p : Program}
    (h : (Program.ofText source offset).parsed = .ok p) : Stmt.OrdinaryAll p :=
  Stmt.WellFormed.ordinaryAll p (wellFormed_of_ofText h).statements
    (wellFormed_of_ofText h).references

end Lox
