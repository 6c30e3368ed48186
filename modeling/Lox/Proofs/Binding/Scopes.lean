import Lox.Binding.Resolve

set_option autoImplicit false

/-! # What scopes say of names

How each way of changing scopes changes what they say: whether the innermost scope declares a
name (`redeclares`), whether the name is pending there (`isPending`), and how far out the name is
declared (`hops?`). Scopes are settled if nothing is pending, which holds between statements.
-/

namespace Lox

namespace Scope

theorem declares_cons (s : Scope) (own name : String) (b : Bool) :
    declares ((own, b) :: s) name = (name == own || s.declares name) := by
  rw [declares, declares, List.lookup_cons]
  cases name == own <;> rfl

theorem isPending_cons (s : Scope) (own name : String) (b : Bool) :
    isPending ((own, b) :: s) name = if name == own then !b else s.isPending name := by
  rw [isPending, isPending, List.lookup_cons]
  cases name == own <;> cases b <;> rfl

/-- The name is declared and may be read. -/
def isReady (s : Scope) (name : String) : Bool := s.lookup name == some true

theorem isReady_cons (s : Scope) (own name : String) (b : Bool) :
    isReady ((own, b) :: s) name = if name == own then b else s.isReady name := by
  rw [isReady, isReady, List.lookup_cons]
  cases name == own <;> cases b <;> rfl

/-- A declared name is ready or pending. -/
theorem declares_eq (s : Scope) (name : String) :
    s.declares name = (s.isReady name || s.isPending name) := by
  rw [declares, isReady, isPending]
  cases s.lookup name with
  | none => rfl
  | some b => cases b <;> rfl

theorem declares_of_isPending {s : Scope} {name : String} (h : s.isPending name = true) :
    s.declares name = true := by
  rw [isPending, beq_iff_eq] at h
  rw [declares, h]
  rfl

end Scope

namespace Scopes

variable {scopes : Scopes} {own name : String}

/-! ## Changes to the innermost scope -/

@[simp] theorem isEmpty_define (scopes : Scopes) (own : String) :
    (scopes.define own).isEmpty = scopes.isEmpty := by
  cases scopes <;> rfl

@[simp] theorem isEmpty_declare (scopes : Scopes) (own : String) :
    (scopes.declare own).isEmpty = scopes.isEmpty := by
  cases scopes with
  | nil => rfl
  | cons s outer =>
      rw [declare]
      split <;> rfl

@[simp] theorem isEmpty_defineAll (scopes : Scopes) (names : List Name) :
    (scopes.defineAll names).isEmpty = scopes.isEmpty := by
  induction names generalizing scopes with
  | nil => rfl
  | cons name names ih => rw [defineAll, ih, isEmpty_define]

theorem redeclares_define (scopes : Scopes) (own name : String) :
    (scopes.define own).redeclares name =
      (!scopes.isEmpty && (name == own || scopes.redeclares name)) := by
  cases scopes with
  | nil => rfl
  | cons s outer => exact Scope.declares_cons s own name true

/-- Declaring a name before defining it makes no difference afterwards. -/
theorem redeclares_declare_define (scopes : Scopes) (own name : String) :
    ((scopes.declare own).define own).redeclares name =
      (scopes.define own).redeclares name := by
  cases scopes with
  | nil => rfl
  | cons s outer =>
      rw [declare]
      split
      · rfl
      · simp [define, redeclares, Scope.declares_cons]

theorem isPending_define (scopes : Scopes) (own name : String) :
    (scopes.define own).isPending name =
      if name == own then false else scopes.isPending name := by
  cases scopes with
  | nil => cases name == own <;> rfl
  | cons s outer => exact Scope.isPending_cons s own name true

@[inherit_doc redeclares_declare_define]
theorem isPending_declare_define (scopes : Scopes) (own name : String) :
    ((scopes.declare own).define own).isPending name = (scopes.define own).isPending name := by
  cases scopes with
  | nil => rfl
  | cons s outer =>
      rw [declare]
      split
      · rfl
      · simp only [define, isPending, Scope.isPending_cons]
        split <;> rfl

theorem isPending_declare_of_ne (h : name ≠ own) :
    (scopes.declare own).isPending name = scopes.isPending name := by
  cases scopes with
  | nil => rfl
  | cons s outer =>
      rw [declare]
      split
      · rfl
      · rw [isPending, Scope.isPending_cons, beq_false_of_ne h]
        rfl

/-- The name is declared in the innermost scope and may be read. -/
def isReady : Scopes → String → Bool
  | [], _ => false
  | s :: _, name => s.isReady name

theorem isReady_eq_false_of_new (h : scopes.redeclares name = false) :
    scopes.isReady name = false := by
  cases scopes with
  | nil => rfl
  | cons s outer =>
      have hs : s.declares name = false := h
      rw [Scope.declares_eq, Bool.or_eq_false_iff] at hs
      exact hs.1

theorem isReady_define (scopes : Scopes) (own name : String) :
    (scopes.define own).isReady name =
      (!scopes.isEmpty && (name == own || scopes.isReady name)) := by
  cases scopes with
  | nil => rfl
  | cons s outer =>
      rw [define, isReady, Scope.isReady_cons]
      cases name == own <;> rfl

/-- What was just defined may be read, unless it is global. -/
theorem isEmpty_or_isReady_define (scopes : Scopes) (own : String) :
    (scopes.define own).isEmpty = true ∨ (scopes.define own).isReady own = true := by
  rw [isReady_define, isEmpty_define]
  cases scopes.isEmpty with
  | true => exact .inl rfl
  | false =>
      right
      simp

/-- Declaring a name makes it pending, so nothing gets ready. -/
theorem isReady_declare (scopes : Scopes) (own name : String) :
    (scopes.declare own).isReady name = scopes.isReady name := by
  cases scopes with
  | nil => rfl
  | cons s outer =>
      rw [declare]
      split
      · rfl
      · rename_i hown
        rw [isReady, Scope.isReady_cons]
        split
        · rename_i hname
          rw [Scope.declares_eq, Bool.or_eq_true, not_or] at hown
          rw [isReady, eq_of_beq hname]
          simpa using hown.1
        · rfl

/-- A new variable may not be read while it is initialized. -/
theorem isReady_declare_of_new (h : scopes.redeclares own = false) :
    (scopes.declare own).isReady own = false := by
  rw [isReady_declare]
  exact isReady_eq_false_of_new h

/-! ## Settled scopes -/

/-- No name is pending. -/
def Settled (scopes : Scopes) : Prop := ∀ name, scopes.isPending name = false

theorem settled_top : Settled [] := fun _ => rfl

theorem settled_block (scopes : Scopes) : Settled ([] :: scopes) := fun _ => rfl

theorem Settled.define (h : scopes.Settled) (own : String) : (scopes.define own).Settled := by
  intro name
  rw [isPending_define, h name]
  exact ite_self false

theorem Settled.declare_define (h : scopes.Settled) (own : String) :
    ((scopes.declare own).define own).Settled := fun name => by
  rw [isPending_declare_define]
  exact h.define own name

theorem Settled.defineAll (h : scopes.Settled) (names : List Name) :
    (scopes.defineAll names).Settled := by
  induction names generalizing scopes with
  | nil => exact h
  | cons name names ih => exact ih (h.define name.text)

theorem Settled.after (h : scopes.Settled) (s : Stmt) : (s.scopesAfter scopes).Settled := by
  cases s with
  | var name initial => exact h.declare_define name.text
  | function f => exact h.define f.name.text
  | classDecl name superclass methods => exact h.define name.text
  | _ => exact h

theorem settled_ofMethods (scopes : Scopes) (hasSuperclass : Bool) :
    (scopes.ofMethods hasSuperclass).Settled := by
  intro name
  rw [ofMethods, isPending, Scope.isPending_cons]
  split <;> rfl

/-- While a new local variable is initialized, it is what is pending. -/
theorem isPending_declare (h : scopes.Settled) (hnew : scopes.redeclares own = false)
    (name : String) :
    (scopes.declare own).isPending name = (!scopes.isEmpty && name == own) := by
  cases scopes with
  | nil => rfl
  | cons s outer =>
      have hs : s.declares own = false := hnew
      have hsettled : s.isPending name = false := h name
      have hdeclare : declare (s :: outer) own = ((own, false) :: s) :: outer := by
        simp [declare, hs]
      rw [hdeclare, isPending, Scope.isPending_cons, hsettled]
      cases name == own <;> rfl

/-! ## Distances -/

theorem hops?_cons (s : Scope) (outer : Scopes) (name : String) :
    hops? (s :: outer) name =
      if s.declares name then some 0 else (outer.hops? name).map (· + 1) := by
  rw [hops?, List.findIdx?_cons]
  rfl

theorem hops?_define_of_ne (h : name ≠ own) :
    (scopes.define own).hops? name = scopes.hops? name := by
  cases scopes with
  | nil => rfl
  | cons s outer =>
      rw [define, hops?_cons, hops?_cons, Scope.declares_cons, beq_false_of_ne h, Bool.false_or]

theorem hops?_declare_of_ne (h : name ≠ own) :
    (scopes.declare own).hops? name = scopes.hops? name := by
  cases scopes with
  | nil => rfl
  | cons s outer =>
      rw [declare]
      split
      · rfl
      · rw [hops?_cons, hops?_cons, Scope.declares_cons, beq_false_of_ne h, Bool.false_or]

theorem hops?_block (scopes : Scopes) (name : String) :
    hops? ([] :: scopes) name = (scopes.hops? name).map (· + 1) := hops?_cons [] scopes name

/-- A pending name is declared in the innermost scope. -/
theorem hops?_of_isPending (h : scopes.isPending name = true) : scopes.hops? name = some 0 := by
  cases scopes with
  | nil => cases h
  | cons s outer => rw [hops?_cons, if_pos (Scope.declares_of_isPending h)]

end Scopes

end Lox
