import Lox.Proofs.Binding.Scopes
import Lox.Proofs.Lexical.Semantics

set_option autoImplicit false

/-! # Environments and cells

Runs of the two machines are compared through a world, which says of every environment what encloses
it and which cell each of its variables is. A world only grows: links and cells never change, and
new variables come to the current environment and to new ones (`World.Grows`).

The scopes at a place fit an environment and a view if they lead to the same cells
(`World.Sees`). Names that an environment got after a function was closed over it do not matter,
since the scopes of the function do not have them.
-/

namespace Lox.Lexical

/-- What encloses each environment, and the cells that its variables are. -/
structure World where
  enclosing : EnvId → Option EnvId
  cell : EnvId → String → Option CellId

namespace World

variable {w w' w'' : World} {e k : EnvId} {scopes : Scopes} {view : View} {name : String}

/-- The environment a number of links out. -/
def ancestor? (w : World) (e : EnvId) : Nat → Option EnvId
  | 0 => some e
  | hops + 1 =>
    match w.enclosing e with
    | some outer => w.ancestor? outer hops
    | none => none

/-! ## Growth -/

/-- A later world, which has the same variables in the environments before the given one. -/
structure Grows (w w' : World) (e : EnvId) : Prop where
  enclosing : ∀ a outer, w.enclosing a = some outer → w'.enclosing a = some outer
  cell : ∀ a name c, w.cell a name = some c → w'.cell a name = some c
  below : ∀ a < e, ∀ name, w'.cell a name = w.cell a name

theorem Grows.refl (w : World) (e : EnvId) : w.Grows w e :=
  ⟨fun _ _ h => h, fun _ _ _ h => h, fun _ _ _ => rfl⟩

theorem Grows.trans (h : w.Grows w' e) (h' : w'.Grows w'' e) : w.Grows w'' e :=
  ⟨fun a o ha => h'.enclosing a o (h.enclosing a o ha),
    fun a n c ha => h'.cell a n c (h.cell a n c ha),
    fun a ha n => (h'.below a ha n).trans (h.below a ha n)⟩

theorem Grows.of_le (h : w.Grows w' e) (hle : k ≤ e) : w.Grows w' k :=
  ⟨h.enclosing, h.cell, fun a ha => h.below a (Nat.lt_of_lt_of_le ha hle)⟩

/-- A new environment. -/
def link (w : World) (e outer : EnvId) : World :=
  { w with enclosing := fun a => if a = e then some outer else w.enclosing a }

/-- A new variable. -/
def bind (w : World) (e : EnvId) (name : String) (c : CellId) : World :=
  { w with cell := fun a n => if a = e ∧ n = name then some c else w.cell a n }

theorem cell_bind (w : World) (e a : EnvId) (own name : String) (c : CellId) :
    (w.bind e own c).cell a name = if a = e ∧ name = own then some c else w.cell a name := rfl

/-- A cell after a new variable is the new one, or one that was there. -/
theorem cell_bind_cases {a : EnvId} {own : String} {c d : CellId}
    (h : (w.bind e own c).cell a name = some d) :
    (a = e ∧ name = own ∧ d = c) ∨ w.cell a name = some d := by
  rw [cell_bind] at h
  by_cases heq : a = e ∧ name = own
  · rw [if_pos heq] at h
    cases h
    exact .inl ⟨heq.1, heq.2, rfl⟩
  · rw [if_neg heq] at h
    exact .inr h

theorem grows_link (h : w.enclosing e = none) (outer k : EnvId) :
    w.Grows (w.link e outer) k := by
  refine ⟨fun a o ha => ?_, fun _ _ _ h => h, fun _ _ _ => rfl⟩
  have hne : a ≠ e := by
    rintro rfl
    rw [h] at ha
    cases ha
  exact (if_neg hne).trans ha

theorem grows_bind {c : CellId} (h : w.cell e name = none) : w.Grows (w.bind e name c) e := by
  refine ⟨fun _ _ h => h, fun a n c' ha => ?_, fun a ha n => ?_⟩
  · rw [cell_bind, if_neg]
    · exact ha
    · rintro ⟨rfl, rfl⟩
      rw [h] at ha
      cases ha
  · rw [cell_bind, if_neg fun heq => Nat.ne_of_lt ha heq.1]

/-! ## Seeing -/

/-- From an environment and from a view the scopes lead to the same cells. -/
inductive Sees (w : World) : Scopes → EnvId → View → Prop
  | top : Sees w [] globalEnv .top
  -- A scope has more names than are ready: a variable is pending while it is initialized. In
  -- scopes further out nothing is pending, since no statement is part of an initializer.
  | scope {s : Scope} {outer : Scopes} {e o : EnvId} {view around : View}
      (hlink : w.enclosing e = some o) (houter : Sees w outer o around)
      (hsettled : outer.Settled) (hlocal : view.isLocal = true)
      (hready : ∀ name, s.isReady name = true → ∃ c, w.cell e name = some c)
      (hcells : ∀ name,
        view.cell? name = if s.isReady name then w.cell e name else around.cell? name) :
      Sees w (s :: outer) e view

/-- An environment has no variables but those that are ready in the innermost scope. -/
def Exact (w : World) (scopes : Scopes) (e : EnvId) : Prop :=
  ∀ name c, w.cell e name = some c → scopes.isReady name = true

theorem Sees.grow (h : w.Sees scopes e view) (hgrows : w.Grows w' k) : w'.Sees scopes e view := by
  induction h with
  | top => exact .top
  | scope hlink _ hsettled hlocal hready hcells ih =>
      refine .scope (hgrows.enclosing _ _ hlink) ih hsettled hlocal (fun name hname => ?_)
        fun name => ?_
      · obtain ⟨c, hc⟩ := hready name hname
        exact ⟨c, hgrows.cell _ _ _ hc⟩
      · rw [hcells name]
        split
        · -- A ready name has a cell already, and cells do not change.
          rename_i hname
          obtain ⟨c, hc⟩ := hready name hname
          rw [hc, hgrows.cell _ _ _ hc]
        · rfl

theorem Exact.grow (h : w.Exact scopes e) (hgrows : w.Grows w' k) (hlt : e < k) :
    w'.Exact scopes e := by
  intro name c hc
  rw [hgrows.below e hlt] at hc
  exact h name c hc

/-- While a new variable is initialized, the same is seen as before. -/
theorem Sees.declare (h : w.Sees scopes e view) (name : String) :
    w.Sees (scopes.declare name) e view := by
  cases h with
  | top => exact .top
  | @scope s outer _ _ _ _ hlink houter hsettled hlocal hready hcells =>
      have hsame : ∀ n, Scopes.isReady (Scopes.declare (s :: outer) name) n = s.isReady n :=
        Scopes.isReady_declare (s :: outer) name
      rw [Scopes.declare] at hsame ⊢
      split
      · -- The scope has the name already, and stays as it is.
        exact .scope hlink houter hsettled hlocal hready hcells
      · rename_i hnew
        rw [if_neg hnew] at hsame
        refine .scope hlink houter hsettled hlocal (fun n hn => hready n ?_) fun n => ?_
        · rwa [← hsame n]
        · rw [hcells n, ← hsame n]
          rfl

theorem Exact.declare (h : w.Exact scopes e) (name : String) :
    w.Exact (scopes.declare name) e := by
  intro n c hc
  rw [Scopes.isReady_declare]
  exact h n c hc

/-- A new variable in a scope. -/
theorem Sees.bind {c : CellId} (h : w.Sees scopes e view) (hlocal : scopes.isEmpty = false)
    (hnew : w.cell e name = none) :
    (w.bind e name c).Sees (scopes.define name) e (view.bind name c) := by
  cases h with
  | top => cases hlocal
  | scope hlink houter hsettled hlocal hready hcells =>
      refine .scope hlink (houter.grow (grows_bind hnew)) hsettled hlocal (fun n hn => ?_)
        fun n => ?_
      · rw [Scope.isReady_cons] at hn
        rw [cell_bind]
        by_cases hname : n = name
        · exact ⟨c, if_pos ⟨rfl, hname⟩⟩
        · rw [if_neg (by simpa using hname)] at hn
          rw [if_neg fun heq => hname heq.2]
          exact hready n hn
      · rw [Scope.isReady_cons, cell_bind, View.cell?, View.bind, List.lookup_cons]
        by_cases hname : n = name
        · subst hname
          simp
        · have hne : ¬ (e = e ∧ n = name) := fun heq => hname heq.2
          rw [beq_false_of_ne hname, if_neg Bool.false_ne_true, if_neg hne]
          exact hcells n

theorem Exact.bind {c : CellId} (h : w.Exact scopes e) (hlocal : scopes.isEmpty = false) :
    (w.bind e name c).Exact (scopes.define name) e := by
  intro n c' hc
  rw [Scopes.isReady_define, hlocal]
  rcases cell_bind_cases hc with ⟨-, rfl, -⟩ | hc
  · simp
  · simp [h n c' hc]

/-- A new environment for a block, or for the body of a function. -/
theorem Sees.enter {a : EnvId} (h : w.Sees scopes e view) (hsettled : scopes.Settled)
    (hlink : w.enclosing a = some e) : w.Sees ([] :: scopes) a view.enter :=
  .scope hlink h hsettled rfl (fun _ h => nomatch h) fun _ => rfl

/-! ## Looking up names -/

/-- A name that scopes declare is a variable that number of links out, and in the view. -/
theorem Sees.exists_cell {hops : Nat} (h : w.Sees scopes e view)
    (hpending : scopes.isPending name = false) (hhops : scopes.hops? name = some hops) :
    ∃ a c, w.ancestor? e hops = some a ∧ w.cell a name = some c ∧ view.cell? name = some c := by
  induction h generalizing hops with
  | top => cases hhops
  | @scope s outer e _ view around hlink houter hsettled hlocal hready hcells ih =>
      -- A declared name that is not pending is ready, so the scope is the one that the view means.
      have hs : s.isPending name = false := hpending
      rw [Scopes.hops?_cons, Scope.declares_eq, hs, Bool.or_false] at hhops
      cases hname : s.isReady name with
      | true =>
          rw [hname, if_pos rfl] at hhops
          cases hhops
          obtain ⟨c, hc⟩ := hready name hname
          exact ⟨e, c, rfl, hc, by rw [hcells name, hname, if_pos rfl, hc]⟩
      | false =>
          rw [hname, if_neg Bool.false_ne_true, Option.map_eq_some_iff] at hhops
          obtain ⟨n, hn, rfl⟩ := hhops
          obtain ⟨a, c, ha, hc, hview⟩ := ih (hsettled name) hn
          refine ⟨a, c, ?_, hc, ?_⟩
          · rw [ancestor?, hlink]
            exact ha
          · rw [hcells name, hname, if_neg Bool.false_ne_true]
            exact hview

/-- A name that no scope declares is not in the view. -/
theorem Sees.cell?_eq_none (h : w.Sees scopes e view) (hpending : scopes.isPending name = false)
    (hhops : scopes.hops? name = none) : view.cell? name = none := by
  induction h with
  | top => rfl
  | @scope s outer _ _ _ _ hlink houter hsettled hlocal hready hcells ih =>
      have hs : s.isPending name = false := hpending
      rw [Scopes.hops?_cons, Scope.declares_eq, hs, Bool.or_false] at hhops
      cases hname : s.isReady name with
      | true =>
          rw [hname, if_pos rfl] at hhops
          cases hhops
      | false =>
          rw [hname, if_neg Bool.false_ne_true, Option.map_eq_none_iff] at hhops
          rw [hcells name, hname, if_neg Bool.false_ne_true]
          exact ih (hsettled name) hhops

/-- Nothing but the global environment is seen at the top level. -/
theorem Sees.isLocal_eq (h : w.Sees scopes e view) : view.isLocal = !scopes.isEmpty := by
  cases h with
  | top => rfl
  | scope _ _ _ hlocal => exact hlocal

end World

end Lox.Lexical
