import Lox.Proofs.Parsing.Names
import Lox.Proofs.Lexical.World
import Lox.Proofs.Store.Environment

set_option autoImplicit false

/-! # Variables that fit

A store with environments fits one with cells, in a world, if each variable of an environment has
the value of its cell and the global environment those of the table (`World.VariablesFit`). New
environments, new variables and new values keep this true, in a later world.
-/

namespace Lox.Lexical

/-! ## Cells -/

namespace Store

variable (st : Store) (c d : CellId) (v : Value)

theorem valueOf_newCell :
    (st.newCell v).2.valueOf c = if c = st.cells.size then v else st.valueOf c := by
  rw [valueOf, valueOf, newCell, Array.getElem?_push]
  split <;> rfl

theorem valueOf_setCell (h : d < st.cells.size) :
    (st.setCell d v).valueOf c = if c = d then v else st.valueOf c := by
  rw [valueOf, valueOf, setCell, Array.getElem?_setIfInBounds]
  by_cases hc : d = c
  · rw [if_pos hc, if_pos h, if_pos hc.symm]
    rfl
  · rw [if_neg hc, if_neg fun heq => hc heq.symm]

end Store

namespace World

variable {w w' : World} {e k : EnvId} {scopes : Scopes} {name : String}

/-! ## Variables -/

/-- The value that a variable may have: `this` is an instance, and `super` a class. -/
structure SelfValue (name : String) (v : Value) : Prop where
  this : name = "this" → ∃ i, v = .instanceRef i
  super : name = "super" → ∃ c, v = .classRef c

theorem SelfValue.of_ordinary {n : Name} (h : n.Ordinary) (v : Value) : SelfValue n.text v :=
  ⟨fun heq => absurd heq h.ne_this, fun heq => absurd heq h.ne_super⟩

/-- Local variables have the values of their cells, and global variables those of the table. -/
structure VariablesFit (w : World) (st : Lox.Store) (st' : Store) : Prop where
  enclosing : ∀ e, w.enclosing e = st.enclosing? e
  root : st.enclosing? globalEnv = none
  global_lt : globalEnv < st.environments.size
  -- Global variables are looked up by name, so they have no cells.
  no_global_cell : ∀ name, w.cell globalEnv name = none
  globals : ∀ name, st.lookupIn? globalEnv name = st'.globals.get? name
  locals : ∀ e name, e ≠ globalEnv → st.lookupIn? e name = (w.cell e name).map st'.valueOf
  env_lt : ∀ e name c, w.cell e name = some c → e < st.environments.size
  cell_lt : ∀ e name c, w.cell e name = some c → c < st'.cells.size
  -- Overwriting one variable would otherwise change another.
  injective : ∀ e name a other c, w.cell e name = some c → w.cell a other = some c →
    a = e ∧ other = name
  self : ∀ e name c, w.cell e name = some c → SelfValue name (st'.valueOf c)

namespace VariablesFit

variable {st : Lox.Store} {st' : Store} {v : Value}

theorem ne_global {c : CellId} (h : w.VariablesFit st st') (hc : w.cell e name = some c) :
    e ≠ globalEnv := by
  rintro rfl
  rw [h.no_global_cell name] at hc
  cases hc

theorem lookupIn?_eq {c : CellId} (h : w.VariablesFit st st') (hc : w.cell e name = some c) :
    st.lookupIn? e name = some (st'.valueOf c) := by
  rw [h.locals e name (h.ne_global hc), hc]
  rfl

theorem ancestor?_eq (h : w.VariablesFit st st') (e : EnvId) (hops : Nat) :
    st.ancestor? e hops = w.ancestor? e hops := by
  induction hops generalizing e with
  | zero => rfl
  | succ hops ih =>
      rw [Lox.Store.ancestor?, ancestor?, h.enclosing]
      cases st.enclosing? e with
      | none => rfl
      | some outer => exact ih outer

/-- Variables do not depend on what else has an identity. -/
theorem withHeap (h : w.VariablesFit st st') (heap : Heap EnvId) (heap' : Heap View) :
    w.VariablesFit { st with toHeap := heap } { st' with toHeap := heap' } :=
  ⟨h.enclosing, h.root, h.global_lt, h.no_global_cell, h.globals, h.locals, h.env_lt, h.cell_lt,
    h.injective, h.self⟩

/-- A new environment. -/
theorem link (h : w.VariablesFit st st') (outer : EnvId) :
    (w.link st.environments.size outer).VariablesFit (st.newEnvironment (some outer)).2 st' where
  enclosing e := by
    rw [Lox.Store.enclosing?_newEnvironment, ← h.enclosing]
    rfl
  root := by
    rw [Lox.Store.enclosing?_newEnvironment, if_neg (Nat.ne_of_lt h.global_lt), h.root]
  global_lt := by
    rw [Lox.Store.size_newEnvironment]
    exact Nat.lt_succ_of_lt h.global_lt
  no_global_cell := h.no_global_cell
  globals name := by rw [Lox.Store.lookupIn?_newEnvironment, h.globals]
  locals e name he := by
    rw [Lox.Store.lookupIn?_newEnvironment]
    exact h.locals e name he
  env_lt e name c hc := by
    rw [Lox.Store.size_newEnvironment]
    exact Nat.lt_succ_of_lt (h.env_lt e name c hc)
  cell_lt := h.cell_lt
  injective := h.injective
  self := h.self

/-- A new variable. -/
theorem bind (h : w.VariablesFit st st') (he : e ≠ globalEnv) (hlt : e < st.environments.size)
    (hv : SelfValue name v) :
    (w.bind e name st'.cells.size).VariablesFit (st.define e name v) (st'.newCell v).2 where
  enclosing a := by
    rw [Lox.Store.enclosing?_define]
    exact h.enclosing a
  root := by rw [Lox.Store.enclosing?_define, h.root]
  global_lt := by
    rw [Lox.Store.size_define]
    exact h.global_lt
  no_global_cell n := by
    rw [cell_bind, if_neg fun heq => he heq.1.symm, h.no_global_cell]
  globals n := by
    rw [Lox.Store.lookupIn?_define st e globalEnv name n v hlt, if_neg fun heq => he heq.1.symm,
      h.globals]
    rfl
  locals a n ha := by
    rw [Lox.Store.lookupIn?_define st e a name n v hlt, cell_bind]
    by_cases heq : a = e ∧ n = name
    · rw [if_pos heq, if_pos heq, Option.map_some, Store.valueOf_newCell, if_pos rfl]
    · rw [if_neg heq, if_neg heq, h.locals a n ha]
      cases hc : w.cell a n with
      | none => rfl
      | some c =>
          -- The new cell comes after all others, which keep their values.
          rw [Option.map_some, Option.map_some, Store.valueOf_newCell,
            if_neg (Nat.ne_of_lt (h.cell_lt a n c hc))]
  env_lt a n c hc := by
    rw [Lox.Store.size_define]
    rcases cell_bind_cases hc with ⟨rfl, -, -⟩ | hc
    · exact hlt
    · exact h.env_lt a n c hc
  cell_lt a n c hc := by
    have hsize : (st'.newCell v).2.cells.size = st'.cells.size + 1 := Array.size_push ..
    rw [hsize]
    rcases cell_bind_cases hc with ⟨-, -, rfl⟩ | hc
    · exact Nat.lt_succ_self _
    · exact Nat.lt_succ_of_lt (h.cell_lt a n c hc)
  injective a n b m c ha hb := by
    rcases cell_bind_cases ha with ⟨rfl, rfl, rfl⟩ | ha
    · rcases cell_bind_cases hb with ⟨rfl, rfl, -⟩ | hb
      · exact ⟨rfl, rfl⟩
      · -- The cell of another variable would be new.
        exact absurd (h.cell_lt b m _ hb) (Nat.lt_irrefl _)
    · rcases cell_bind_cases hb with ⟨-, -, rfl⟩ | hb
      · exact absurd (h.cell_lt a n _ ha) (Nat.lt_irrefl _)
      · exact h.injective a n b m c ha hb
  self a n c hc := by
    rw [Store.valueOf_newCell]
    rcases cell_bind_cases hc with ⟨rfl, rfl, rfl⟩ | hc
    · rw [if_pos rfl]
      exact hv
    · rw [if_neg (Nat.ne_of_lt (h.cell_lt a n c hc))]
      exact h.self a n c hc

/-- A local variable is overwritten. -/
theorem overwrite {c : CellId} (h : w.VariablesFit st st') (hc : w.cell e name = some c)
    (hv : SelfValue name v) : w.VariablesFit (st.define e name v) (st'.setCell c v) where
  enclosing a := by rw [Lox.Store.enclosing?_define, h.enclosing]
  root := by rw [Lox.Store.enclosing?_define, h.root]
  global_lt := by
    rw [Lox.Store.size_define]
    exact h.global_lt
  no_global_cell := h.no_global_cell
  globals n := by
    rw [Lox.Store.lookupIn?_define st e globalEnv name n v (h.env_lt e name c hc),
      if_neg fun heq => h.ne_global hc heq.1.symm, h.globals]
    rfl
  locals a n ha := by
    rw [Lox.Store.lookupIn?_define st e a name n v (h.env_lt e name c hc)]
    by_cases heq : a = e ∧ n = name
    · rw [if_pos heq, heq.1, heq.2, hc, Option.map_some,
        Store.valueOf_setCell st' c c v (h.cell_lt e name c hc), if_pos rfl]
    · rw [if_neg heq, h.locals a n ha]
      cases hd : w.cell a n with
      | none => rfl
      | some d =>
          have hne : d ≠ c := by
            rintro rfl
            exact heq (h.injective e name a n d hc hd)
          rw [Option.map_some, Option.map_some,
            Store.valueOf_setCell st' d c v (h.cell_lt e name c hc), if_neg hne]
  env_lt a n d hd := by
    rw [Lox.Store.size_define]
    exact h.env_lt a n d hd
  cell_lt a n d hd := by
    have hsize : (st'.setCell c v).cells.size = st'.cells.size := Array.size_setIfInBounds
    rw [hsize]
    exact h.cell_lt a n d hd
  injective := h.injective
  self a n d hd := by
    rw [Store.valueOf_setCell st' d c v (h.cell_lt e name c hc)]
    by_cases heq : d = c
    · subst heq
      rw [if_pos rfl, (h.injective e name a n d hc hd).2]
      exact hv
    · rw [if_neg heq]
      exact h.self a n d hd

/-- A global variable gets a value. -/
theorem setGlobal (h : w.VariablesFit st st') (name : String) (v : Value) :
    w.VariablesFit (st.define globalEnv name v) (st'.setGlobal name v) where
  enclosing a := by rw [Lox.Store.enclosing?_define, h.enclosing]
  root := by rw [Lox.Store.enclosing?_define, h.root]
  global_lt := by
    rw [Lox.Store.size_define]
    exact h.global_lt
  no_global_cell := h.no_global_cell
  globals n := by
    rw [Lox.Store.lookupIn?_define st globalEnv globalEnv name n v h.global_lt, h.globals]
    show _ = (st'.globals.set name v).get? n
    rw [NamedValues.get?_set]
    by_cases hname : n = name
    · simp [hname]
    · have hne : (name == n) = false := beq_false_of_ne fun heq => hname heq.symm
      simp [hname, hne]
  locals a n ha := by
    rw [Lox.Store.lookupIn?_define st globalEnv a name n v h.global_lt, if_neg fun heq => ha heq.1,
      h.locals a n ha]
    rfl
  env_lt a n c hc := by
    rw [Lox.Store.size_define]
    exact h.env_lt a n c hc
  cell_lt := h.cell_lt
  injective := h.injective
  self := h.self

end VariablesFit

end World

end Lox.Lexical
