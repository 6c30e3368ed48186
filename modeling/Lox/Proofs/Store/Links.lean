import Lox.Proofs.Store.Access

set_option autoImplicit false

/-! # Walks along links

An environment has a link to the one around it, and a class one to its superclass. The walk from a
place along such links is the list of the places it comes through, if it ends (`Walk`). If every
link leads to something older, the walk from every place ends, and no place comes twice
(`exists_walk`). Searching for a variable or a method, and going so many links out, are then
searches in this list.

The searches look at a link only if it leads to something older. Nothing here relies on that: where
all links do, the test never fails.
-/

namespace Lox

/-- The places along links, from one place to the first that has no link. -/
inductive Walk (next : Nat → Option Nat) : Nat → List Nat → Prop
  | last {i : Nat} (h : next i = none) : Walk next i [i]
  | link {i j : Nat} {path : List Nat} (h : next i = some j) (hrest : Walk next j path) :
      Walk next i (i :: path)

namespace Walk

variable {next : Nat → Option Nat} {i : Nat} {path : List Nat}

/-- There is at most one walk from a place. -/
theorem unique {path' : List Nat} (h : Walk next i path) (h' : Walk next i path') :
    path = path' := by
  induction h generalizing path' with
  | last h =>
      cases h' with
      | last => rfl
      | link h' => cases h.symm.trans h'
  | link h hrest ih =>
      cases h' with
      | last h' => cases h.symm.trans h'
      | link h' hrest' =>
          cases h.symm.trans h'
          rw [ih hrest']

/-- A walk does not change if the links from where it comes through do not. -/
theorem congr {next' : Nat → Option Nat} {bound : Nat} (h : Walk next i path)
    (hlinks : ∀ i j, next i = some j → j < i) (hsame : ∀ i < bound, next' i = next i)
    (hi : i < bound) : Walk next' i path := by
  induction h with
  | @last i h => exact .last ((hsame i hi).trans h)
  | @link i j path h hrest ih =>
      exact .link ((hsame i hi).trans h) (ih (Nat.lt_trans (hlinks i j h) hi))

/-- A walk comes through nothing younger than its first place, and through nothing twice. -/
theorem pairwise (h : Walk next i path) (hlinks : ∀ i j, next i = some j → j < i) :
    path.Pairwise (· > ·) ∧ ∀ a ∈ path, a ≤ i := by
  induction h with
  | @last i h => simp
  | @link i j path h hrest ih =>
      have hlt := hlinks i j h
      refine ⟨List.pairwise_cons.2 ⟨fun a ha => Nat.lt_of_le_of_lt (ih.2 a ha) hlt, ih.1⟩, ?_⟩
      intro a ha
      rcases List.mem_cons.1 ha with rfl | ha
      · exact Nat.le_refl a
      · exact Nat.le_trans (ih.2 a ha) (Nat.le_of_lt hlt)

/-- Where a walk ends there is no link. -/
theorem next_getLast (h : Walk next i path) :
    ∃ a, path.getLast? = some a ∧ next a = none := by
  induction h with
  | @last i h => exact ⟨i, rfl, h⟩
  | @link i j path h hrest ih =>
      obtain ⟨a, ha, hnone⟩ := ih
      exact ⟨a, by rw [List.getLast?_cons, ha]; rfl, hnone⟩

end Walk

/-- If every link leads to something older, then a walk ends wherever it starts. -/
theorem exists_walk {next : Nat → Option Nat} (hlinks : ∀ i j, next i = some j → j < i) (i : Nat) :
    ∃ path, Walk next i path := by
  induction i using Nat.strongRecOn with
  | ind i ih =>
      cases hnext : next i with
      | none => exact ⟨[i], .last hnext⟩
      | some j =>
          obtain ⟨path, hpath⟩ := ih j (hlinks i j hnext)
          exact ⟨i :: path, .link hnext hpath⟩

/-! ## Environments -/

namespace Store

variable {st : Store} {e : EnvId} {path : List EnvId}

/-- The environment that binds a name is the first one on the walk that does. -/
theorem binder?_eq_find? (h : Walk st.enclosing? e path)
    (hlinks : ∀ e outer : EnvId, st.enclosing? e = some outer → outer < e) (name : String) :
    st.binder? e name = path.find? fun a => (st.lookupIn? a name).isSome := by
  induction h with
  | @last e h =>
      rw [binder?_of_enclosing?_eq_none st e name h, List.find?_cons]
      cases st.lookupIn? e name <;> rfl
  | @link e outer path h hrest ih =>
      rw [binder?, h, List.find?_cons, ← ih]
      simp only [if_pos (hlinks e outer h)]
      cases st.lookupIn? e name <;> rfl

/-- A variable is read in the first environment on the walk that has it. -/
theorem get?_eq_findSome? (h : Walk st.enclosing? e path)
    (hlinks : ∀ e outer : EnvId, st.enclosing? e = some outer → outer < e) (name : String) :
    st.get? e name = path.findSome? (st.lookupIn? · name) := by
  rw [get?, binder?_eq_find? h hlinks name]
  clear h
  induction path with
  | nil => rfl
  | cons a path ih =>
      rw [List.find?_cons, List.findSome?_cons]
      cases ha : st.lookupIn? a name with
      | none => exact ih
      | some v => simp [ha]

/-- A variable is overwritten in the first environment on the walk that has it. -/
theorem assign?_eq_map (h : Walk st.enclosing? e path)
    (hlinks : ∀ e outer : EnvId, st.enclosing? e = some outer → outer < e) (name : String)
    (v : Value) :
    st.assign? e name v =
      (path.find? fun a => (st.lookupIn? a name).isSome).map (st.define · name v) := by
  rw [assign?, binder?_eq_find? h hlinks name]
  cases path.find? fun a => (st.lookupIn? a name).isSome <;> rfl

/-- The environment so many links out stands at this place of the walk. -/
theorem ancestor?_eq_getElem? (h : Walk st.enclosing? e path) (hops : Nat) :
    st.ancestor? e hops = path[hops]? := by
  induction h generalizing hops with
  | last h =>
      cases hops with
      | zero => rfl
      | succ hops => simp [ancestor?, h]
  | link h hrest ih =>
      cases hops with
      | zero => rfl
      | succ hops => rw [ancestor?, h, List.getElem?_cons_succ, ← ih hops]

end Store

/-! ## Classes -/

namespace Heap

variable {ε : Type} {h : Heap ε} {cls : ClassId} {path : List ClassId}

/-- The superclass of a class. -/
def superclass? (h : Heap ε) (cls : ClassId) : Option ClassId :=
  (h.classes[cls]?).bind ClassObject.superclass

/-- The method that a class itself declares under a name. -/
def ownMethod? (h : Heap ε) (cls : ClassId) (name : String) : Option (Closure ε) :=
  (h.classes[cls]?).bind (·.methods.lookup name)

/-- A method is that of the first class on the walk that declares it. -/
theorem method?_eq_findSome? (hwalk : Walk h.superclass? cls path)
    (hlinks : ∀ cls above, h.superclass? cls = some above → above < cls) (name : String) :
    h.method? cls name = path.findSome? (h.ownMethod? · name) := by
  induction hwalk with
  | @last cls hnone =>
      rw [method?, List.findSome?_singleton, ownMethod?]
      cases hcls : h.classes[cls]? with
      | none => rfl
      | some c =>
          rw [superclass?, hcls, Option.bind_some] at hnone
          simp only [hnone, Option.bind_some]
          cases c.methods.lookup name <;> rfl
  | @link cls above path hlink hrest ih =>
      have hlt := hlinks cls above hlink
      rw [method?, List.findSome?_cons, ← ih, ownMethod?]
      cases hcls : h.classes[cls]? with
      | none =>
          rw [superclass?, hcls] at hlink
          cases hlink
      | some c =>
          rw [superclass?, hcls, Option.bind_some] at hlink
          simp only [hlink, Option.bind_some, if_pos hlt]
          cases c.methods.lookup name <;> rfl

end Heap

end Lox
