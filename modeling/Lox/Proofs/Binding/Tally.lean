import Lox.Binding.Reference
import Mathlib.Data.List.Basic

set_option autoImplicit false

/-! # Counting identities

The number in the name of a reference is its identity, the key of the reference in a binding table.
How often a number is an identity is said by counting, so that the parts of a tree add up.
-/

namespace Lox

namespace Reference

/-- The identities of references. -/
def ids (rs : List Reference) : List Nat := rs.map (·.name.start)

/-- How often a number is the identity of a reference. -/
def tally (k : Nat) (rs : List Reference) : Nat := (ids rs).count k

variable {k : Nat}

@[simp] theorem tally_nil : tally k [] = 0 := rfl

@[simp] theorem tally_append (rs qs : List Reference) :
    tally k (rs ++ qs) = tally k rs + tally k qs := by
  simp [tally, ids]

@[simp] theorem tally_singleton (r : Reference) :
    tally k [r] = if r.name.start = k then 1 else 0 := by
  simp [tally, ids, List.count_cons]

theorem tally_cons (r : Reference) (rs : List Reference) :
    tally k (r :: rs) = tally k [r] + tally k rs :=
  tally_append [r] rs

theorem tally_of_perm {rs qs : List Reference} (h : rs.Perm qs) : tally k rs = tally k qs :=
  (h.map _).count_eq k

end Reference

/-- The identities in a program. -/
def Program.ids (p : Program) : List Nat := Reference.ids p.references

end Lox
