import Lox.Tree.Basic
import Std.Data.TreeMap

set_option autoImplicit false

/-! # Binding tables

A binding table says for a reference to a local how many environments lie between the place
of the reference and the environment that holds its variable. A reference is identified by the
offset of its name, or by the identity that was drawn for it and stands in place of the offset
(`Drawing`); no other reference shares either. A reference without an entry is global.
-/

namespace Lox

/-- The hops of references, by the offsets of their names. -/
abbrev BindingTable := Std.TreeMap Nat Nat

namespace BindingTable

/-- The table with more entries. -/
def extend (t : BindingTable) (entries : List (Nat × Nat)) : BindingTable :=
  entries.foldl (fun t entry => t.insert entry.1 entry.2) t

/-- The hops of a reference, if it is local. -/
def hops? (t : BindingTable) (reference : Name) : Option Nat := t[reference.start]?

@[simp] theorem extend_nil (t : BindingTable) : t.extend [] = t := rfl

@[simp] theorem extend_cons (t : BindingTable) (entry : Nat × Nat)
    (entries : List (Nat × Nat)) :
    t.extend (entry :: entries) = BindingTable.extend (t.insert entry.1 entry.2) entries := rfl

end BindingTable

end Lox
