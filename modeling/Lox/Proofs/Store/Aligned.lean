import Lox.Store.Object

set_option autoImplicit false

/-! # Arrays side by side

What is said of functions or classes is said of all of them, place by place, by another array of the
same size (`Aligned`). Both grow at their ends.
-/

namespace Lox

/-- Two arrays of one size whose elements are related place by place. -/
structure Aligned {α β : Type} (R : α → β → Prop) (as : Array α) (bs : Array β) : Prop where
  size_eq : as.size = bs.size
  related : ∀ (i : Nat) (a : α) (b : β), as[i]? = some a → bs[i]? = some b → R a b

namespace Aligned

variable {α β : Type} {R S : α → β → Prop} {as : Array α} {bs : Array β}

theorem empty : Aligned R #[] #[] := ⟨rfl, fun _ _ _ ha => nomatch ha⟩

theorem cases (h : Aligned R as bs) (i : Nat) :
    (as[i]? = none ∧ bs[i]? = none) ∨
      ∃ a b, as[i]? = some a ∧ bs[i]? = some b ∧ R a b := by
  by_cases hi : i < as.size
  · have hi' : i < bs.size := h.size_eq ▸ hi
    have ha := Array.getElem?_eq_getElem hi
    have hb := Array.getElem?_eq_getElem hi'
    exact .inr ⟨_, _, ha, hb, h.related i _ _ ha hb⟩
  · have hi' : ¬ i < bs.size := h.size_eq ▸ hi
    exact .inl ⟨Array.getElem?_eq_none (Nat.le_of_not_lt hi),
      Array.getElem?_eq_none (Nat.le_of_not_lt hi')⟩

theorem exists_left (h : Aligned R as bs) {i : Nat} {b : β} (hb : bs[i]? = some b) :
    ∃ a, as[i]? = some a ∧ R a b := by
  rcases h.cases i with ⟨-, hnone⟩ | ⟨a, b', ha, hb', hab⟩
  · cases hb.symm.trans hnone
  · cases hb.symm.trans hb'
    exact ⟨a, ha, hab⟩

theorem mono (h : Aligned R as bs) (himp : ∀ a b, R a b → S a b) : Aligned S as bs :=
  ⟨h.size_eq, fun i a b ha hb => himp a b (h.related i a b ha hb)⟩

theorem push {a : α} {b : β} (h : Aligned R as bs) (hab : R a b) :
    Aligned R (as.push a) (bs.push b) := by
  refine ⟨by rw [Array.size_push, Array.size_push, h.size_eq], fun i x y hx hy => ?_⟩
  rw [Array.getElem?_push] at hx hy
  by_cases hi : i = as.size
  · rw [if_pos hi] at hx
    rw [if_pos (hi.trans h.size_eq)] at hy
    cases hx
    cases hy
    exact hab
  · rw [if_neg hi] at hx
    rw [if_neg fun heq => hi (heq.trans h.size_eq.symm)] at hy
    exact h.related i x y hx hy

end Aligned

end Lox
