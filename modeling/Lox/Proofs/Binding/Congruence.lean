import Lox.Proofs.Binding.Bound

set_option autoImplicit false

/-! # Bound by another table

Whether code is bound depends on a table and on a list of assignments only through what they say of
the references in the code (`Reference.Alike`). So code that a session holds goes on being bound
when later lines add to the table and to the list.
-/

namespace Lox

variable {t u : BindingTable} {own own' : List Name}

/-- Both tables say the same of the reference, and so do both lists. -/
structure Reference.Alike (t u : BindingTable) (own own' : List Name) (r : Reference) : Prop where
  hops : u.hops? r.name = t.hops? r.name
  own : r.name ∈ own' ↔ r.name ∈ own

theorem Reference.Bound.congr {scopes : Scopes} {r : Reference} (halike : r.Alike t u own own')
    (h : r.Bound t own scopes) : r.Bound u own' scopes where
  hops := halike.hops.trans h.hops
  named := h.named
  pending := by rw [h.pending, halike.own]
  aboveThis := h.aboveThis

theorem Expr.Bound.congr {scopes : Scopes} {e : Expr}
    (halike : ∀ r ∈ e.references, r.Alike t u own own') (h : e.Bound t own scopes) :
    e.Bound u own' scopes := fun r hr => (h r hr).congr (halike r hr)

theorem Expr.Bound.congr_of? {scopes : Scopes} {initial : Option Expr}
    (halike : ∀ r ∈ Expr.referencesOf? initial, r.Alike t u own own')
    (h : ∀ e ∈ initial, e.Bound t own scopes) : ∀ e ∈ initial, e.Bound u own' scopes := by
  rintro e rfl
  exact (h e rfl).congr halike

mutual

/-- A statement is bound by what says the same of its references. -/
theorem Stmt.Bound.congr {scopes : Scopes} :
    {s : Stmt} → (∀ r ∈ s.references, r.Alike t u own own') → s.Bound t own scopes →
      s.Bound u own' scopes
  | .expression _, halike, h | .print _, halike, h => Expr.Bound.congr halike h
  | .var _ _, halike, h => ⟨h.1, Expr.Bound.congr_of? halike h.2⟩
  | .block _, halike, h => Stmt.BoundAll.congr halike h
  | .branch _ _ none, halike, h => by
      obtain ⟨hcondition, hyes⟩ := List.forall_mem_append.1 halike
      exact ⟨h.1.congr hcondition, h.2.1, Stmt.Bound.congr hyes h.2.2⟩
  | .branch _ _ (some _), halike, h => by
      obtain ⟨halike, hno⟩ := List.forall_mem_append.1 halike
      obtain ⟨hcondition, hyes⟩ := List.forall_mem_append.1 halike
      exact ⟨h.1.congr hcondition, ⟨h.2.1.1, Stmt.Bound.congr hyes h.2.1.2⟩, h.2.2.1,
        Stmt.Bound.congr hno h.2.2.2⟩
  | .loop _ _, halike, h => by
      obtain ⟨hcondition, hbody⟩ := List.forall_mem_append.1 halike
      exact ⟨h.1.congr hcondition, h.2.1, Stmt.Bound.congr hbody h.2.2⟩
  | .function _, halike, h => ⟨h.1, Function.Bound.congr halike h.2⟩
  | .ret _ _, halike, h => Expr.Bound.congr_of? halike h
  | .classDecl _ _ _, halike, h => by
      obtain ⟨habove, hmethods⟩ := List.forall_mem_append.1 halike
      refine ⟨h.1, fun above hmem => ?_, Function.BoundAll.congr hmethods h.2.2⟩
      cases hmem
      exact ⟨(h.2.1 above rfl).ne, (h.2.1 above rfl).bound.congr (habove _ (List.mem_cons_self ..))⟩

theorem Stmt.BoundAll.congr {scopes : Scopes} :
    {ss : List Stmt} → (∀ r ∈ Stmt.referencesAll ss, r.Alike t u own own') →
      Stmt.BoundAll t own scopes ss → Stmt.BoundAll u own' scopes ss
  | [], _, _ => trivial
  | _ :: _, halike, h => by
      obtain ⟨hs, hss⟩ := List.forall_mem_append.1 halike
      exact ⟨Stmt.Bound.congr hs h.1, Stmt.BoundAll.congr hss h.2⟩

theorem Function.Bound.congr {scopes : Scopes} :
    {f : Function} → (∀ r ∈ f.references, r.Alike t u own own') → f.Bound t own scopes →
      f.Bound u own' scopes
  | .mk _ _ _, halike, h => ⟨h.1, Stmt.BoundAll.congr halike h.2⟩

theorem Function.BoundAll.congr {scopes : Scopes} :
    {fs : List Function} → (∀ r ∈ Function.referencesAll fs, r.Alike t u own own') →
      Function.BoundAll t own scopes fs → Function.BoundAll u own' scopes fs
  | [], _, _ => trivial
  | _ :: _, halike, h => by
      obtain ⟨hf, hfs⟩ := List.forall_mem_append.1 halike
      exact ⟨Function.Bound.congr hf h.1, Function.BoundAll.congr hfs h.2⟩

end

end Lox
