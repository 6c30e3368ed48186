import Lox.Proofs.Binding.Bound

set_option autoImplicit false

/-! # Code in methods

What the static passes ensure of `this` and `super` in an accepted program: they stand in methods,
`super` in methods of classes with a superclass, and the table leads from there to the scope around
the parameters of the method, and to the one around that. Code is placed (`Stmt.Placed`) if this
holds of all code in it, each class in it starting anew with its own methods.
-/

namespace Lox

theorem Expr.mem_referencesAll {es : List Expr} {e : Expr} {r : Reference} (he : e ∈ es)
    (hr : r ∈ e.references) : r ∈ Expr.referencesAll es := by
  induction es with
  | nil => cases he
  | cons e' es ih =>
      rw [Expr.referencesAll, List.mem_append]
      rcases List.mem_cons.1 he with rfl | he
      · exact .inl hr
      · exact .inr (ih he)

mutual

/-- The references of a statement that are in no class in it. -/
def Stmt.ownReferences : Stmt → List Reference
  | .expression e | .print e => e.references
  | .var _ initial => Expr.referencesOf? initial
  | .block body => Stmt.ownReferencesAll body
  | .branch condition yes none => condition.references ++ yes.ownReferences
  | .branch condition yes (some no) =>
    condition.references ++ yes.ownReferences ++ no.ownReferences
  | .loop condition body => condition.references ++ body.ownReferences
  | .function f => f.ownReferences
  | .ret _ value => Expr.referencesOf? value
  | .classDecl _ superclass _ => (superclass.map (⟨.variable, ·⟩)).toList

/-- The references of statements that are in no class in them. -/
def Stmt.ownReferencesAll : List Stmt → List Reference
  | [] => []
  | s :: ss => s.ownReferences ++ Stmt.ownReferencesAll ss

/-- The references of a function that are in no class in it. -/
def Function.ownReferences : Function → List Reference
  | .mk _ _ body => Stmt.ownReferencesAll body

end

/-- Where code stands in a method: how many environments out `this` is, the method, and whether its
class has a superclass. -/
structure MethodPlace where
  depth : Nat
  method : Function
  subclass : Bool

/-- A place in a block, or in a function. -/
def MethodPlace.inner (p : MethodPlace) : MethodPlace := { p with depth := p.depth + 1 }

section Judgement

variable (t : BindingTable)

/-- A reference to `this` or `super` stands in a method, and the table says how far out they are. -/
structure Reference.Placed (place : Option MethodPlace) (r : Reference) : Prop where
  assign : r.role = .assign → r.name.Ordinary
  this : r.role = .this → r.name.text = "this" ∧
    ∃ p, place = some p ∧ r ∈ p.method.ownReferences ∧ t.hops? r.name = some p.depth
  super : r.role = .super → ∃ p, place = some p ∧ r ∈ p.method.ownReferences ∧
    p.subclass = true ∧ t.hops? r.name = some (p.depth + 1)

/-- The references of an expression are placed. -/
def Expr.Placed (place : Option MethodPlace) (e : Expr) : Prop :=
  ∀ r ∈ e.references, r.Placed t place

mutual

/-- The code of a statement is placed. -/
def Stmt.Placed (place : Option MethodPlace) : Stmt → Prop
  | .expression e | .print e => e.Placed t place
  | .var name initial => name.Ordinary ∧ ∀ e ∈ initial, e.Placed t place
  | .block body => Stmt.PlacedAll (place.map .inner) body
  | .branch condition yes none => condition.Placed t place ∧ yes.Placed place
  | .branch condition yes (some no) =>
    condition.Placed t place ∧ yes.Placed place ∧ no.Placed place
  | .loop condition body => condition.Placed t place ∧ body.Placed place
  | .function f => f.name.Ordinary ∧ f.Placed place
  | .ret _ value => ∀ e ∈ value, e.Placed t place
  | .classDecl name superclass methods =>
    name.Ordinary ∧ Function.PlacedMethods superclass.isSome methods

/-- The code of statements is placed. -/
def Stmt.PlacedAll (place : Option MethodPlace) : List Stmt → Prop
  | [] => True
  | s :: ss => s.Placed place ∧ Stmt.PlacedAll place ss

/-- The code of a function is placed, the function standing at the place. -/
def Function.Placed (place : Option MethodPlace) : Function → Prop
  | .mk _ parameters body =>
    (∀ n ∈ parameters, n.Ordinary) ∧ Stmt.PlacedAll (place.map .inner) body

/-- The code of the methods of a class is placed, each in its own method. -/
def Function.PlacedMethods (subclass : Bool) : List Function → Prop
  | [] => True
  | f :: fs => f.Placed (some ⟨0, f, subclass⟩) ∧ Function.PlacedMethods subclass fs

end

end Judgement

/-! ## Places, contexts and scopes -/

/-- In a class, the scopes lead to `this` as the place says. -/
def MethodPlace.Fits (place : Option MethodPlace) (ctx : Context) (scopes : Scopes) : Prop :=
  ctx.inClass ≠ .none → ∃ p, place = some p ∧ scopes.hops? "this" = some p.depth ∧
    (ctx.inClass = .subclass → p.subclass = true)

namespace MethodPlace.Fits

variable {place : Option MethodPlace} {ctx : Context} {scopes : Scopes} {n : Name}

theorem top : Fits none .top [] := fun h => absurd rfl h

theorem of_inClass {ctx' : Context} (h : Fits place ctx scopes)
    (hclass : ctx'.inClass = ctx.inClass) : Fits place ctx' scopes := by
  rw [Fits, hclass]
  exact h

theorem of_hops {scopes' : Scopes} (h : Fits place ctx scopes)
    (hhops : scopes'.hops? "this" = scopes.hops? "this") : Fits place ctx scopes' := by
  rw [Fits, hhops]
  exact h

theorem block (h : Fits place ctx scopes) : Fits (place.map .inner) ctx ([] :: scopes) := by
  intro hclass
  obtain ⟨p, rfl, hthis, hsubclass⟩ := h hclass
  exact ⟨p.inner, rfl, by rw [Scopes.hops?_block, hthis]; rfl, hsubclass⟩

theorem define (h : Fits place ctx scopes) (hn : n.Ordinary) :
    Fits place ctx (scopes.define n.text) :=
  h.of_hops (Scopes.hops?_define_of_ne hn.ne_this.symm)

theorem declare (h : Fits place ctx scopes) (hn : n.Ordinary) :
    Fits place ctx (scopes.declare n.text) :=
  h.of_hops (Scopes.hops?_declare_of_ne hn.ne_this.symm)

theorem defineAll {ns : List Name} (h : Fits place ctx scopes) (hns : ∀ n ∈ ns, n.Ordinary) :
    Fits place ctx (scopes.defineAll ns) := by
  induction ns generalizing scopes with
  | nil => exact h
  | cons n ns ih =>
      rw [List.forall_mem_cons] at hns
      exact ih (h.define hns.1) hns.2

theorem after (h : Fits place ctx scopes) {s : Stmt} (hs : s.WellFormed) :
    Fits place ctx (s.scopesAfter scopes) := by
  cases s with
  | var name initial => exact (h.declare hs).define hs
  | function f => exact h.define hs.ordinary_name
  | classDecl name superclass methods => exact h.define hs.1
  | _ => exact h

/-- A method stands where its own environment is the one that holds `this`. -/
theorem ofMethods (ctx : Context) (scopes : Scopes) (f : Function) (superclass : Option Name) :
    Fits (some ⟨0, f, superclass.isSome⟩)
      { ctx with inClass := if superclass.isSome then .subclass else .plain }
      (scopes.ofMethods superclass.isSome) := by
  refine fun _ => ⟨_, rfl, by simp [Scopes.ofMethods, Scopes.hops?_cons, Scope.declares], ?_⟩
  cases superclass with
  | none => rintro ⟨⟩
  | some above => exact fun _ => rfl

end MethodPlace.Fits

/-! ## From a walk without errors -/

section Walk

variable {t : BindingTable} {own : List Name} {place : Option MethodPlace} {ctx : Context}
  {scopes : Scopes}

/-- The references are among those of the method that the place is in. -/
def MethodPlace.Covers (place : Option MethodPlace) (rs : List Reference) : Prop :=
  ∀ p, place = some p → ∀ r ∈ rs, r ∈ p.method.ownReferences

theorem MethodPlace.Covers.append_iff {rs rs' : List Reference} :
    Covers place (rs ++ rs') ↔ Covers place rs ∧ Covers place rs' := by
  simp only [Covers, List.forall_mem_append]
  exact ⟨fun h => ⟨fun p hp => (h p hp).1, fun p hp => (h p hp).2⟩,
    fun h p hp => ⟨h.1 p hp, h.2 p hp⟩⟩

theorem MethodPlace.Covers.inner {rs : List Reference} (h : Covers place rs) :
    Covers (place.map .inner) rs := by
  intro p hp
  obtain ⟨q, hq, rfl⟩ := Option.map_eq_some_iff.1 hp
  exact h q hq

theorem Expr.placed_of_errors {e : Expr} (hfits : MethodPlace.Fits place ctx scopes)
    (h : (e.findings ctx scopes).errors = []) (hbound : e.Bound t own scopes)
    (hcovers : MethodPlace.Covers place e.references) : e.Placed t place := by
  intro r hr
  have hchecked := Expr.checked e h r hr
  have hr' := hbound r hr
  have hnamed := hr'.named
  refine ⟨fun hrole => ?_, fun hrole => ?_, fun hrole => ?_⟩
  · rw [Reference.WellNamed, hrole] at hnamed
    exact hnamed
  · rw [Reference.WellNamed, hrole] at hnamed
    obtain ⟨p, hp, hthis, -⟩ := hfits (hchecked.inClass hrole)
    refine ⟨hnamed, p, hp, hcovers p hp r hr, ?_⟩
    rw [hr'.hops, hnamed, hthis]
  · rw [Reference.WellNamed, hrole] at hnamed
    have hsubclass := hchecked.inSubclass hrole
    obtain ⟨p, hp, hthis, hp'⟩ := hfits (by rw [hsubclass]; rintro ⟨⟩)
    obtain ⟨-, k, hk, hsuper⟩ := hr'.aboveThis hrole
    -- `super` is one scope further out than `this`, and the place says where that is.
    obtain rfl : p.depth = k := Option.some.inj (hthis.symm.trans hk)
    refine ⟨p, hp, hcovers p hp r hr, hp' hsubclass, ?_⟩
    rw [hr'.hops, hnamed, hsuper]

mutual

/-- A bound statement that is walked without errors is placed. -/
theorem Stmt.placed_of_errors {place : Option MethodPlace} {ctx : Context} {scopes : Scopes}
    (hfits : MethodPlace.Fits place ctx scopes) :
    (s : Stmt) → (s.findings ctx scopes).errors = [] → s.WellFormed → s.Bound t own scopes →
      MethodPlace.Covers place s.ownReferences → s.Placed t place
  | .expression e, h, _, hb, hc | .print e, h, _, hb, hc => Expr.placed_of_errors hfits h hb hc
  | .var name initial, h, hwf, hb, hc => by
      simp only [Stmt.findings, Findings.errors_append_eq_nil_iff] at h
      refine ⟨hwf, fun e he => ?_⟩
      cases he
      exact Expr.placed_of_errors (hfits.declare hwf) h.2 (hb.2 e rfl) hc
  | .block body, h, hwf, hb, hc => Stmt.placedAll_of_errors hfits.block body h hwf hb hc.inner
  | .branch condition yes none, h, hwf, hb, hc => by
      simp only [Stmt.findings, Findings.errors_append_eq_nil_iff] at h
      simp only [Stmt.ownReferences, MethodPlace.Covers.append_iff] at hc
      exact ⟨Expr.placed_of_errors hfits h.1 hb.1 hc.1,
        Stmt.placed_of_errors hfits yes h.2 hwf.2 hb.2.2 hc.2⟩
  | .branch condition yes (some no), h, hwf, hb, hc => by
      simp only [Stmt.findings, Findings.errors_append_eq_nil_iff] at h
      simp only [Stmt.ownReferences, MethodPlace.Covers.append_iff] at hc
      exact ⟨Expr.placed_of_errors hfits h.1.1 hb.1 hc.1.1,
        Stmt.placed_of_errors hfits yes h.1.2 hwf.1.2 hb.2.1.2 hc.1.2,
        Stmt.placed_of_errors hfits no h.2 hwf.2.2 hb.2.2.2 hc.2⟩
  | .loop condition body, h, hwf, hb, hc => by
      simp only [Stmt.findings, Findings.errors_append_eq_nil_iff] at h
      simp only [Stmt.ownReferences, MethodPlace.Covers.append_iff] at hc
      exact ⟨Expr.placed_of_errors hfits h.1 hb.1 hc.1,
        Stmt.placed_of_errors hfits body h.2 hwf.2 hb.2.2 hc.2⟩
  | .function f, h, hwf, hb, hc => by
      simp only [Stmt.findings, Findings.errors_append_eq_nil_iff] at h
      have hname := hwf.ordinary_name
      have hinside : MethodPlace.Fits place { ctx with inFunction := .function }
          (scopes.define f.name.text) := (hfits.define hname).of_inClass rfl
      exact ⟨hname, Function.placed_of_errors hinside f h.2 hwf hb.2 hc⟩
  | .ret keyword value, h, _, hb, hc => by
      simp only [Stmt.findings, Findings.errors_append_eq_nil_iff] at h
      intro e he
      cases he
      exact Expr.placed_of_errors hfits h.2 (hb e rfl) hc
  | .classDecl name superclass methods, h, hwf, hb, _ => by
      simp only [Stmt.findings, Findings.errors_append_eq_nil_iff] at h
      exact ⟨hwf.1, Function.placedMethods_of_errors superclass methods h.2 hwf.2 hb.2.2⟩

theorem Stmt.placedAll_of_errors {place : Option MethodPlace} {ctx : Context} {scopes : Scopes}
    (hfits : MethodPlace.Fits place ctx scopes) :
    (ss : List Stmt) → (Stmt.findingsAll ctx scopes ss).errors = [] → Stmt.WellFormedAll ss →
      Stmt.BoundAll t own scopes ss → MethodPlace.Covers place (Stmt.ownReferencesAll ss) →
        Stmt.PlacedAll t place ss
  | [], _, _, _, _ => trivial
  | s :: ss, h, hwf, hb, hc => by
      simp only [Stmt.findingsAll, Findings.errors_append_eq_nil_iff] at h
      simp only [Stmt.ownReferencesAll, MethodPlace.Covers.append_iff] at hc
      exact ⟨Stmt.placed_of_errors hfits s h.1 hwf.1 hb.1 hc.1,
        Stmt.placedAll_of_errors (hfits.after hwf.1) ss h.2 hwf.2 hb.2 hc.2⟩

theorem Function.placed_of_errors {place : Option MethodPlace} {ctx : Context} {scopes : Scopes}
    (hfits : MethodPlace.Fits place ctx scopes) :
    (f : Function) → (f.findings ctx scopes).errors = [] → f.WellFormed → f.Bound t own scopes →
      MethodPlace.Covers place f.ownReferences → f.Placed t place
  | .mk _ parameters body, h, hwf, hb, hc => by
      simp only [Function.findings, Findings.errors_append_eq_nil_iff] at h
      exact ⟨hwf.2.1, Stmt.placedAll_of_errors (hfits.block.defineAll hwf.2.1) body h.2 hwf.2.2
        hb.2 hc.inner⟩

theorem Function.placedMethods_of_errors {ctx : Context} {scopes : Scopes}
    (superclass : Option Name) :
    (fs : List Function) → (Function.findingsAll
        { ctx with inClass := if superclass.isSome then .subclass else .plain }
        (scopes.ofMethods superclass.isSome) fs).errors = [] →
      Function.WellFormedAll fs →
        Function.BoundAll t own (scopes.ofMethods superclass.isSome) fs →
          Function.PlacedMethods t superclass.isSome fs
  | [], _, _, _ => trivial
  | f :: fs, h, hwf, hb => by
      simp only [Function.findingsAll, Findings.errors_append_eq_nil_iff] at h
      have hinside : MethodPlace.Fits (some ⟨0, f, superclass.isSome⟩)
          (Context.ofMethod
            { ctx with inClass := if superclass.isSome then .subclass else .plain } f)
          (scopes.ofMethods superclass.isSome) :=
        (MethodPlace.Fits.ofMethods ctx scopes f superclass).of_inClass rfl
      refine ⟨Function.placed_of_errors hinside f h.1 hwf.1 hb.1 fun p hp r hr => ?_,
        Function.placedMethods_of_errors superclass fs h.2 hwf.2 hb.2⟩
      cases hp
      exact hr

end

end Walk

/-- A program that resolves is placed by the table, if the table had no entries from its text on. -/
theorem Program.placed_of_bind {source : String} {offset : Nat} {p : Program} {t u : BindingTable}
    (hparsed : (Program.ofText source offset).parsed = .ok p) (hbelow : u.Below offset)
    (hbind : p.bind u = .ok t) : Stmt.PlacedAll t none p :=
  Stmt.placedAll_of_errors .top p (bind_eq_ok_iff.1 hbind).1
    (wellFormed_of_ofText hparsed).statements (bound_of_bind hparsed hbelow hbind)
    fun _ hp => nomatch hp

/-! ## Tables that grow -/

/-- What the first table says, the second one says too. -/
def BindingTable.Grows (t u : BindingTable) : Prop :=
  ∀ (n : Name) (hops : Nat), t.hops? n = some hops → u.hops? n = some hops

section Grows

variable {t u : BindingTable} {place : Option MethodPlace}

theorem Reference.Placed.grow {r : Reference} (h : r.Placed t place) (hgrows : t.Grows u) :
    r.Placed u place where
  assign := h.assign
  this hrole := by
    obtain ⟨htext, p, hp, hmem, hhops⟩ := h.this hrole
    exact ⟨htext, p, hp, hmem, hgrows _ _ hhops⟩
  super hrole := by
    obtain ⟨p, hp, hmem, hsubclass, hhops⟩ := h.super hrole
    exact ⟨p, hp, hmem, hsubclass, hgrows _ _ hhops⟩

theorem Expr.Placed.grow {e : Expr} (h : e.Placed t place) (hgrows : t.Grows u) :
    e.Placed u place := fun r hr => (h r hr).grow hgrows

mutual

theorem Stmt.Placed.grow (hgrows : t.Grows u) {place : Option MethodPlace} :
    {s : Stmt} → s.Placed t place → s.Placed u place
  | .expression _, h | .print _, h => Expr.Placed.grow h hgrows
  | .var _ _, h => ⟨h.1, fun e he => (h.2 e he).grow hgrows⟩
  | .block _, h => Stmt.PlacedAll.grow hgrows h
  | .branch _ _ none, h => ⟨h.1.grow hgrows, Stmt.Placed.grow hgrows h.2⟩
  | .branch _ _ (some _), h =>
    ⟨h.1.grow hgrows, Stmt.Placed.grow hgrows h.2.1, Stmt.Placed.grow hgrows h.2.2⟩
  | .loop _ _, h => ⟨h.1.grow hgrows, Stmt.Placed.grow hgrows h.2⟩
  | .function _, h => ⟨h.1, Function.Placed.grow hgrows h.2⟩
  | .ret _ _, h => fun e he => (h e he).grow hgrows
  | .classDecl _ _ _, h => ⟨h.1, Function.PlacedMethods.grow hgrows h.2⟩

theorem Stmt.PlacedAll.grow (hgrows : t.Grows u) {place : Option MethodPlace} :
    {ss : List Stmt} → Stmt.PlacedAll t place ss → Stmt.PlacedAll u place ss
  | [], _ => trivial
  | _ :: _, h => ⟨Stmt.Placed.grow hgrows h.1, Stmt.PlacedAll.grow hgrows h.2⟩

theorem Function.Placed.grow (hgrows : t.Grows u) {place : Option MethodPlace} :
    {f : Function} → f.Placed t place → f.Placed u place
  | .mk _ _ _, h => ⟨h.1, Stmt.PlacedAll.grow hgrows h.2⟩

theorem Function.PlacedMethods.grow (hgrows : t.Grows u) {subclass : Bool} :
    {fs : List Function} → Function.PlacedMethods t subclass fs →
      Function.PlacedMethods u subclass fs
  | [], _ => trivial
  | _ :: _, h => ⟨Function.Placed.grow hgrows h.1, Function.PlacedMethods.grow hgrows h.2⟩

end

end Grows

end Lox
