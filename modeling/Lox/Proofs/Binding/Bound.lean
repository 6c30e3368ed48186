import Lox.Proofs.Binding.OwnAssignment
import Lox.Proofs.Parsing.Names
import Lox.Session

set_option autoImplicit false

/-! # Bound programs

What a run may rely on in a program that was accepted, put where a run needs it. A statement is
bound among scopes if its references are, if what it declares is new there, and if its parts are
bound among the scopes that they see (`Stmt.Bound`). Being bound is kept from statement to
statement, so it needs no whole program.
-/

namespace Lox

/-- A name that may be declared in the innermost scope. -/
structure Name.Declarable (scopes : Scopes) (n : Name) : Prop where
  ordinary : n.Ordinary
  new : scopes.redeclares n.text = false

/-- Names that may be declared one after another. -/
def Name.DeclarableAll (scopes : Scopes) : List Name → Prop
  | [] => True
  | n :: ns => n.Declarable scopes ∧ DeclarableAll (scopes.define n.text) ns

/-- What the table says of a reference, and what scopes say of its name. The list has the
assignments to variables in their own initializers. -/
structure Reference.Bound (t : BindingTable) (own : List Name) (scopes : Scopes)
    (r : Reference) : Prop where
  hops : t.hops? r.name = scopes.hops? r.name.text
  named : r.WellNamed
  pending : scopes.isPending r.name.text = true ↔ r.role = .assign ∧ r.name ∈ own
  aboveThis : r.role = .super → scopes.isPending "this" = false ∧
    ∃ k, scopes.hops? "this" = some k ∧ scopes.hops? "super" = some (k + 1)

section Judgement

variable (t : BindingTable) (own : List Name)

/-- The references of an expression are bound. -/
def Expr.Bound (scopes : Scopes) (e : Expr) : Prop :=
  ∀ r ∈ e.references, r.Bound t own scopes

/-- The references of each expression are bound. -/
def Expr.BoundAll (scopes : Scopes) (es : List Expr) : Prop :=
  ∀ e ∈ es, e.Bound t own scopes

/-- The superclass of a class is bound, and is not the class itself. -/
structure Name.BoundSuperclass (scopes : Scopes) (className superclass : Name) : Prop where
  ne : superclass.text ≠ className.text
  bound : Reference.Bound t own scopes ⟨.variable, superclass⟩

mutual

/-- A statement is bound. -/
def Stmt.Bound (scopes : Scopes) : Stmt → Prop
  | .expression e | .print e => e.Bound t own scopes
  | .var name initial =>
    name.Declarable scopes ∧ ∀ e ∈ initial, e.Bound t own (scopes.declare name.text)
  | .block body => Stmt.BoundAll ([] :: scopes) body
  | .branch condition yes none =>
    condition.Bound t own scopes ∧ yes.isDeclaration = false ∧ yes.Bound scopes
  | .branch condition yes (some no) =>
    condition.Bound t own scopes ∧ (yes.isDeclaration = false ∧ yes.Bound scopes) ∧
      no.isDeclaration = false ∧ no.Bound scopes
  | .loop condition body =>
    condition.Bound t own scopes ∧ body.isDeclaration = false ∧ body.Bound scopes
  | .function f => f.name.Declarable scopes ∧ f.Bound (scopes.define f.name.text)
  | .ret _ value => ∀ e ∈ value, e.Bound t own scopes
  | .classDecl name superclass methods =>
    name.Declarable scopes ∧ (∀ above ∈ superclass, name.BoundSuperclass t own scopes above) ∧
      Function.BoundAll ((scopes.define name.text).ofMethods superclass.isSome) methods

/-- Statements are bound, each seeing what those before it declare. -/
def Stmt.BoundAll (scopes : Scopes) : List Stmt → Prop
  | [] => True
  | s :: ss => s.Bound scopes ∧ Stmt.BoundAll (s.scopesAfter scopes) ss

/-- A function is bound: its parameters differ, and its body sees them. -/
def Function.Bound (scopes : Scopes) : Function → Prop
  | .mk _ parameters body =>
    Name.DeclarableAll ([] :: scopes) parameters ∧
      Stmt.BoundAll (Scopes.defineAll ([] :: scopes) parameters) body

/-- Every one of the functions is bound. -/
def Function.BoundAll (scopes : Scopes) : List Function → Prop
  | [] => True
  | f :: fs => f.Bound scopes ∧ Function.BoundAll scopes fs

end

end Judgement

/-! ## Contexts and scopes -/

/-- What the scopes say of `this` and `super` in a context. -/
structure Context.Fits (ctx : Context) (scopes : Scopes) : Prop where
  settled_this : scopes.isPending "this" = false
  settled_super : scopes.isPending "super" = false
  aboveThis : ctx.inClass = .subclass →
    ∃ k, scopes.hops? "this" = some k ∧ scopes.hops? "super" = some (k + 1)

namespace Context.Fits

variable {ctx : Context} {scopes : Scopes} {n : Name}

theorem top : Context.top.Fits [] := ⟨rfl, rfl, fun h => nomatch h⟩

theorem of_inClass {ctx' : Context} (h : ctx.Fits scopes) (hclass : ctx'.inClass = ctx.inClass) :
    ctx'.Fits scopes :=
  ⟨h.settled_this, h.settled_super, fun hsub => h.aboveThis (hclass ▸ hsub)⟩

theorem block (h : ctx.Fits scopes) : ctx.Fits ([] :: scopes) := by
  refine ⟨rfl, rfl, fun hsub => ?_⟩
  obtain ⟨k, hthis, hsuper⟩ := h.aboveThis hsub
  exact ⟨k + 1, by rw [Scopes.hops?_block, hthis]; rfl, by rw [Scopes.hops?_block, hsuper]; rfl⟩

theorem define (h : ctx.Fits scopes) (hn : n.Ordinary) : ctx.Fits (scopes.define n.text) := by
  refine ⟨?_, ?_, fun hsub => ?_⟩
  · rw [Scopes.isPending_define, h.settled_this, ite_self]
  · rw [Scopes.isPending_define, h.settled_super, ite_self]
  · rw [Scopes.hops?_define_of_ne hn.ne_this.symm, Scopes.hops?_define_of_ne hn.ne_super.symm]
    exact h.aboveThis hsub

theorem declare (h : ctx.Fits scopes) (hn : n.Ordinary) : ctx.Fits (scopes.declare n.text) := by
  refine ⟨?_, ?_, fun hsub => ?_⟩
  · rw [Scopes.isPending_declare_of_ne hn.ne_this.symm, h.settled_this]
  · rw [Scopes.isPending_declare_of_ne hn.ne_super.symm, h.settled_super]
  · rw [Scopes.hops?_declare_of_ne hn.ne_this.symm, Scopes.hops?_declare_of_ne hn.ne_super.symm]
    exact h.aboveThis hsub

theorem defineAll {ns : List Name} (h : ctx.Fits scopes) (hns : ∀ n ∈ ns, n.Ordinary) :
    ctx.Fits (scopes.defineAll ns) := by
  induction ns generalizing scopes with
  | nil => exact h
  | cons n ns ih =>
      exact ih (h.define (hns n (by simp))) fun m hm => hns m (by simp [hm])

theorem after (h : ctx.Fits scopes) {s : Stmt} (hs : s.WellFormed) :
    ctx.Fits (s.scopesAfter scopes) := by
  cases s with
  | var name initial => exact (h.declare hs).define hs
  | function f =>
      obtain ⟨name, parameters, body⟩ := f
      exact h.define hs.1
  | classDecl name superclass methods => exact h.define hs.1
  | _ => exact h

/-- In the methods of a subclass, `super` is one scope outside of `this`. -/
theorem ofMethods (ctx : Context) (scopes : Scopes) (superclass : Option Name) :
    Context.Fits { ctx with inClass := if superclass.isSome then .subclass else .plain }
      (scopes.ofMethods superclass.isSome) := by
  refine ⟨Scopes.settled_ofMethods _ _ _, Scopes.settled_ofMethods _ _ _, fun h => ?_⟩
  cases superclass with
  | none => cases h
  | some above =>
      exact ⟨0, by simp [Scopes.ofMethods, Scopes.hops?_cons, Scope.declares],
        by simp [Scopes.ofMethods, Scopes.hops?_cons, Scope.declares]⟩

end Context.Fits

/-! ## From a walk without errors -/

/-- What a walk without errors ensures of a reference. -/
structure Reference.Checked (ctx : Context) (scopes : Scopes) (r : Reference) : Prop where
  read : r.role = .variable → scopes.isPending r.name.text = false
  inClass : r.role = .this → ctx.inClass ≠ .none
  inSubclass : r.role = .super → ctx.inClass = .subclass

theorem Findings.errorIf_errors_eq_nil_iff {condition : Bool} {cause : ResolveError.Cause}
    {name : Name} : (errorIf condition cause name).errors = [] ↔ condition = false := by
  cases condition <;> simp [errorIf, error, empty]

section Checked

variable {ctx : Context} {scopes : Scopes}

mutual

theorem Expr.checked : (e : Expr) → (e.findings ctx scopes).errors = [] →
    ∀ r ∈ e.references, r.Checked ctx scopes
  | .literal _, _ => by simp [Expr.references]
  | .grouping inner, h => Expr.checked inner h
  | .unary _ _ operand, h => Expr.checked operand h
  | .binary _ _ left right, h | .logical _ left right, h => by
      simp only [Expr.findings, Findings.errors_append_eq_nil_iff] at h
      exact List.forall_mem_append.2 ⟨Expr.checked left h.1, Expr.checked right h.2⟩
  | .variable name, h => by
      simp only [Expr.findings, Findings.read, Findings.errors_append_eq_nil_iff,
        Findings.errorIf_errors_eq_nil_iff] at h
      simp only [Expr.references, List.forall_mem_singleton]
      exact ⟨fun _ => h.1, fun hrole => (nomatch hrole), fun hrole => nomatch hrole⟩
  | .assign name value, h => by
      simp only [Expr.findings, Findings.errors_append_eq_nil_iff] at h
      simp only [Expr.references, List.forall_mem_cons]
      exact ⟨⟨fun hrole => (nomatch hrole), fun hrole => (nomatch hrole),
        fun hrole => (nomatch hrole)⟩, Expr.checked value h.1⟩
  | .call callee arguments _, h => by
      simp only [Expr.findings, Findings.errors_append_eq_nil_iff] at h
      exact List.forall_mem_append.2 ⟨Expr.checked callee h.1, Expr.checkedAll arguments h.2⟩
  | .get object _, h => Expr.checked object h
  | .set object _ value, h => by
      simp only [Expr.findings, Findings.errors_append_eq_nil_iff] at h
      exact List.forall_mem_append.2 ⟨Expr.checked object h.2, Expr.checked value h.1⟩
  | .this keyword, h => by
      simp only [Expr.references, List.forall_mem_singleton]
      refine ⟨fun hrole => (nomatch hrole), fun _ hclass => ?_, fun hrole => (nomatch hrole)⟩
      rw [Expr.findings, if_pos hclass] at h
      cases h
  | .super keyword _, h => by
      simp only [Expr.findings, Findings.errors_append_eq_nil_iff,
        Findings.errorIf_errors_eq_nil_iff, decide_eq_false_iff_not] at h
      simp only [Expr.references, List.forall_mem_singleton]
      refine ⟨fun hrole => (nomatch hrole), fun hrole => (nomatch hrole), fun _ => ?_⟩
      cases hclass : ctx.inClass with
      | none => exact absurd hclass h.1.1
      | plain => exact absurd hclass h.1.2
      | subclass => rfl

theorem Expr.checkedAll : (es : List Expr) → (Expr.findingsAll ctx scopes es).errors = [] →
    ∀ r ∈ Expr.referencesAll es, r.Checked ctx scopes
  | [], _ => by simp [Expr.referencesAll]
  | e :: es, h => by
      simp only [Expr.findingsAll, Findings.errors_append_eq_nil_iff] at h
      exact List.forall_mem_append.2 ⟨Expr.checked e h.1, Expr.checkedAll es h.2⟩

end

end Checked

/-- What a table says of a site, and what the list says of it. -/
structure Site.Recorded (t : BindingTable) (own : List Name) (site : Site) : Prop where
  hops : t.hops? site.reference.name = site.scopes.hops? site.reference.name.text
  named : site.reference.WellNamed
  pending : site.reference.role = .assign →
    (site.scopes.isPending site.reference.name.text = true ↔ site.reference.name ∈ own)

section Walk

variable {t : BindingTable} {own : List Name} {ctx : Context} {scopes : Scopes}

theorem Reference.bound_of_checked {r : Reference} (hfits : ctx.Fits scopes)
    (hchecked : r.Checked ctx scopes) (hrecorded : Site.Recorded t own ⟨r, scopes⟩) :
    r.Bound t own scopes := by
  refine ⟨hrecorded.hops, hrecorded.named, ?_, fun h =>
    ⟨hfits.settled_this, hfits.aboveThis (hchecked.inSubclass h)⟩⟩
  have hnamed := hrecorded.named
  cases hrole : r.role with
  | assign => simpa using hrecorded.pending hrole
  | «variable» => simp [hchecked.read hrole]
  | this =>
      simp only [WellNamed, hrole] at hnamed
      simp [hnamed, hfits.settled_this]
  | super =>
      simp only [WellNamed, hrole] at hnamed
      simp [hnamed, hfits.settled_super]

theorem Expr.bound_of_errors {e : Expr} (hfits : ctx.Fits scopes)
    (h : (e.findings ctx scopes).errors = [])
    (hsites : ∀ site ∈ scopes.sites e.references, site.Recorded t own) : e.Bound t own scopes :=
  fun r hr => Reference.bound_of_checked hfits (Expr.checked e h r hr)
    (hsites ⟨r, scopes⟩ (List.mem_map_of_mem hr))

theorem Name.declarable_of_errors {n : Name} (hn : n.Ordinary)
    (h : (Findings.declaration scopes n).errors = []) : n.Declarable scopes :=
  ⟨hn, Findings.errorIf_errors_eq_nil_iff.1 h⟩

theorem Name.declarableAll_of_errors {ns : List Name} (hns : ∀ n ∈ ns, n.Ordinary)
    (h : (Findings.declarations scopes ns).errors = []) : Name.DeclarableAll scopes ns := by
  induction ns generalizing scopes with
  | nil => trivial
  | cons n ns ih =>
      simp only [Findings.declarations, Findings.errors_append_eq_nil_iff] at h
      rw [List.forall_mem_cons] at hns
      exact ⟨declarable_of_errors hns.1 h.1, ih hns.2 h.2⟩

theorem Name.boundSuperclass_of_errors {className above : Name}
    (h : (Findings.superclass (scopes.define className.text) className (some above)).errors = [])
    (hsite : Site.Recorded t own ⟨⟨.variable, above⟩, scopes.define className.text⟩) :
    className.BoundSuperclass t own scopes above := by
  simp only [Findings.superclass, Findings.read, Findings.errors_append_eq_nil_iff,
    Findings.errorIf_errors_eq_nil_iff, beq_eq_false_iff_ne] at h
  -- The clause is resolved after the class is declared and evaluated before, which makes no
  -- difference to another name.
  refine ⟨h.1, ⟨?_, hsite.named, ?_, fun hrole => nomatch hrole⟩⟩
  · rw [hsite.hops]
    exact Scopes.hops?_define_of_ne h.1
  · have hpending := h.2.1
    rw [Scopes.isPending_define, beq_false_of_ne h.1] at hpending
    simpa using hpending

mutual

/-- A statement that is walked without errors is bound. -/
theorem Stmt.bound_of_errors {ctx : Context} {scopes : Scopes} (hfits : ctx.Fits scopes) :
    (s : Stmt) → (s.findings ctx scopes).errors = [] → s.WellFormed →
      (∀ site ∈ s.sites scopes, site.Recorded t own) → s.Bound t own scopes
  | .expression e, h, _, hsites | .print e, h, _, hsites =>
      Expr.bound_of_errors hfits h hsites
  | .var name initial, h, hwf, hsites => by
      simp only [Stmt.findings, Findings.errors_append_eq_nil_iff] at h
      refine ⟨Name.declarable_of_errors hwf h.1, fun e he => ?_⟩
      cases he
      exact Expr.bound_of_errors (hfits.declare hwf) h.2 hsites
  | .block body, h, hwf, hsites => Stmt.boundAll_of_errors hfits.block body h hwf hsites
  | .branch condition yes none, h, hwf, hsites => by
      simp only [Stmt.findings, Findings.errors_append_eq_nil_iff] at h
      simp only [Stmt.sites, List.forall_mem_append] at hsites
      exact ⟨Expr.bound_of_errors hfits h.1 hsites.1, hwf.1,
        Stmt.bound_of_errors hfits yes h.2 hwf.2 hsites.2⟩
  | .branch condition yes (some no), h, hwf, hsites => by
      simp only [Stmt.findings, Findings.errors_append_eq_nil_iff] at h
      simp only [Stmt.sites, List.forall_mem_append] at hsites
      exact ⟨Expr.bound_of_errors hfits h.1.1 hsites.1.1,
        ⟨hwf.1.1, Stmt.bound_of_errors hfits yes h.1.2 hwf.1.2 hsites.1.2⟩,
        hwf.2.1, Stmt.bound_of_errors hfits no h.2 hwf.2.2 hsites.2⟩
  | .loop condition body, h, hwf, hsites => by
      simp only [Stmt.findings, Findings.errors_append_eq_nil_iff] at h
      simp only [Stmt.sites, List.forall_mem_append] at hsites
      exact ⟨Expr.bound_of_errors hfits h.1 hsites.1, hwf.1,
        Stmt.bound_of_errors hfits body h.2 hwf.2 hsites.2⟩
  | .function f, h, hwf, hsites => by
      simp only [Stmt.findings, Findings.errors_append_eq_nil_iff] at h
      have hname := hwf.ordinary_name
      have hinside : Context.Fits { ctx with inFunction := .function }
          (scopes.define f.name.text) := (hfits.define hname).of_inClass rfl
      exact ⟨Name.declarable_of_errors hname h.1,
        Function.bound_of_errors hinside f h.2 hwf hsites⟩
  | .ret keyword value, h, _, hsites => by
      simp only [Stmt.findings, Findings.errors_append_eq_nil_iff] at h
      intro e he
      cases he
      exact Expr.bound_of_errors hfits h.2 hsites
  | .classDecl name superclass methods, h, hwf, hsites => by
      simp only [Stmt.findings, Findings.errors_append_eq_nil_iff] at h
      simp only [Stmt.sites, List.forall_mem_append] at hsites
      refine ⟨Name.declarable_of_errors hwf.1 h.1.1, fun above habove => ?_,
        Function.boundAll_of_errors (Context.Fits.ofMethods ctx _ superclass) methods h.2 hwf.2
          hsites.2⟩
      cases habove
      exact Name.boundSuperclass_of_errors h.1.2 (hsites.1 _ (List.mem_cons_self ..))

theorem Stmt.boundAll_of_errors {ctx : Context} {scopes : Scopes} (hfits : ctx.Fits scopes) :
    (ss : List Stmt) → (Stmt.findingsAll ctx scopes ss).errors = [] → Stmt.WellFormedAll ss →
      (∀ site ∈ Stmt.sitesAll scopes ss, site.Recorded t own) → Stmt.BoundAll t own scopes ss
  | [], _, _, _ => trivial
  | s :: ss, h, hwf, hsites => by
      simp only [Stmt.findingsAll, Findings.errors_append_eq_nil_iff] at h
      simp only [Stmt.sitesAll, List.forall_mem_append] at hsites
      exact ⟨Stmt.bound_of_errors hfits s h.1 hwf.1 hsites.1,
        Stmt.boundAll_of_errors (hfits.after hwf.1) ss h.2 hwf.2 hsites.2⟩

theorem Function.bound_of_errors {ctx : Context} {scopes : Scopes} (hfits : ctx.Fits scopes) :
    (f : Function) → (f.findings ctx scopes).errors = [] → f.WellFormed →
      (∀ site ∈ f.sites scopes, site.Recorded t own) → f.Bound t own scopes
  | .mk _ parameters body, h, hwf, hsites => by
      simp only [Function.findings, Findings.errors_append_eq_nil_iff] at h
      exact ⟨Name.declarableAll_of_errors hwf.2.1 h.1,
        Stmt.boundAll_of_errors (hfits.block.defineAll hwf.2.1) body h.2 hwf.2.2 hsites⟩

theorem Function.boundAll_of_errors {ctx : Context} {scopes : Scopes} (hfits : ctx.Fits scopes) :
    (fs : List Function) → (Function.findingsAll ctx scopes fs).errors = [] →
      Function.WellFormedAll fs → (∀ site ∈ Function.sitesAll scopes fs, site.Recorded t own) →
        Function.BoundAll t own scopes fs
  | [], _, _, _ => trivial
  | f :: fs, h, hwf, hsites => by
      simp only [Function.findingsAll, Findings.errors_append_eq_nil_iff] at h
      simp only [Function.sitesAll, List.forall_mem_append] at hsites
      have hinside : (ctx.ofMethod f).Fits scopes := hfits.of_inClass rfl
      exact ⟨Function.bound_of_errors hinside f h.1 hwf.1 hsites.1,
        Function.boundAll_of_errors hfits fs h.2 hwf.2 hsites.2⟩

end

end Walk

/-! ## Accepted programs -/

/-- A session accepts a source if it is read without errors and resolves without errors. -/
theorem Session.of_accept {session : Session} {source : String} {p : Program} {t : BindingTable}
    (h : session.accept source = .ok (p, t)) :
    (Program.ofText source session.offset).parsed = .ok p ∧ p.bind session.bindings = .ok t := by
  rw [accept, Reading.accept] at h
  split at h
  · cases h
  · rename_i hparsed
    split at h
    · split at h
      · rename_i hbind
        cases h
        exact ⟨hparsed, hbind⟩
      · cases h
    · cases h

/-- What can be checked of an accepted program and its table. -/
theorem Reading.exists_of_accept (reading : Reading (List ParseError) Program)
    (bindings : BindingTable) (check : Program × BindingTable → Bool)
    (h : (reading.accept bindings).toOption.any check = true) :
    ∃ p t, reading.accept bindings = .ok (p, t) ∧ check (p, t) = true := by
  cases haccept : reading.accept bindings with
  | error errors =>
      rw [haccept] at h
      cases h
  | ok accepted =>
      rw [haccept] at h
      exact ⟨accepted.1, accepted.2, rfl, h⟩

theorem Session.exists_of_accept (session : Session) (source : String)
    (check : Program × BindingTable → Bool)
    (h : (session.accept source).toOption.any check = true) :
    ∃ p t, session.accept source = .ok (p, t) ∧ check (p, t) = true :=
  Reading.exists_of_accept _ _ check h

/-- A program that resolves is bound by the table, if the table had no entries from its text on. -/
theorem Program.bound_of_bind {source : String} {offset : Nat} {p : Program} {t u : BindingTable}
    (hparsed : (Program.ofText source offset).parsed = .ok p) (hbelow : u.Below offset)
    (hbind : p.bind u = .ok t) : Stmt.BoundAll t p.ownAssignments [] p := by
  have hwf := wellFormed_of_ofText hparsed
  have hdistinct := distinctOffsets_of_ofText hparsed
  have herrors := (bind_eq_ok_iff.1 hbind).1
  refine Stmt.boundAll_of_errors Context.Fits.top p herrors hwf.statements fun site hsite => ?_
  exact ⟨hops?_of_bind hdistinct (fun r hr => hbelow _ (le_start_of_ofText hparsed hr)) hbind hsite,
    hwf.references _ (reference_of_mem_sites hsite), pending_iff hdistinct herrors hsite⟩

/-- An accepted program is bound by its table. -/
theorem Program.bound_of_accept {source : String} {p : Program} {t : BindingTable}
    (h : Session.start.accept source = .ok (p, t)) :
    Stmt.BoundAll t p.ownAssignments [] p := by
  obtain ⟨hparsed, hbind⟩ := Session.of_accept h
  exact bound_of_bind hparsed (BindingTable.below_empty 0) hbind

end Lox
