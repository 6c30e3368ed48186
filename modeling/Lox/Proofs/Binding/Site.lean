import Lox.Binding.Reference
import Lox.Binding.Resolve

set_option autoImplicit false

/-! # References and their scopes

A site is a reference together with the local scopes around it. A walk without errors records one
entry for every site whose name a scope declares (`Stmt.bindingsAll_perm`).
-/

namespace Lox

/-- A reference and the scopes around it. -/
structure Site where
  reference : Reference
  scopes : Scopes

namespace Site

/-- The entry that a site has in a table. -/
def entry? (site : Site) : Option (Nat × Nat) :=
  (site.scopes.hops? site.reference.name.text).map (site.reference.name.start, ·)

end Site

/-- Sites with the same scopes. -/
def Scopes.sites (scopes : Scopes) (references : List Reference) : List Site :=
  references.map (⟨·, scopes⟩)

mutual

/-- The sites of a statement. -/
def Stmt.sites (scopes : Scopes) : Stmt → List Site
  | .expression e => scopes.sites e.references
  | .print e => scopes.sites e.references
  | .var name initial => (scopes.declare name.text).sites (Expr.referencesOf? initial)
  | .block body => Stmt.sitesAll ([] :: scopes) body
  | .branch condition yes none => scopes.sites condition.references ++ yes.sites scopes
  | .branch condition yes (some no) =>
    scopes.sites condition.references ++ yes.sites scopes ++ no.sites scopes
  | .loop condition body => scopes.sites condition.references ++ body.sites scopes
  | .function f => f.sites (scopes.define f.name.text)
  | .ret _ value => scopes.sites (Expr.referencesOf? value)
  | .classDecl name superclass methods =>
    (scopes.define name.text).sites (superclass.map (⟨.variable, ·⟩)).toList ++
      Function.sitesAll ((scopes.define name.text).ofMethods superclass.isSome) methods

/-- The sites of statements. -/
def Stmt.sitesAll (scopes : Scopes) : List Stmt → List Site
  | [] => []
  | s :: ss => s.sites scopes ++ Stmt.sitesAll (s.scopesAfter scopes) ss

/-- The sites of a function. -/
def Function.sites (scopes : Scopes) : Function → List Site
  | .mk _ parameters body => Stmt.sitesAll (Scopes.defineAll ([] :: scopes) parameters) body

/-- The sites of functions. -/
def Function.sitesAll (scopes : Scopes) : List Function → List Site
  | [] => []
  | f :: fs => f.sites scopes ++ Function.sitesAll scopes fs

end

/-- The sites of a program. -/
def Program.sites (p : Program) : List Site := Stmt.sitesAll [] p

/-! ## Sites are references -/

@[simp] theorem Scopes.references_sites (scopes : Scopes) (rs : List Reference) :
    (scopes.sites rs).map Site.reference = rs := by
  rw [Scopes.sites, List.map_map]
  exact List.map_id rs

mutual

theorem Stmt.references_sites (scopes : Scopes) :
    (s : Stmt) → (s.sites scopes).map Site.reference = s.references
  | .expression e | .print e => by simp [Stmt.sites, Stmt.references]
  | .var name initial => by simp [Stmt.sites, Stmt.references]
  | .block body => by
      rw [Stmt.sites, Stmt.references]
      exact Stmt.references_sitesAll _ body
  | .branch condition yes none => by
      simp [Stmt.sites, Stmt.references, Stmt.references_sites scopes yes]
  | .branch condition yes (some no) => by
      simp [Stmt.sites, Stmt.references, Stmt.references_sites scopes yes,
        Stmt.references_sites scopes no]
  | .loop condition body => by
      simp [Stmt.sites, Stmt.references, Stmt.references_sites scopes body]
  | .function f => by
      rw [Stmt.sites, Stmt.references]
      exact Function.references_sites _ f
  | .ret keyword value => by simp [Stmt.sites, Stmt.references]
  | .classDecl name superclass methods => by
      simp [Stmt.sites, Stmt.references, Function.references_sitesAll _ methods]

theorem Stmt.references_sitesAll (scopes : Scopes) :
    (ss : List Stmt) → (Stmt.sitesAll scopes ss).map Site.reference = Stmt.referencesAll ss
  | [] => rfl
  | s :: ss => by
      simp [Stmt.sitesAll, Stmt.referencesAll, Stmt.references_sites scopes s,
        Stmt.references_sitesAll _ ss]

theorem Function.references_sites (scopes : Scopes) :
    (f : Function) → (f.sites scopes).map Site.reference = f.references
  | .mk _ parameters body => by
      rw [Function.sites, Function.references]
      exact Stmt.references_sitesAll _ body

theorem Function.references_sitesAll (scopes : Scopes) :
    (fs : List Function) →
      (Function.sitesAll scopes fs).map Site.reference = Function.referencesAll fs
  | [] => rfl
  | f :: fs => by
      simp [Function.sitesAll, Function.referencesAll, Function.references_sites scopes f,
        Function.references_sitesAll scopes fs]

end

theorem Program.references_sites (p : Program) :
    p.sites.map Site.reference = p.references :=
  Stmt.references_sitesAll [] p

/-! ## Entries -/

/-- The entries of sites. -/
def Site.entries (sites : List Site) : List (Nat × Nat) := sites.filterMap Site.entry?

namespace Site

@[simp] theorem entries_nil : entries [] = [] := rfl

@[simp] theorem entries_append (ss us : List Site) :
    entries (ss ++ us) = entries ss ++ entries us := List.filterMap_append

@[simp] theorem sites_nil (scopes : Scopes) : scopes.sites [] = [] := rfl

@[simp] theorem sites_append (scopes : Scopes) (rs qs : List Reference) :
    scopes.sites (rs ++ qs) = scopes.sites rs ++ scopes.sites qs := List.map_append

theorem sites_cons (scopes : Scopes) (r : Reference) (rs : List Reference) :
    scopes.sites (r :: rs) = scopes.sites [r] ++ scopes.sites rs := rfl

theorem entries_single (scopes : Scopes) (role : Reference.Role) (name : Name) :
    entries (scopes.sites [⟨role, name⟩]) = (Findings.reference scopes name).bindings := by
  rw [Findings.reference]
  cases hhops : scopes.hops? name.text <;> simp [entries, Scopes.sites, entry?, hhops]

end Site

namespace Findings

@[simp] theorem bindings_errorIf (condition : Bool) (cause : ResolveError.Cause) (name : Name) :
    (errorIf condition cause name).bindings = [] := by
  cases condition <;> rfl

@[simp] theorem bindings_read (scopes : Scopes) (name : Name) :
    (read scopes name).bindings = (reference scopes name).bindings := by
  simp [read]

@[simp] theorem bindings_declaration (scopes : Scopes) (name : Name) :
    (declaration scopes name).bindings = [] := by
  simp [declaration]

@[simp] theorem bindings_declarations (scopes : Scopes) (names : List Name) :
    (declarations scopes names).bindings = [] := by
  induction names generalizing scopes with
  | nil => rfl
  | cons name names ih => simp [declarations, ih]

theorem bindings_superclass (scopes : Scopes) (className : Name) (name : Option Name) :
    (superclass scopes className name).bindings =
      Site.entries (scopes.sites (name.map (⟨.variable, ·⟩)).toList) := by
  cases name with
  | none => rfl
  | some name =>
      simp only [superclass, bindings_append, bindings_errorIf, bindings_read, List.nil_append]
      exact (Site.entries_single scopes .variable name).symm

end Findings

section Entries

open Site

variable {ctx : Context} {scopes : Scopes}

mutual

/-- The entries that an expression without errors gets. -/
theorem Expr.bindings_perm : (e : Expr) → (e.findings ctx scopes).errors = [] →
    (e.findings ctx scopes).bindings.Perm (entries (scopes.sites e.references))
  | .literal _, _ => .nil
  | .grouping inner, h => Expr.bindings_perm inner h
  | .unary _ _ operand, h => Expr.bindings_perm operand h
  | .binary _ _ left right, h | .logical _ left right, h => by
      simp only [Expr.findings, Findings.errors_append_eq_nil_iff] at h
      simp only [Expr.findings, Expr.references, Findings.bindings_append, sites_append,
        entries_append]
      exact (Expr.bindings_perm left h.1).append (Expr.bindings_perm right h.2)
  | .variable name, _ => by
      rw [Expr.findings, Expr.references, Findings.bindings_read, entries_single]
  | .assign name value, h => by
      -- The entry of the name comes after those of the value.
      simp only [Expr.findings, Findings.errors_append_eq_nil_iff] at h
      simp only [Expr.findings, Expr.references, Findings.bindings_append]
      rw [sites_cons, entries_append, entries_single]
      exact ((Expr.bindings_perm value h.1).append_right _).trans List.perm_append_comm
  | .call callee arguments _, h => by
      simp only [Expr.findings, Findings.errors_append_eq_nil_iff] at h
      simp only [Expr.findings, Expr.references, Findings.bindings_append, sites_append,
        entries_append]
      exact (Expr.bindings_perm callee h.1).append (Expr.bindingsAll_perm arguments h.2)
  | .get object _, h => Expr.bindings_perm object h
  | .set object _ value, h => by
      simp only [Expr.findings, Findings.errors_append_eq_nil_iff] at h
      simp only [Expr.findings, Expr.references, Findings.bindings_append, sites_append,
        entries_append]
      exact ((Expr.bindings_perm value h.1).append (Expr.bindings_perm object h.2)).trans
        List.perm_append_comm
  | .this keyword, h => by
      -- Outside of a class `this` is an error and gets no entry.
      rw [Expr.findings] at h ⊢
      split at h
      · cases h
      · rename_i hclass
        rw [if_neg hclass, Expr.references, entries_single]
  | .super keyword _, _ => by
      simp only [Expr.findings, Findings.bindings_append, Findings.bindings_errorIf,
        List.nil_append, Expr.references]
      rw [entries_single]

theorem Expr.bindingsAll_perm : (es : List Expr) →
    (Expr.findingsAll ctx scopes es).errors = [] →
    (Expr.findingsAll ctx scopes es).bindings.Perm
      (entries (scopes.sites (Expr.referencesAll es)))
  | [], _ => .nil
  | e :: es, h => by
      simp only [Expr.findingsAll, Findings.errors_append_eq_nil_iff] at h
      simp only [Expr.findingsAll, Expr.referencesAll, Findings.bindings_append, sites_append,
        entries_append]
      exact (Expr.bindings_perm e h.1).append (Expr.bindingsAll_perm es h.2)

end

theorem Expr.bindingsOf?_perm (e : Option Expr)
    (h : (Expr.findingsOf? ctx scopes e).errors = []) :
    (Expr.findingsOf? ctx scopes e).bindings.Perm
      (entries (scopes.sites (Expr.referencesOf? e))) := by
  cases e with
  | none => exact .nil
  | some e => exact e.bindings_perm h

mutual

/-- The entries that a statement without errors gets. -/
theorem Stmt.bindings_perm {ctx : Context} {scopes : Scopes} : (s : Stmt) →
    (s.findings ctx scopes).errors = [] →
    (s.findings ctx scopes).bindings.Perm (entries (s.sites scopes))
  | .expression e, h | .print e, h => e.bindings_perm h
  | .var name initial, h => by
      simp only [Stmt.findings, Findings.errors_append_eq_nil_iff] at h
      simp only [Stmt.findings, Stmt.sites, Findings.bindings_append,
        Findings.bindings_declaration, List.nil_append]
      exact Expr.bindingsOf?_perm initial h.2
  | .block body, h => Stmt.bindingsAll_perm body h
  | .branch condition yes none, h => by
      simp only [Stmt.findings, Findings.errors_append_eq_nil_iff] at h
      simp only [Stmt.findings, Stmt.sites, Findings.bindings_append, entries_append]
      exact (condition.bindings_perm h.1).append (Stmt.bindings_perm yes h.2)
  | .branch condition yes (some no), h => by
      simp only [Stmt.findings, Findings.errors_append_eq_nil_iff] at h
      simp only [Stmt.findings, Stmt.sites, Findings.bindings_append, entries_append]
      exact ((condition.bindings_perm h.1.1).append (Stmt.bindings_perm yes h.1.2)).append
        (Stmt.bindings_perm no h.2)
  | .loop condition body, h => by
      simp only [Stmt.findings, Findings.errors_append_eq_nil_iff] at h
      simp only [Stmt.findings, Stmt.sites, Findings.bindings_append, entries_append]
      exact (condition.bindings_perm h.1).append (Stmt.bindings_perm body h.2)
  | .function f, h => by
      simp only [Stmt.findings, Findings.errors_append_eq_nil_iff] at h
      simp only [Stmt.findings, Stmt.sites, Findings.bindings_append,
        Findings.bindings_declaration, List.nil_append]
      exact Function.bindings_perm f h.2
  | .ret keyword value, h => by
      simp only [Stmt.findings, Findings.errors_append_eq_nil_iff] at h
      simp only [Stmt.findings, Stmt.sites, Findings.bindings_append, Findings.bindings_errorIf,
        List.nil_append]
      exact Expr.bindingsOf?_perm value h.2
  | .classDecl name superclass methods, h => by
      simp only [Stmt.findings, Findings.errors_append_eq_nil_iff] at h
      simp only [Stmt.findings, Stmt.sites, Findings.bindings_append,
        Findings.bindings_declaration, Findings.bindings_superclass, List.nil_append,
        entries_append]
      exact (Function.bindingsAll_perm methods h.2).append_left _

theorem Stmt.bindingsAll_perm {ctx : Context} {scopes : Scopes} : (ss : List Stmt) →
    (Stmt.findingsAll ctx scopes ss).errors = [] →
    (Stmt.findingsAll ctx scopes ss).bindings.Perm (entries (Stmt.sitesAll scopes ss))
  | [], _ => .nil
  | s :: ss, h => by
      simp only [Stmt.findingsAll, Findings.errors_append_eq_nil_iff] at h
      simp only [Stmt.findingsAll, Stmt.sitesAll, Findings.bindings_append, entries_append]
      exact (Stmt.bindings_perm s h.1).append (Stmt.bindingsAll_perm ss h.2)

theorem Function.bindings_perm {ctx : Context} {scopes : Scopes} : (f : Function) →
    (f.findings ctx scopes).errors = [] →
    (f.findings ctx scopes).bindings.Perm (entries (f.sites scopes))
  | .mk _ parameters body, h => by
      simp only [Function.findings, Findings.errors_append_eq_nil_iff] at h
      simp only [Function.findings, Function.sites, Findings.bindings_append,
        Findings.bindings_declarations, List.nil_append]
      exact Stmt.bindingsAll_perm body h.2

theorem Function.bindingsAll_perm {ctx : Context} {scopes : Scopes} : (fs : List Function) →
    (Function.findingsAll ctx scopes fs).errors = [] →
    (Function.findingsAll ctx scopes fs).bindings.Perm (entries (Function.sitesAll scopes fs))
  | [], _ => .nil
  | f :: fs, h => by
      simp only [Function.findingsAll, Findings.errors_append_eq_nil_iff] at h
      simp only [Function.findingsAll, Function.sitesAll, Findings.bindings_append,
        entries_append]
      exact (Function.bindings_perm f h.1).append (Function.bindingsAll_perm fs h.2)

end

end Entries

end Lox
