import Lox.Proofs.Binding.Scopes
import Lox.Proofs.Binding.Table

set_option autoImplicit false

/-! # Assignments to a variable in its own initializer

Reading a local variable in its own initializer is an error, but nothing forbids to assign to it
there. In a program without errors those assignments are the references to pending names
(`Program.pending_iff`).
-/

namespace Lox

/-- Assignments to a name in the initializer of a variable of that name. -/
def Expr.assignmentsTo (name : Name) (initial : Option Expr) : List Name :=
  ((Expr.referencesOf? initial).filter
    fun r => r.role = .assign && r.name.text == name.text).map (·.name)

mutual

/-- Assignments to local variables in their own initializers. -/
def Stmt.ownAssignments (isLocal : Bool) : Stmt → List Name
  | .var name initial => if isLocal then Expr.assignmentsTo name initial else []
  | .block body => Stmt.ownAssignmentsAll true body
  | .branch _ yes none => yes.ownAssignments isLocal
  | .branch _ yes (some no) => yes.ownAssignments isLocal ++ no.ownAssignments isLocal
  | .loop _ body => body.ownAssignments isLocal
  | .function f => f.ownAssignments
  | .classDecl _ _ methods => Function.ownAssignmentsAll methods
  | .expression _ | .print _ | .ret _ _ => []

@[inherit_doc Stmt.ownAssignments]
def Stmt.ownAssignmentsAll (isLocal : Bool) : List Stmt → List Name
  | [] => []
  | s :: ss => s.ownAssignments isLocal ++ Stmt.ownAssignmentsAll isLocal ss

@[inherit_doc Stmt.ownAssignments]
def Function.ownAssignments : Function → List Name
  | .mk _ _ body => Stmt.ownAssignmentsAll true body

@[inherit_doc Stmt.ownAssignments]
def Function.ownAssignmentsAll : List Function → List Name
  | [] => []
  | f :: fs => f.ownAssignments ++ Function.ownAssignmentsAll fs

end

/-- Assignments to local variables in their own initializers. -/
def Program.ownAssignments (p : Program) : List Name := Stmt.ownAssignmentsAll false p

/-- An assignment to a name that is pending. -/
def Site.assignsPending (site : Site) : Bool :=
  site.reference.role = .assign && site.scopes.isPending site.reference.name.text

/-- The names of sites that assign to pending names. -/
def Site.pending (sites : List Site) : List Name :=
  (sites.filter assignsPending).map (·.reference.name)

namespace Site

@[simp] theorem pending_nil : pending [] = [] := rfl

@[simp] theorem pending_append (ss us : List Site) :
    pending (ss ++ us) = pending ss ++ pending us := by
  simp [pending]

theorem pending_of_settled {scopes : Scopes} (h : scopes.Settled) (rs : List Reference) :
    pending (scopes.sites rs) = [] := by
  rw [pending, List.map_eq_nil_iff, List.filter_eq_nil_iff]
  intro site hsite
  obtain ⟨r, -, rfl⟩ := List.mem_map.1 hsite
  simp [assignsPending, h r.name.text]

/-- While a new local variable is initialized, the assignments to it are to a pending name. -/
theorem pending_initializer {scopes : Scopes} {name : Name} (h : scopes.Settled)
    (hnew : scopes.redeclares name.text = false) (initial : Option Expr) :
    pending ((scopes.declare name.text).sites (Expr.referencesOf? initial)) =
      if !scopes.isEmpty then Expr.assignmentsTo name initial else [] := by
  rw [Expr.assignmentsTo]
  induction Expr.referencesOf? initial with
  | nil => simp
  | cons r rs ih =>
      rw [sites_cons, pending_append, ih]
      cases hlocal : scopes.isEmpty with
      | true =>
          -- Global variables have no scope to be pending in.
          simp [pending, Scopes.sites, assignsPending, Scopes.isPending_declare h hnew, hlocal]
      | false =>
          cases hassign : (decide (r.role = .assign) && r.name.text == name.text) <;>
            simp [pending, Scopes.sites, assignsPending, Scopes.isPending_declare h hnew, hlocal,
              hassign]

end Site

section Walk

open Site

mutual

/-- In a statement without errors, assignments to pending names are assignments to variables in
their own initializers. -/
theorem Stmt.pending_eq {ctx : Context} {scopes : Scopes} (hsettled : scopes.Settled) :
    (s : Stmt) → (s.findings ctx scopes).errors = [] →
      pending (s.sites scopes) = s.ownAssignments (!scopes.isEmpty)
  | .expression e, _ | .print e, _ => pending_of_settled hsettled e.references
  | .var name initial, h => by
      simp only [Stmt.findings, Findings.errors_append_eq_nil_iff] at h
      have hnew : scopes.redeclares name.text = false := by
        have hdeclaration := h.1
        cases hredeclares : scopes.redeclares name.text with
        | false => rfl
        | true => simp [Findings.declaration, Findings.errorIf, Findings.error, hredeclares]
            at hdeclaration
      exact pending_initializer hsettled hnew initial
  | .block body, h => Stmt.pendingAll_eq (Scopes.settled_block scopes) body h
  | .branch condition yes none, h => by
      simp only [Stmt.findings, Findings.errors_append_eq_nil_iff] at h
      simp only [Stmt.sites, Stmt.ownAssignments, pending_append, pending_of_settled hsettled,
        List.nil_append]
      exact Stmt.pending_eq hsettled yes h.2
  | .branch condition yes (some no), h => by
      simp only [Stmt.findings, Findings.errors_append_eq_nil_iff] at h
      simp only [Stmt.sites, Stmt.ownAssignments, pending_append, pending_of_settled hsettled,
        List.nil_append]
      rw [Stmt.pending_eq hsettled yes h.1.2, Stmt.pending_eq hsettled no h.2]
  | .loop condition body, h => by
      simp only [Stmt.findings, Findings.errors_append_eq_nil_iff] at h
      simp only [Stmt.sites, Stmt.ownAssignments, pending_append, pending_of_settled hsettled,
        List.nil_append]
      exact Stmt.pending_eq hsettled body h.2
  | .function f, h => by
      simp only [Stmt.findings, Findings.errors_append_eq_nil_iff] at h
      exact Function.pending_eq f h.2
  | .ret keyword value, _ => pending_of_settled hsettled _
  | .classDecl name superclass methods, h => by
      simp only [Stmt.findings, Findings.errors_append_eq_nil_iff] at h
      simp only [Stmt.sites, Stmt.ownAssignments, pending_append,
        pending_of_settled (hsettled.define name.text), List.nil_append]
      exact Function.pendingAll_eq methods h.2

theorem Stmt.pendingAll_eq {ctx : Context} {scopes : Scopes} (hsettled : scopes.Settled) :
    (ss : List Stmt) → (Stmt.findingsAll ctx scopes ss).errors = [] →
      pending (Stmt.sitesAll scopes ss) = Stmt.ownAssignmentsAll (!scopes.isEmpty) ss
  | [], _ => rfl
  | s :: ss, h => by
      simp only [Stmt.findingsAll, Findings.errors_append_eq_nil_iff] at h
      -- Declarations neither enter a scope nor leave one.
      have hafter : (s.scopesAfter scopes).isEmpty = scopes.isEmpty := by
        cases s <;> simp [Stmt.scopesAfter]
      have hrest := Stmt.pendingAll_eq (hsettled.after s) ss h.2
      rw [hafter] at hrest
      rw [Stmt.sitesAll, Stmt.ownAssignmentsAll, pending_append,
        Stmt.pending_eq hsettled s h.1, hrest]

theorem Function.pending_eq {ctx : Context} {scopes : Scopes} :
    (f : Function) → (f.findings ctx scopes).errors = [] →
      pending (f.sites scopes) = f.ownAssignments
  | .mk _ parameters body, h => by
      simp only [Function.findings, Findings.errors_append_eq_nil_iff] at h
      have hlocal : (Scopes.defineAll ([] :: scopes) parameters).isEmpty = false := by
        rw [Scopes.isEmpty_defineAll]
        rfl
      have hbody := Stmt.pendingAll_eq ((Scopes.settled_block scopes).defineAll parameters) body
        h.2
      rw [hlocal] at hbody
      exact hbody

theorem Function.pendingAll_eq {ctx : Context} {scopes : Scopes} :
    (fs : List Function) → (Function.findingsAll ctx scopes fs).errors = [] →
      pending (Function.sitesAll scopes fs) = Function.ownAssignmentsAll fs
  | [], _ => rfl
  | f :: fs, h => by
      simp only [Function.findingsAll, Findings.errors_append_eq_nil_iff] at h
      rw [Function.sitesAll, Function.ownAssignmentsAll, pending_append,
        Function.pending_eq f h.1, Function.pendingAll_eq fs h.2]

end

end Walk

namespace Program

variable {p : Program}

theorem pending_sites (herrors : p.findings.errors = []) :
    Site.pending p.sites = p.ownAssignments :=
  Stmt.pendingAll_eq Scopes.settled_top p herrors

/-- The assignments to variables in their own initializers are references. -/
theorem exists_reference_of_own (herrors : p.findings.errors = []) {n : Name}
    (hn : n ∈ p.ownAssignments) : ∃ r ∈ p.references, r.name = n := by
  rw [← pending_sites herrors, Site.pending] at hn
  obtain ⟨site, hsite, hname⟩ := List.mem_map.1 hn
  exact ⟨_, reference_of_mem_sites (List.mem_filter.1 hsite).1, hname⟩

/-- In a program that resolves, an assignment is to a pending name exactly if it is to a variable
in its own initializer. -/
theorem pending_iff (hdistinct : p.DistinctOffsets) (herrors : p.findings.errors = [])
    {site : Site} (hsite : site ∈ p.sites) (hassign : site.reference.role = .assign) :
    site.scopes.isPending site.reference.name.text = true ↔
      site.reference.name ∈ p.ownAssignments := by
  rw [← pending_sites herrors, Site.pending, List.mem_map]
  constructor
  · intro hpending
    exact ⟨site, List.mem_filter.2 ⟨hsite, by simp [Site.assignsPending, hassign, hpending]⟩, rfl⟩
  · rintro ⟨site', hsite', hname⟩
    obtain ⟨hmem, hpending⟩ := List.mem_filter.1 hsite'
    -- The list has names alone, but a name with its offset stands at one site.
    have hsame := site_eq_of_start hdistinct hmem hsite (by rw [hname])
    simp only [Site.assignsPending, Bool.and_eq_true] at hpending
    rw [← hsame]
    exact hpending.2

end Program

end Lox
