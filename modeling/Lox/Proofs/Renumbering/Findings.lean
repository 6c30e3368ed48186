import Lox.Binding.Reference
import Lox.Binding.Resolve
import Lox.Proofs.Renumbering.Tree

set_option autoImplicit false

/-! # Resolving renumbered programs

Scopes know names by their texts alone. So what a walk finds in a renumbered program is what it
finds in the program, with the places of errors and the keys of references renumbered.
-/

namespace Lox

variable (r : Renumbering)

/-- The scoping error at the renumbered name. -/
def ResolveError.renumber (e : ResolveError) : ResolveError := ⟨e.cause, e.name.renumber r⟩

namespace Findings

/-- The findings at the renumbered places. -/
def renumber (f : Findings) : Findings :=
  ⟨f.errors.map (ResolveError.renumber r), f.bindings.map fun entry => (r.start entry.1, entry.2)⟩

theorem renumber_append (f g : Findings) :
    (f ++ g).renumber r = f.renumber r ++ g.renumber r := by
  rw [renumber, errors_append, bindings_append, List.map_append, List.map_append]
  rfl

theorem append_assoc (f g h : Findings) : f ++ g ++ h = f ++ (g ++ h) := by
  show Findings.mk (_ ++ _ ++ _) (_ ++ _ ++ _) = Findings.mk (_ ++ (_ ++ _)) (_ ++ (_ ++ _))
  rw [List.append_assoc, List.append_assoc]

theorem renumber_errorIf (condition : Bool) (cause : ResolveError.Cause) (name : Name) :
    errorIf condition cause (name.renumber r) = (errorIf condition cause name).renumber r := by
  cases condition <;> rfl

theorem renumber_reference (scopes : Scopes) (name : Name) :
    reference scopes (name.renumber r) = (reference scopes name).renumber r := by
  rw [reference, reference, Name.renumber_text]
  cases scopes.hops? name.text <;> rfl

theorem renumber_read (scopes : Scopes) (name : Name) :
    read scopes (name.renumber r) = (read scopes name).renumber r := by
  rw [read, read, renumber_append, ← renumber_errorIf, ← renumber_reference, Name.renumber_text]

theorem renumber_declaration (scopes : Scopes) (name : Name) :
    declaration scopes (name.renumber r) = (declaration scopes name).renumber r := by
  rw [declaration, declaration, ← renumber_errorIf, Name.renumber_text]

theorem renumber_declarations (scopes : Scopes) (names : List Name) :
    declarations scopes (names.map (Name.renumber r)) =
      (declarations scopes names).renumber r := by
  induction names generalizing scopes with
  | nil => rfl
  | cons name names ih =>
      rw [List.map_cons, declarations, declarations, renumber_append, ← renumber_declaration,
        Name.renumber_text, ih]

theorem renumber_superclass (scopes : Scopes) (className : Name) (name : Option Name) :
    superclass scopes (className.renumber r) (name.map (Name.renumber r)) =
      (superclass scopes className name).renumber r := by
  cases name with
  | none => rfl
  | some name =>
      rw [Option.map_some, superclass, superclass, renumber_append, ← renumber_errorIf,
        ← renumber_read, Name.renumber_text, Name.renumber_text]

end Findings

theorem Scopes.defineAll_renumber (scopes : Scopes) (names : List Name) :
    scopes.defineAll (names.map (Name.renumber r)) = scopes.defineAll names := by
  induction names generalizing scopes with
  | nil => rfl
  | cons name names ih => exact ih _

theorem Stmt.scopesAfter_renumber (scopes : Scopes) (s : Stmt) :
    (s.renumber r).scopesAfter scopes = s.scopesAfter scopes := by
  cases s with
  | branch condition yes no =>
      rw [Stmt.renumber_branch]
      rfl
  | function f =>
      rw [Stmt.renumber, scopesAfter, scopesAfter, Function.renumber_name, Name.renumber_text]
  | _ => rfl

theorem Context.ofMethod_renumber (ctx : Context) (f : Function) :
    ctx.ofMethod (f.renumber r) = ctx.ofMethod f := by
  rw [ofMethod, ofMethod, Function.renumber_isNamedInit]

/-! ## Trees -/

mutual

theorem Expr.findings_renumber (ctx : Context) (scopes : Scopes) :
    ∀ e : Expr, (e.renumber r).findings ctx scopes = (e.findings ctx scopes).renumber r
  | .literal _ => rfl
  | .grouping inner => Expr.findings_renumber ctx scopes inner
  | .unary _ _ operand => Expr.findings_renumber ctx scopes operand
  | .binary _ _ left right | .logical _ left right | .set left _ right => by
      rw [Expr.renumber, Expr.findings, Expr.findings, Findings.renumber_append,
        Expr.findings_renumber ctx scopes left, Expr.findings_renumber ctx scopes right]
  | .variable name => Findings.renumber_read r scopes name
  | .assign name value => by
      rw [Expr.renumber, Expr.findings, Expr.findings, Findings.renumber_append,
        Expr.findings_renumber ctx scopes value, Findings.renumber_reference]
  | .call callee arguments _ => by
      rw [Expr.renumber, Expr.findings, Expr.findings, Findings.renumber_append,
        Expr.findings_renumber ctx scopes callee, Expr.findingsAll_renumber ctx scopes arguments]
  | .get object _ => Expr.findings_renumber ctx scopes object
  | .this keyword => by
      rw [Expr.renumber, Expr.findings, Expr.findings]
      split
      · rfl
      · exact Findings.renumber_reference r scopes keyword
  | .super keyword _ => by
      rw [Expr.renumber, Expr.findings, Expr.findings]
      simp only [Findings.renumber_append, Findings.renumber_errorIf,
        Findings.renumber_reference]

theorem Expr.findingsAll_renumber (ctx : Context) (scopes : Scopes) :
    ∀ es : List Expr, Expr.findingsAll ctx scopes (Expr.renumberAll r es) =
      (Expr.findingsAll ctx scopes es).renumber r
  | [] => rfl
  | e :: es => by
      rw [Expr.renumberAll, Expr.findingsAll, Expr.findingsAll, Findings.renumber_append,
        Expr.findings_renumber ctx scopes e, Expr.findingsAll_renumber ctx scopes es]

end

theorem Expr.findingsOf?_renumber (ctx : Context) (scopes : Scopes) (e : Option Expr) :
    Expr.findingsOf? ctx scopes (e.map (Expr.renumber r)) =
      (Expr.findingsOf? ctx scopes e).renumber r := by
  cases e with
  | none => rfl
  | some e => exact Expr.findings_renumber r ctx scopes e

mutual

theorem Stmt.findings_renumber (ctx : Context) (scopes : Scopes) :
    ∀ s : Stmt, (s.renumber r).findings ctx scopes = (s.findings ctx scopes).renumber r
  | .expression e | .print e => Expr.findings_renumber r ctx scopes e
  | .var name initial => by
      rw [Stmt.renumber, Stmt.findings, Stmt.findings, Findings.renumber_append,
        Findings.renumber_declaration, Expr.findingsOf?_renumber, Name.renumber_text]
  | .block body => Stmt.findingsAll_renumber ctx ([] :: scopes) body
  | .branch condition yes none => by
      rw [Stmt.renumber, Stmt.findings, Stmt.findings, Findings.renumber_append,
        Expr.findings_renumber, Stmt.findings_renumber ctx scopes yes]
  | .branch condition yes (some no) => by
      rw [Stmt.renumber, Stmt.findings, Stmt.findings, Findings.renumber_append,
        Findings.renumber_append, Expr.findings_renumber, Stmt.findings_renumber ctx scopes yes,
        Stmt.findings_renumber ctx scopes no]
  | .loop condition body => by
      rw [Stmt.renumber, Stmt.findings, Stmt.findings, Findings.renumber_append,
        Expr.findings_renumber, Stmt.findings_renumber ctx scopes body]
  | .function f => by
      rw [Stmt.renumber, Stmt.findings, Stmt.findings, Findings.renumber_append,
        Function.renumber_name, Findings.renumber_declaration, Name.renumber_text,
        Function.findings_renumber _ _ f]
  | .ret keyword value => by
      rw [Stmt.renumber, Stmt.findings, Stmt.findings]
      simp only [Findings.renumber_append, Findings.renumber_errorIf, Option.isSome_map,
        Expr.findingsOf?_renumber]
  | .classDecl name superclass methods => by
      rw [Stmt.renumber, Stmt.findings, Stmt.findings]
      simp only [Findings.renumber_append, Findings.renumber_declaration, Name.renumber_text,
        Option.isSome_map, Findings.renumber_superclass]
      rw [Function.findingsAll_renumber _ _ methods]

theorem Stmt.findingsAll_renumber (ctx : Context) (scopes : Scopes) :
    ∀ ss : List Stmt, Stmt.findingsAll ctx scopes (Stmt.renumberAll r ss) =
      (Stmt.findingsAll ctx scopes ss).renumber r
  | [] => rfl
  | s :: ss => by
      rw [Stmt.renumberAll, Stmt.findingsAll, Stmt.findingsAll, Findings.renumber_append,
        Stmt.findings_renumber ctx scopes s, Stmt.scopesAfter_renumber,
        Stmt.findingsAll_renumber ctx _ ss]

theorem Function.findings_renumber (ctx : Context) (scopes : Scopes) :
    ∀ f : Function, (f.renumber r).findings ctx scopes = (f.findings ctx scopes).renumber r
  | .mk name parameters body => by
      rw [Function.renumber, Function.findings, Function.findings, Findings.renumber_append,
        Findings.renumber_declarations, Scopes.defineAll_renumber,
        Stmt.findingsAll_renumber ctx _ body]

theorem Function.findingsAll_renumber (ctx : Context) (scopes : Scopes) :
    ∀ fs : List Function, Function.findingsAll ctx scopes (Function.renumberAll r fs) =
      (Function.findingsAll ctx scopes fs).renumber r
  | [] => rfl
  | f :: fs => by
      rw [Function.renumberAll, Function.findingsAll, Function.findingsAll,
        Findings.renumber_append, Context.ofMethod_renumber, Function.findings_renumber _ _ f,
        Function.findingsAll_renumber ctx scopes fs]

end

/-! ## References -/

/-- The reference at the renumbered place. -/
def Reference.renumber (q : Reference) : Reference := { q with name := q.name.renumber r }

mutual

theorem Expr.references_renumber :
    (e : Expr) → (e.renumber r).references = e.references.map (Reference.renumber r)
  | .literal _ | .variable _ | .this _ | .super _ _ => rfl
  | .grouping inner => Expr.references_renumber inner
  | .unary _ _ operand => Expr.references_renumber operand
  | .binary _ _ left right | .logical _ left right | .set left _ right => by
      rw [Expr.renumber, Expr.references, Expr.references, List.map_append,
        Expr.references_renumber left, Expr.references_renumber right]
  | .assign name value => by
      rw [Expr.renumber, Expr.references, Expr.references, List.map_cons,
        Expr.references_renumber value]
      rfl
  | .call callee arguments _ => by
      rw [Expr.renumber, Expr.references, Expr.references, List.map_append,
        Expr.references_renumber callee, Expr.referencesAll_renumber arguments]
  | .get object _ => Expr.references_renumber object

theorem Expr.referencesAll_renumber :
    (es : List Expr) → Expr.referencesAll (Expr.renumberAll r es) =
      (Expr.referencesAll es).map (Reference.renumber r)
  | [] => rfl
  | e :: es => by
      rw [Expr.renumberAll, Expr.referencesAll, Expr.referencesAll, List.map_append,
        Expr.references_renumber e, Expr.referencesAll_renumber es]

end

theorem Expr.referencesOf?_renumber (e : Option Expr) :
    Expr.referencesOf? (e.map (Expr.renumber r)) =
      (Expr.referencesOf? e).map (Reference.renumber r) := by
  cases e with
  | none => rfl
  | some e => exact Expr.references_renumber r e

mutual

theorem Stmt.references_renumber :
    (s : Stmt) → (s.renumber r).references = s.references.map (Reference.renumber r)
  | .expression e | .print e => Expr.references_renumber r e
  | .var _ initial => Expr.referencesOf?_renumber r initial
  | .block body => Stmt.referencesAll_renumber body
  | .branch condition yes none => by
      rw [Stmt.renumber, Stmt.references, Stmt.references, List.map_append,
        Expr.references_renumber, Stmt.references_renumber yes]
  | .branch condition yes (some no) => by
      rw [Stmt.renumber, Stmt.references, Stmt.references, List.map_append, List.map_append,
        Expr.references_renumber, Stmt.references_renumber yes, Stmt.references_renumber no]
  | .loop condition body => by
      rw [Stmt.renumber, Stmt.references, Stmt.references, List.map_append,
        Expr.references_renumber, Stmt.references_renumber body]
  | .function f => Function.references_renumber f
  | .ret _ value => Expr.referencesOf?_renumber r value
  | .classDecl _ superclass methods => by
      rw [Stmt.renumber, Stmt.references, Stmt.references, List.map_append,
        Function.referencesAll_renumber methods]
      cases superclass <;> rfl

theorem Stmt.referencesAll_renumber :
    (ss : List Stmt) → Stmt.referencesAll (Stmt.renumberAll r ss) =
      (Stmt.referencesAll ss).map (Reference.renumber r)
  | [] => rfl
  | s :: ss => by
      rw [Stmt.renumberAll, Stmt.referencesAll, Stmt.referencesAll, List.map_append,
        Stmt.references_renumber s, Stmt.referencesAll_renumber ss]

theorem Function.references_renumber :
    (f : Function) → (f.renumber r).references = f.references.map (Reference.renumber r)
  | .mk _ _ body => Stmt.referencesAll_renumber body

theorem Function.referencesAll_renumber :
    (fs : List Function) → Function.referencesAll (Function.renumberAll r fs) =
      (Function.referencesAll fs).map (Reference.renumber r)
  | [] => rfl
  | f :: fs => by
      rw [Function.renumberAll, Function.referencesAll, Function.referencesAll, List.map_append,
        Function.references_renumber f, Function.referencesAll_renumber fs]

end

namespace Program

theorem references_renumber (p : Program) :
    references (p.map (Stmt.renumber r)) = p.references.map (Reference.renumber r) := by
  rw [← Stmt.renumberAll_eq_map]
  exact Stmt.referencesAll_renumber r p

theorem findings_renumber (p : Program) :
    findings (p.map (Stmt.renumber r)) = p.findings.renumber r := by
  rw [← Stmt.renumberAll_eq_map]
  exact Stmt.findingsAll_renumber r .top [] p

/-- At the top level nothing is local, so programs are resolved by themselves. -/
theorem findings_append (p q : Program) : findings (p ++ q) = p.findings ++ q.findings := by
  show Stmt.findingsAll .top [] (p ++ q) = _
  induction p with
  | nil => rfl
  | cons s p ih =>
      have hscopes : s.scopesAfter [] = [] := by cases s <;> rfl
      have hcons : ∀ ss, Stmt.findingsAll .top [] (s :: ss) =
          s.findings .top [] ++ Stmt.findingsAll .top [] ss := by
        intro ss
        rw [Stmt.findingsAll, hscopes]
      rw [List.cons_append, hcons, ih]
      show _ = Stmt.findingsAll .top [] (s :: p) ++ _
      rw [hcons, Findings.append_assoc]
      rfl

end Program

end Lox
