import Lox.Proofs.Binding.Site
import Lox.Proofs.Binding.Tally
import Mathlib.Data.List.Perm.Subperm

set_option autoImplicit false

/-! # The keys that resolving records

A walk records an entry under the identity of a reference that it meets, at most once for each time
that the reference occurs (`Program.keys_subperm`). This needs no walk without errors: where there
is one, an entry may be missing, as for `this` outside of a class.
-/

namespace Lox

/-- How many entries a walk records under an identity. -/
def Findings.recorded (k : Nat) (f : Findings) : Nat := (f.bindings.map Prod.fst).count k

namespace Findings

open Reference

variable {k : Nat}

@[simp] theorem recorded_append (f g : Findings) :
    (f ++ g).recorded k = f.recorded k + g.recorded k := by
  simp [recorded]

theorem recorded_of_bindings_eq_nil {f : Findings} (h : f.bindings = []) : f.recorded k = 0 := by
  rw [recorded, h]
  rfl

@[simp] theorem recorded_errorIf (condition : Bool) (cause : ResolveError.Cause) (name : Name) :
    (errorIf condition cause name).recorded k = 0 :=
  recorded_of_bindings_eq_nil (bindings_errorIf condition cause name)

@[simp] theorem recorded_declaration (scopes : Scopes) (name : Name) :
    (declaration scopes name).recorded k = 0 :=
  recorded_of_bindings_eq_nil (bindings_declaration scopes name)

@[simp] theorem recorded_declarations (scopes : Scopes) (names : List Name) :
    (declarations scopes names).recorded k = 0 :=
  recorded_of_bindings_eq_nil (bindings_declarations scopes names)

theorem recorded_reference_le (scopes : Scopes) (role : Reference.Role) (name : Name) :
    (reference scopes name).recorded k ≤ tally k [⟨role, name⟩] := by
  rw [reference]
  cases scopes.hops? name.text <;> simp [recorded, empty, List.count_cons]

theorem recorded_read_le (scopes : Scopes) (name : Name) :
    (read scopes name).recorded k ≤ tally k [⟨.variable, name⟩] := by
  rw [recorded, bindings_read]
  exact recorded_reference_le scopes .variable name

theorem recorded_superclass_le (scopes : Scopes) (className : Name) (name : Option Name) :
    (superclass scopes className name).recorded k ≤
      tally k (name.map (⟨.variable, ·⟩)).toList := by
  cases name with
  | none => exact Nat.le_refl _
  | some name =>
      rw [superclass, recorded_append, recorded_errorIf, Nat.zero_add]
      exact recorded_read_le scopes name

end Findings

section Walk

open Reference

variable {k : Nat}

mutual

theorem Expr.recorded_le (ctx : Context) (scopes : Scopes) :
    (e : Expr) → (e.findings ctx scopes).recorded k ≤ tally k e.references
  | .literal _ => Nat.le_refl _
  | .grouping inner => Expr.recorded_le ctx scopes inner
  | .unary _ _ operand => Expr.recorded_le ctx scopes operand
  | .binary _ _ left right | .logical _ left right => by
      have hleft := Expr.recorded_le ctx scopes left
      have hright := Expr.recorded_le ctx scopes right
      rw [Expr.findings, Findings.recorded_append, Expr.references, tally_append]
      omega
  | .variable name => Findings.recorded_read_le scopes name
  | .assign name value => by
      have hvalue := Expr.recorded_le ctx scopes value
      have hname := Findings.recorded_reference_le (k := k) scopes .assign name
      rw [Expr.findings, Findings.recorded_append, Expr.references, tally_cons]
      omega
  | .call callee arguments _ => by
      have hcallee := Expr.recorded_le ctx scopes callee
      have harguments := Expr.recordedAll_le ctx scopes arguments
      rw [Expr.findings, Findings.recorded_append, Expr.references, tally_append]
      omega
  | .get object _ => Expr.recorded_le ctx scopes object
  | .set object _ value => by
      have hobject := Expr.recorded_le ctx scopes object
      have hvalue := Expr.recorded_le ctx scopes value
      rw [Expr.findings, Findings.recorded_append, Expr.references, tally_append]
      omega
  | .this keyword => by
      -- Outside of a class `this` gets no entry.
      rw [Expr.findings]
      split
      · exact Nat.zero_le _
      · exact Findings.recorded_reference_le scopes .this keyword
  | .super keyword _ => by
      have hkeyword := Findings.recorded_reference_le (k := k) scopes .super keyword
      rw [Expr.findings, Findings.recorded_append, Findings.recorded_append,
        Findings.recorded_errorIf, Findings.recorded_errorIf, Expr.references]
      omega

theorem Expr.recordedAll_le (ctx : Context) (scopes : Scopes) :
    (es : List Expr) →
      (Expr.findingsAll ctx scopes es).recorded k ≤ tally k (Expr.referencesAll es)
  | [] => Nat.le_refl _
  | e :: es => by
      have he := Expr.recorded_le ctx scopes e
      have hes := Expr.recordedAll_le ctx scopes es
      rw [Expr.findingsAll, Findings.recorded_append, Expr.referencesAll, tally_append]
      omega

end

theorem Expr.recordedOf?_le (ctx : Context) (scopes : Scopes) (e : Option Expr) :
    (Expr.findingsOf? ctx scopes e).recorded k ≤ tally k (Expr.referencesOf? e) := by
  cases e with
  | none => exact Nat.le_refl _
  | some e => exact e.recorded_le ctx scopes

mutual

theorem Stmt.recorded_le (ctx : Context) (scopes : Scopes) :
    (s : Stmt) → (s.findings ctx scopes).recorded k ≤ tally k s.references
  | .expression e | .print e => e.recorded_le ctx scopes
  | .var name initial => by
      rw [Stmt.findings, Findings.recorded_append, Findings.recorded_declaration, Nat.zero_add]
      exact Expr.recordedOf?_le ctx _ initial
  | .block body => Stmt.recordedAll_le _ _ body
  | .branch condition yes none => by
      have hcondition := condition.recorded_le (k := k) ctx scopes
      have hyes := Stmt.recorded_le ctx scopes yes
      rw [Stmt.findings, Findings.recorded_append, Stmt.references, tally_append]
      omega
  | .branch condition yes (some no) => by
      have hcondition := condition.recorded_le (k := k) ctx scopes
      have hyes := Stmt.recorded_le ctx scopes yes
      have hno := Stmt.recorded_le ctx scopes no
      rw [Stmt.findings, Findings.recorded_append, Findings.recorded_append, Stmt.references,
        tally_append, tally_append]
      omega
  | .loop condition body => by
      have hcondition := condition.recorded_le (k := k) ctx scopes
      have hbody := Stmt.recorded_le ctx scopes body
      rw [Stmt.findings, Findings.recorded_append, Stmt.references, tally_append]
      omega
  | .function f => by
      rw [Stmt.findings, Findings.recorded_append, Findings.recorded_declaration, Nat.zero_add]
      exact Function.recorded_le _ _ f
  | .ret _ value => by
      rw [Stmt.findings, Findings.recorded_append, Findings.recorded_append,
        Findings.recorded_errorIf, Findings.recorded_errorIf, Nat.zero_add]
      exact Expr.recordedOf?_le _ scopes value
  | .classDecl name superclass methods => by
      have habove := Findings.recorded_superclass_le (k := k) (scopes.define name.text) name
        superclass
      have hmethods := Function.recordedAll_le
        { ctx with inClass := if superclass.isSome then .subclass else .plain }
        ((scopes.define name.text).ofMethods superclass.isSome) methods
      rw [Stmt.findings, Findings.recorded_append, Findings.recorded_append,
        Findings.recorded_declaration, Stmt.references, tally_append]
      omega

theorem Stmt.recordedAll_le (ctx : Context) (scopes : Scopes) :
    (ss : List Stmt) →
      (Stmt.findingsAll ctx scopes ss).recorded k ≤ tally k (Stmt.referencesAll ss)
  | [] => Nat.le_refl _
  | s :: ss => by
      have hs := Stmt.recorded_le ctx scopes s
      have hss := Stmt.recordedAll_le ctx (s.scopesAfter scopes) ss
      rw [Stmt.findingsAll, Findings.recorded_append, Stmt.referencesAll, tally_append]
      omega

theorem Function.recorded_le (ctx : Context) (scopes : Scopes) :
    (f : Function) → (f.findings ctx scopes).recorded k ≤ tally k f.references
  | .mk _ parameters body => by
      rw [Function.findings, Findings.recorded_append, Findings.recorded_declarations,
        Nat.zero_add]
      exact Stmt.recordedAll_le _ _ body

theorem Function.recordedAll_le (ctx : Context) (scopes : Scopes) :
    (fs : List Function) →
      (Function.findingsAll ctx scopes fs).recorded k ≤ tally k (Function.referencesAll fs)
  | [] => Nat.le_refl _
  | f :: fs => by
      have hf := Function.recorded_le (ctx.ofMethod f) scopes f
      have hfs := Function.recordedAll_le ctx scopes fs
      rw [Function.findingsAll, Findings.recorded_append, Function.referencesAll, tally_append]
      omega

end

end Walk

/-- The keys of the entries that resolving a program records. -/
def Program.keys (p : Program) : List Nat := p.findings.bindings.map Prod.fst

/-- An entry is recorded for references of the program only, at most one for each. -/
theorem Program.keys_subperm (p : Program) : p.keys.Subperm p.ids :=
  List.subperm_ext_iff.2 fun _ _ => Stmt.recordedAll_le _ _ p

end Lox
