import Lox.Proofs.Binding.Tally
import Lox.Proofs.Renumbering.Findings

set_option autoImplicit false

/-! # Trees without the identities of their references

A tree whose identities were drawn and the tree of the same tokens with offsets are the same up to
the numbers in their names. Erasing the identities of the one leaves no number in it, as 0 stands
in all other names, so it is then the bare tree of the other (`Renumbering.bare`). The other
direction puts the numbers back: if a renumbering takes the offsets of the references to the
identities, one by one, and those of the other names to 0, it takes the one tree to the other
(`Stmt.map_renumber_of_erase`).
-/

namespace Lox

/-- Keeps the lines, and no identity. -/
def Renumbering.bare : Renumbering := ⟨id, fun _ => 0⟩

/-! ## Erasing -/

mutual

/-- The expression without the identities of its references. -/
def Expr.erase : Expr → Expr
  | .literal value => .literal value
  | .grouping inner => .grouping inner.erase
  | .unary op line operand => .unary op line operand.erase
  | .binary op line left right => .binary op line left.erase right.erase
  | .logical op left right => .logical op left.erase right.erase
  | .variable name => .variable (name.renumber .bare)
  | .assign name value => .assign (name.renumber .bare) value.erase
  | .call callee arguments line => .call callee.erase (Expr.eraseAll arguments) line
  | .get object property => .get object.erase property
  | .set object property value => .set object.erase property value.erase
  | .this keyword => .this (keyword.renumber .bare)
  | .super keyword method => .super (keyword.renumber .bare) method

/-- The expressions without the identities of their references. -/
def Expr.eraseAll : List Expr → List Expr
  | [] => []
  | e :: es => e.erase :: Expr.eraseAll es

end

mutual

/-- The statement without the identities of its references. -/
def Stmt.erase : Stmt → Stmt
  | .expression e => .expression e.erase
  | .print e => .print e.erase
  | .var name initial => .var name (initial.map Expr.erase)
  | .block body => .block (Stmt.eraseAll body)
  | .branch condition yes none => .branch condition.erase yes.erase none
  | .branch condition yes (some no) => .branch condition.erase yes.erase (some no.erase)
  | .loop condition body => .loop condition.erase body.erase
  | .function f => .function f.erase
  | .ret keyword value => .ret keyword (value.map Expr.erase)
  | .classDecl name superclass methods =>
    .classDecl name (superclass.map (Name.renumber .bare)) (Function.eraseAll methods)

/-- The statements without the identities of their references. -/
def Stmt.eraseAll : List Stmt → List Stmt
  | [] => []
  | s :: ss => s.erase :: Stmt.eraseAll ss

/-- The function without the identities of its references. -/
def Function.erase : Function → Function
  | .mk name parameters body => .mk name parameters (Stmt.eraseAll body)

/-- The functions without the identities of their references. -/
def Function.eraseAll : List Function → List Function
  | [] => []
  | f :: fs => f.erase :: Function.eraseAll fs

end

@[simp] theorem Expr.eraseAll_eq_map (es : List Expr) : Expr.eraseAll es = es.map Expr.erase := by
  induction es with
  | nil => rfl
  | cons e es ih => rw [Expr.eraseAll, ih, List.map_cons]

@[simp] theorem Stmt.eraseAll_eq_map (ss : List Stmt) : Stmt.eraseAll ss = ss.map Stmt.erase := by
  induction ss with
  | nil => rfl
  | cons s ss ih => rw [Stmt.eraseAll, ih, List.map_cons]

@[simp] theorem Function.eraseAll_eq_map (fs : List Function) :
    Function.eraseAll fs = fs.map Function.erase := by
  induction fs with
  | nil => rfl
  | cons f fs ih => rw [Function.eraseAll, ih, List.map_cons]

theorem InfixOp.erase_join (op : InfixOp) (line : Nat) (left right : Expr) :
    (op.join line left right).erase = op.join line left.erase right.erase := by
  cases op <;> rfl

theorem Stmt.erase_branch (condition : Expr) (yes : Stmt) (no : Option Stmt) :
    (Stmt.branch condition yes no).erase =
      .branch condition.erase yes.erase (no.map Stmt.erase) := by
  cases no <;> rfl

theorem Stmt.erase_forLoop (initial : Option Stmt) (condition increment : Option Expr)
    (body : Stmt) :
    (Stmt.forLoop initial condition increment body).erase =
      .forLoop (initial.map Stmt.erase) (condition.map Expr.erase) (increment.map Expr.erase)
        body.erase := by
  cases initial <;> cases condition <;> cases increment <;>
    simp [Stmt.forLoop, Stmt.erase, Expr.erase]

/-! ## The references of an erased tree -/

mutual

theorem Expr.references_erase :
    (e : Expr) → e.erase.references = e.references.map (Reference.renumber .bare)
  | .literal _ | .variable _ | .this _ | .super _ _ => rfl
  | .grouping inner => Expr.references_erase inner
  | .unary _ _ operand => Expr.references_erase operand
  | .binary _ _ left right | .logical _ left right | .set left _ right => by
      rw [Expr.erase, Expr.references, Expr.references, List.map_append,
        Expr.references_erase left, Expr.references_erase right]
  | .assign name value => by
      rw [Expr.erase, Expr.references, Expr.references, List.map_cons,
        Expr.references_erase value]
      rfl
  | .call callee arguments _ => by
      rw [Expr.erase, Expr.references, Expr.references, List.map_append,
        Expr.references_erase callee, Expr.referencesAll_erase arguments]
  | .get object _ => Expr.references_erase object

theorem Expr.referencesAll_erase :
    (es : List Expr) → Expr.referencesAll (Expr.eraseAll es) =
      (Expr.referencesAll es).map (Reference.renumber .bare)
  | [] => rfl
  | e :: es => by
      rw [Expr.eraseAll, Expr.referencesAll, Expr.referencesAll, List.map_append,
        Expr.references_erase e, Expr.referencesAll_erase es]

end

theorem Expr.referencesOf?_erase (e : Option Expr) :
    Expr.referencesOf? (e.map Expr.erase) =
      (Expr.referencesOf? e).map (Reference.renumber .bare) := by
  cases e with
  | none => rfl
  | some e => exact Expr.references_erase e

mutual

theorem Stmt.references_erase :
    (s : Stmt) → s.erase.references = s.references.map (Reference.renumber .bare)
  | .expression e | .print e => Expr.references_erase e
  | .var _ initial => Expr.referencesOf?_erase initial
  | .block body => Stmt.referencesAll_erase body
  | .branch condition yes none => by
      rw [Stmt.erase, Stmt.references, Stmt.references, List.map_append,
        Expr.references_erase, Stmt.references_erase yes]
  | .branch condition yes (some no) => by
      rw [Stmt.erase, Stmt.references, Stmt.references, List.map_append, List.map_append,
        Expr.references_erase, Stmt.references_erase yes, Stmt.references_erase no]
  | .loop condition body => by
      rw [Stmt.erase, Stmt.references, Stmt.references, List.map_append,
        Expr.references_erase, Stmt.references_erase body]
  | .function f => Function.references_erase f
  | .ret _ value => Expr.referencesOf?_erase value
  | .classDecl _ superclass methods => by
      rw [Stmt.erase, Stmt.references, Stmt.references, List.map_append,
        Function.referencesAll_erase methods]
      cases superclass <;> rfl

theorem Stmt.referencesAll_erase :
    (ss : List Stmt) → Stmt.referencesAll (Stmt.eraseAll ss) =
      (Stmt.referencesAll ss).map (Reference.renumber .bare)
  | [] => rfl
  | s :: ss => by
      rw [Stmt.eraseAll, Stmt.referencesAll, Stmt.referencesAll, List.map_append,
        Stmt.references_erase s, Stmt.referencesAll_erase ss]

theorem Function.references_erase :
    (f : Function) → f.erase.references = f.references.map (Reference.renumber .bare)
  | .mk _ _ body => Stmt.referencesAll_erase body

theorem Function.referencesAll_erase :
    (fs : List Function) → Function.referencesAll (Function.eraseAll fs) =
      (Function.referencesAll fs).map (Reference.renumber .bare)
  | [] => rfl
  | f :: fs => by
      rw [Function.eraseAll, Function.referencesAll, Function.referencesAll, List.map_append,
        Function.references_erase f, Function.referencesAll_erase fs]

end

theorem Expr.length_references {e e' : Expr} (h : e'.erase = e.renumber .bare) :
    e'.references.length = e.references.length := by
  have hlength := congrArg (List.length ∘ Expr.references) h
  simpa [Expr.references_erase, Expr.references_renumber] using hlength

theorem Stmt.length_references {s s' : Stmt} (h : s'.erase = s.renumber .bare) :
    s'.references.length = s.references.length := by
  have hlength := congrArg (List.length ∘ Stmt.references) h
  simpa [Stmt.references_erase, Stmt.references_renumber] using hlength

theorem Function.length_references {f f' : Function} (h : f'.erase = f.renumber .bare) :
    f'.references.length = f.references.length := by
  have hlength := congrArg (List.length ∘ Function.references) h
  simpa [Function.references_erase, Function.references_renumber] using hlength

/-! ## Names that are no references -/

mutual

/-- The names in an expression that are no references. -/
def Expr.bareNames : Expr → List Name
  | .literal _ | .variable _ | .this _ => []
  | .grouping inner => inner.bareNames
  | .unary _ _ operand => operand.bareNames
  | .binary _ _ left right => left.bareNames ++ right.bareNames
  | .logical _ left right => left.bareNames ++ right.bareNames
  | .assign _ value => value.bareNames
  | .call callee arguments _ => callee.bareNames ++ Expr.bareNamesAll arguments
  | .get object property => object.bareNames ++ [property]
  | .set object property value => object.bareNames ++ property :: value.bareNames
  | .super _ method => [method]

/-- The names in expressions that are no references. -/
def Expr.bareNamesAll : List Expr → List Name
  | [] => []
  | e :: es => e.bareNames ++ Expr.bareNamesAll es

end

/-- The names in an expression that are no references, if there is one. -/
def Expr.bareNamesOf? : Option Expr → List Name
  | none => []
  | some e => e.bareNames

mutual

/-- The names in a statement that are no references. -/
def Stmt.bareNames : Stmt → List Name
  | .expression e | .print e => e.bareNames
  | .var name initial => name :: Expr.bareNamesOf? initial
  | .block body => Stmt.bareNamesAll body
  | .branch condition yes none => condition.bareNames ++ yes.bareNames
  | .branch condition yes (some no) => condition.bareNames ++ yes.bareNames ++ no.bareNames
  | .loop condition body => condition.bareNames ++ body.bareNames
  | .function f => f.bareNames
  | .ret keyword value => keyword :: Expr.bareNamesOf? value
  | .classDecl name _ methods => name :: Function.bareNamesAll methods

/-- The names in statements that are no references. -/
def Stmt.bareNamesAll : List Stmt → List Name
  | [] => []
  | s :: ss => s.bareNames ++ Stmt.bareNamesAll ss

/-- The names in a function that are no references. -/
def Function.bareNames : Function → List Name
  | .mk name parameters body => name :: (parameters ++ Stmt.bareNamesAll body)

/-- The names in functions that are no references. -/
def Function.bareNamesAll : List Function → List Name
  | [] => []
  | f :: fs => f.bareNames ++ Function.bareNamesAll fs

end

/-! ## Putting the identities back -/

/-- The renumbering takes the offsets in the first references to the identities in the second
ones, and those of the other names to 0. -/
structure Renumbering.Takes (r : Renumbering) (rs rs' : List Reference) (names : List Name) :
    Prop where
  line : ∀ i, r.line i = i
  ids : Reference.ids rs' = (Reference.ids rs).map r.start
  bareNames : ∀ n ∈ names, r.start n.start = 0

variable {r : Renumbering}

namespace Renumbering.Takes

variable {rs rs' qs qs' : List Reference} {ns ms : List Name} {n n' : Name} {q q' : Reference}

theorem append (h : r.Takes (rs ++ qs) (rs' ++ qs') (ns ++ ms)) (hlen : rs'.length = rs.length) :
    r.Takes rs rs' ns ∧ r.Takes qs qs' ms := by
  have hids := h.ids
  simp only [Reference.ids, List.map_append] at hids
  obtain ⟨hids₁, hids₂⟩ := List.append_inj hids (by simp [hlen])
  have hnames := List.forall_mem_append.1 h.bareNames
  exact ⟨⟨h.line, hids₁, hnames.1⟩, ⟨h.line, hids₂, hnames.2⟩⟩

theorem cons (h : r.Takes (q :: rs) (q' :: rs') ns) :
    r.Takes [q] [q'] [] ∧ r.Takes rs rs' ns := by
  obtain ⟨hstart, hids⟩ := List.cons.inj h.ids
  exact ⟨⟨h.line, congrArg ([·]) hstart, by simp⟩, ⟨h.line, hids, h.bareNames⟩⟩

theorem tail (h : r.Takes rs rs' (n :: ns)) : r.Takes rs rs' ns :=
  ⟨h.line, h.ids, fun m hm => h.bareNames m (List.mem_cons_of_mem n hm)⟩

/-- The name of a reference. -/
theorem name {role role' : Reference.Role} (h : r.Takes [⟨role, n⟩] [⟨role', n'⟩] ns)
    (hn : n'.renumber .bare = n.renumber .bare) : n' = n.renumber r := by
  obtain ⟨htext, hline, -⟩ := Name.mk.inj hn
  obtain ⟨text', line', start'⟩ := n'
  obtain rfl : text' = n.text := htext
  obtain rfl : line' = n.line := hline
  obtain ⟨rfl, -⟩ := List.cons.inj h.ids
  rw [Name.renumber, h.line]

/-- A name that is no reference. -/
theorem bare (h : r.Takes rs rs' (n :: ns)) : n.renumber .bare = n.renumber r := by
  have hstart : r.start n.start = 0 := h.bareNames n List.mem_cons_self
  rw [Name.renumber, Name.renumber, hstart, h.line]
  rfl

end Renumbering.Takes

mutual

theorem Expr.renumber_of_erase : (e e' : Expr) → e'.erase = e.renumber .bare →
    r.Takes e.references e'.references e.bareNames → e' = e.renumber r
  | .literal _, e', h, _ => by
      cases e' <;> simp only [Expr.erase, Expr.renumber, reduceCtorEq] at h
      exact h
  | .grouping inner, e', h, ht => by
      cases e' <;> simp only [Expr.erase, Expr.renumber, reduceCtorEq] at h
      case grouping inner' =>
        exact congrArg _ (Expr.renumber_of_erase inner inner' (Expr.grouping.inj h) ht)
  | .unary _ _ operand, e', h, ht => by
      cases e' <;> simp only [Expr.erase, Expr.renumber, reduceCtorEq] at h
      case unary op' line' operand' =>
        obtain ⟨rfl, rfl, hoperand⟩ := Expr.unary.inj h
        rw [Expr.renumber, ht.line, Expr.renumber_of_erase operand operand' hoperand ht]
  | .binary _ _ left right, e', h, ht => by
      cases e' <;> simp only [Expr.erase, Expr.renumber, reduceCtorEq] at h
      case binary op' line' left' right' =>
        obtain ⟨rfl, rfl, hleft, hright⟩ := Expr.binary.inj h
        obtain ⟨htleft, htright⟩ := ht.append (Expr.length_references hleft)
        rw [Expr.renumber, ht.line, Expr.renumber_of_erase left left' hleft htleft,
          Expr.renumber_of_erase right right' hright htright]
  | .logical _ left right, e', h, ht => by
      cases e' <;> simp only [Expr.erase, Expr.renumber, reduceCtorEq] at h
      case logical op' left' right' =>
        obtain ⟨rfl, hleft, hright⟩ := Expr.logical.inj h
        obtain ⟨htleft, htright⟩ := ht.append (Expr.length_references hleft)
        rw [Expr.renumber, Expr.renumber_of_erase left left' hleft htleft,
          Expr.renumber_of_erase right right' hright htright]
  | .variable _, e', h, ht => by
      cases e' <;> simp only [Expr.erase, Expr.renumber, reduceCtorEq] at h
      case «variable» name' => exact congrArg _ (ht.name (Expr.variable.inj h))
  | .assign _ value, e', h, ht => by
      cases e' <;> simp only [Expr.erase, Expr.renumber, reduceCtorEq] at h
      case assign name' value' =>
        obtain ⟨hname, hvalue⟩ := Expr.assign.inj h
        obtain ⟨htname, htvalue⟩ := ht.cons
        rw [Expr.renumber, htname.name hname, Expr.renumber_of_erase value value' hvalue htvalue]
  | .call callee arguments _, e', h, ht => by
      cases e' <;> simp only [Expr.erase, Expr.renumber, reduceCtorEq] at h
      case call callee' arguments' line' =>
        obtain ⟨hcallee, harguments, rfl⟩ := Expr.call.inj h
        obtain ⟨htcallee, htarguments⟩ := ht.append (Expr.length_references hcallee)
        rw [Expr.renumber, ht.line, Expr.renumber_of_erase callee callee' hcallee htcallee,
          Expr.renumberAll_of_erase arguments arguments' harguments htarguments]
  | .get object property, e', h, ht => by
      cases e' <;> simp only [Expr.erase, Expr.renumber, reduceCtorEq] at h
      case get object' property' =>
        obtain ⟨hobject, rfl⟩ := Expr.get.inj h
        have hnames := List.forall_mem_append.1 ht.bareNames
        have htobject : r.Takes object.references object'.references object.bareNames :=
          ⟨ht.line, ht.ids, hnames.1⟩
        have htproperty : r.Takes [] [] [property] := ⟨ht.line, rfl, hnames.2⟩
        rw [Expr.renumber, Expr.renumber_of_erase object object' hobject htobject,
          htproperty.bare]
  | .set object _ value, e', h, ht => by
      cases e' <;> simp only [Expr.erase, Expr.renumber, reduceCtorEq] at h
      case set object' property' value' =>
        obtain ⟨hobject, rfl, hvalue⟩ := Expr.set.inj h
        obtain ⟨htobject, htvalue⟩ := ht.append (Expr.length_references hobject)
        rw [Expr.renumber, Expr.renumber_of_erase object object' hobject htobject, htvalue.bare,
          Expr.renumber_of_erase value value' hvalue htvalue.tail]
  | .this _, e', h, ht => by
      cases e' <;> simp only [Expr.erase, Expr.renumber, reduceCtorEq] at h
      case this keyword' => exact congrArg _ (ht.name (Expr.this.inj h))
  | .super _ _, e', h, ht => by
      cases e' <;> simp only [Expr.erase, Expr.renumber, reduceCtorEq] at h
      case super keyword' method' =>
        obtain ⟨hkeyword, rfl⟩ := Expr.super.inj h
        rw [Expr.renumber, ← ht.name hkeyword, ht.bare]

theorem Expr.renumberAll_of_erase : (es es' : List Expr) →
    Expr.eraseAll es' = Expr.renumberAll .bare es →
    r.Takes (Expr.referencesAll es) (Expr.referencesAll es') (Expr.bareNamesAll es) →
    es' = Expr.renumberAll r es
  | [], es', h, _ => by
      cases es' with
      | nil => rfl
      | cons e' es' => cases h
  | e :: es, es', h, ht => by
      cases es' with
      | nil => cases h
      | cons e' es' =>
          obtain ⟨he, hes⟩ := List.cons.inj h
          obtain ⟨hte, htes⟩ := ht.append (Expr.length_references he)
          rw [Expr.renumberAll, Expr.renumber_of_erase e e' he hte,
            Expr.renumberAll_of_erase es es' hes htes]

end

theorem Expr.renumberOf?_of_erase {e e' : Option Expr}
    (h : e'.map Expr.erase = e.map (Expr.renumber .bare))
    (ht : r.Takes (Expr.referencesOf? e) (Expr.referencesOf? e') (Expr.bareNamesOf? e)) :
    e' = e.map (Expr.renumber r) := by
  cases e with
  | none => exact Option.map_eq_none_iff.1 h
  | some e =>
      cases e' with
      | none => cases h
      | some e' => exact congrArg some (Expr.renumber_of_erase e e' (Option.some.inj h) ht)

theorem Name.renumberOf?_of_erase {n n' : Option Name}
    (h : n'.map (Name.renumber .bare) = n.map (Name.renumber .bare))
    (ht : r.Takes (n.map (⟨.variable, ·⟩)).toList (n'.map (⟨.variable, ·⟩)).toList []) :
    n' = n.map (Name.renumber r) := by
  cases n with
  | none => exact Option.map_eq_none_iff.1 h
  | some n =>
      cases n' with
      | none => cases h
      | some n' => exact congrArg some (ht.name (Option.some.inj h))

mutual

theorem Stmt.renumber_of_erase : (s s' : Stmt) → s'.erase = s.renumber .bare →
    r.Takes s.references s'.references s.bareNames → s' = s.renumber r
  | .expression e, s', h, ht => by
      cases s' <;> simp only [Stmt.erase, Stmt.erase_branch, Stmt.renumber, reduceCtorEq] at h
      case expression e' =>
        exact congrArg _ (Expr.renumber_of_erase e e' (Stmt.expression.inj h) ht)
  | .print e, s', h, ht => by
      cases s' <;> simp only [Stmt.erase, Stmt.erase_branch, Stmt.renumber, reduceCtorEq] at h
      case print e' =>
        exact congrArg _ (Expr.renumber_of_erase e e' (Stmt.print.inj h) ht)
  | .var _ _, s', h, ht => by
      cases s' <;> simp only [Stmt.erase, Stmt.erase_branch, Stmt.renumber, reduceCtorEq] at h
      case var name' initial' =>
        obtain ⟨rfl, hinitial⟩ := Stmt.var.inj h
        rw [Stmt.renumber, ← Expr.renumberOf?_of_erase hinitial ht.tail, ht.bare]
  | .block body, s', h, ht => by
      cases s' <;> simp only [Stmt.erase, Stmt.erase_branch, Stmt.renumber, reduceCtorEq] at h
      case block body' =>
        exact congrArg _ (Stmt.renumberAll_of_erase body body' (Stmt.block.inj h) ht)
  | .branch condition yes none, s', h, ht => by
      cases s' <;> simp only [Stmt.erase, Stmt.erase_branch, Stmt.renumber, reduceCtorEq] at h
      case branch condition' yes' no' =>
        obtain ⟨hcondition, hyes, hno⟩ := Stmt.branch.inj h
        obtain rfl := Option.map_eq_none_iff.1 hno
        obtain ⟨htcondition, htyes⟩ := ht.append (Expr.length_references hcondition)
        rw [Stmt.renumber, Expr.renumber_of_erase condition condition' hcondition htcondition,
          Stmt.renumber_of_erase yes yes' hyes htyes]
  | .branch condition yes (some no), s', h, ht => by
      cases s' <;> simp only [Stmt.erase, Stmt.erase_branch, Stmt.renumber, reduceCtorEq] at h
      case branch condition' yes' no' =>
        obtain ⟨hcondition, hyes, hno⟩ := Stmt.branch.inj h
        obtain ⟨no', rfl, hsame⟩ := Option.map_eq_some_iff.1 hno
        have hlength : (condition'.references ++ yes'.references).length =
            (condition.references ++ yes.references).length := by
          simp [Expr.length_references hcondition, Stmt.length_references hyes]
        obtain ⟨ht, htno⟩ := ht.append hlength
        obtain ⟨htcondition, htyes⟩ := ht.append (Expr.length_references hcondition)
        rw [Stmt.renumber, Expr.renumber_of_erase condition condition' hcondition htcondition,
          Stmt.renumber_of_erase yes yes' hyes htyes, Stmt.renumber_of_erase no no' hsame htno]
  | .loop condition body, s', h, ht => by
      cases s' <;> simp only [Stmt.erase, Stmt.erase_branch, Stmt.renumber, reduceCtorEq] at h
      case loop condition' body' =>
        obtain ⟨hcondition, hbody⟩ := Stmt.loop.inj h
        obtain ⟨htcondition, htbody⟩ := ht.append (Expr.length_references hcondition)
        rw [Stmt.renumber, Expr.renumber_of_erase condition condition' hcondition htcondition,
          Stmt.renumber_of_erase body body' hbody htbody]
  | .function f, s', h, ht => by
      cases s' <;> simp only [Stmt.erase, Stmt.erase_branch, Stmt.renumber, reduceCtorEq] at h
      case function f' =>
        exact congrArg _ (Function.renumber_of_erase f f' (Stmt.function.inj h) ht)
  | .ret _ _, s', h, ht => by
      cases s' <;> simp only [Stmt.erase, Stmt.erase_branch, Stmt.renumber, reduceCtorEq] at h
      case ret keyword' value' =>
        obtain ⟨rfl, hvalue⟩ := Stmt.ret.inj h
        rw [Stmt.renumber, ← Expr.renumberOf?_of_erase hvalue ht.tail, ht.bare]
  | .classDecl _ superclass methods, s', h, ht => by
      cases s' <;> simp only [Stmt.erase, Stmt.erase_branch, Stmt.renumber, reduceCtorEq] at h
      case classDecl name' superclass' methods' =>
        obtain ⟨rfl, hsuperclass, hmethods⟩ := Stmt.classDecl.inj h
        have hlength : (superclass'.map (Reference.mk .variable)).toList.length =
            (superclass.map (Reference.mk .variable)).toList.length := by
          cases superclass <;> cases superclass' <;> simp_all
        have htclass : r.Takes
            ((superclass.map (Reference.mk .variable)).toList ++ Function.referencesAll methods)
            ((superclass'.map (Reference.mk .variable)).toList ++ Function.referencesAll methods')
            ([] ++ Function.bareNamesAll methods) := ht.tail
        obtain ⟨htsuperclass, htmethods⟩ := htclass.append hlength
        rw [Stmt.renumber, ← Name.renumberOf?_of_erase hsuperclass htsuperclass,
          ← Function.renumberAll_of_erase methods methods' hmethods htmethods, ht.bare]

theorem Stmt.renumberAll_of_erase : (ss ss' : List Stmt) →
    Stmt.eraseAll ss' = Stmt.renumberAll .bare ss →
    r.Takes (Stmt.referencesAll ss) (Stmt.referencesAll ss') (Stmt.bareNamesAll ss) →
    ss' = Stmt.renumberAll r ss
  | [], ss', h, _ => by
      cases ss' with
      | nil => rfl
      | cons s' ss' => cases h
  | s :: ss, ss', h, ht => by
      cases ss' with
      | nil => cases h
      | cons s' ss' =>
          obtain ⟨hs, hss⟩ := List.cons.inj h
          obtain ⟨hts, htss⟩ := ht.append (Stmt.length_references hs)
          rw [Stmt.renumberAll, Stmt.renumber_of_erase s s' hs hts,
            Stmt.renumberAll_of_erase ss ss' hss htss]

theorem Function.renumber_of_erase : (f f' : Function) → f'.erase = f.renumber .bare →
    r.Takes f.references f'.references f.bareNames → f' = f.renumber r
  | .mk name parameters body, .mk name' parameters' body', h, ht => by
      obtain ⟨rfl, rfl, hbody⟩ := Function.mk.inj h
      have hparameters : parameters.map (Name.renumber .bare) =
          parameters.map (Name.renumber r) := by
        refine List.map_congr_left fun n hn => ?_
        have htn : r.Takes [] [] [n] := ⟨ht.line, rfl, fun m hm => ht.tail.bareNames m (by
          rw [List.mem_singleton.1 hm]
          exact List.mem_append_left _ hn)⟩
        exact htn.bare
      have htbody : r.Takes (Stmt.referencesAll body) (Stmt.referencesAll body')
          (Stmt.bareNamesAll body) :=
        ⟨ht.line, ht.ids, fun n hn => ht.tail.bareNames n (List.mem_append_right _ hn)⟩
      rw [Function.renumber, ← Stmt.renumberAll_of_erase body body' hbody htbody, ht.bare,
        hparameters]

theorem Function.renumberAll_of_erase : (fs fs' : List Function) →
    Function.eraseAll fs' = Function.renumberAll .bare fs →
    r.Takes (Function.referencesAll fs) (Function.referencesAll fs') (Function.bareNamesAll fs) →
    fs' = Function.renumberAll r fs
  | [], fs', h, _ => by
      cases fs' with
      | nil => rfl
      | cons f' fs' => cases h
  | f :: fs, fs', h, ht => by
      cases fs' with
      | nil => cases h
      | cons f' fs' =>
          obtain ⟨hf, hfs⟩ := List.cons.inj h
          obtain ⟨htf, htfs⟩ := ht.append (Function.length_references hf)
          rw [Function.renumberAll, Function.renumber_of_erase f f' hf htf,
            Function.renumberAll_of_erase fs fs' hfs htfs]

end

end Lox
