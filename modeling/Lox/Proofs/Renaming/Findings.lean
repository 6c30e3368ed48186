import Lox.Proofs.Renaming.Scope

set_option autoImplicit false

/-! # Resolving renamed programs

If the scopes around a place are renamed as they are marked, then a walk over renamed code finds
there what it finds in the code. This is so because the new spelling is declared nowhere: a name
that is renamed cannot be caught by a scope nearer than its own, nor can a name that is left as it
is.
-/

namespace Lox

variable (r : Renaming)

theorem Renaming.swap_swap (mark : Bool) (text : String) :
    r.swap mark (r.swap mark text) = text := by
  cases mark with
  | false => rfl
  | true => exact Equiv.swap_apply_self r.old r.new text

/-! ## Scopes -/

/-- The scope in which the old and the new spelling have changed places, if it is marked. -/
def Scope.rename (mark : Bool) (scope : Scope) : Scope :=
  scope.map fun declared => (r.swap mark declared.1, declared.2)

/-- The scopes, each of them renamed as it is marked. -/
def Scopes.rename : Marks → Scopes → Scopes
  | mark :: marks, scope :: outer => scope.rename r mark :: Scopes.rename marks outer
  | _, scopes => scopes

@[simp] theorem Scopes.rename_nil (marks : Marks) : Scopes.rename r marks [] = [] := by
  cases marks <;> rfl

@[simp] theorem Scopes.rename_unmarked (scopes : Scopes) : Scopes.rename r [] scopes = scopes := by
  cases scopes <;> rfl

@[simp] theorem Scopes.rename_cons (mark : Bool) (marks : Marks) (scope : Scope)
    (outer : Scopes) :
    Scopes.rename r (mark :: marks) (scope :: outer) =
      scope.rename r mark :: Scopes.rename r marks outer := rfl

theorem Scopes.rename_ofMethods (marks : Marks) (scopes : Scopes) (hasSuperclass : Bool) :
    Scopes.rename r (false :: (if hasSuperclass then false :: marks else marks))
        (scopes.ofMethods hasSuperclass) =
      (scopes.rename r marks).ofMethods hasSuperclass := by
  cases hasSuperclass <;> rfl

theorem Scope.lookup_rename (mark : Bool) (scope : Scope) (text : String) :
    (scope.rename r mark).lookup (r.swap mark text) = scope.lookup text := by
  induction scope with
  | nil => rfl
  | cons declared scope ih =>
      obtain ⟨own, ready⟩ := declared
      have hcons : Scope.rename r mark ((own, ready) :: scope) =
          (r.swap mark own, ready) :: Scope.rename r mark scope := rfl
      rw [hcons, List.lookup_cons, List.lookup_cons, ih]
      by_cases h : text = own
      · rw [h, beq_self_eq_true, beq_self_eq_true]
      · rw [beq_false_of_ne h, beq_false_of_ne fun hswap => h (r.swap_injective mark hswap)]

section Lookup

variable {r} {scope : Scope} {scopes : Scopes} {marks : Marks} {text : String}

/-- A scope says of a renamed name what it says of the name, if the two are renamed alike, or else
if the name is not declared there. -/
theorem Scope.lookup_rename_swap {mark own : Bool} (htext : text ≠ r.new)
    (hnew : scope.lookup r.new = none) (h : own = mark ∨ scope.lookup text = none) :
    (scope.rename r mark).lookup (r.swap own text) = scope.lookup text := by
  by_cases hmark : own = mark
  · rw [hmark, lookup_rename]
  · have hnone : scope.lookup text = none := h.resolve_left hmark
    -- Renamed otherwise than the scope, the name is one that is not declared there either.
    have hother : scope.lookup (r.swap true text) = none := by
      by_cases hold : text = r.old
      · rw [hold, r.swap_old, hnew]
      · rw [r.swap_of_ne hold htext, hnone]
    rw [hnone]
    cases mark with
    | false =>
        obtain rfl : own = true := by simpa using hmark
        rw [← hother, ← lookup_rename r false scope, r.swap_false]
    | true =>
        obtain rfl : own = false := by simpa using hmark
        rw [← hother, ← lookup_rename r true scope, r.swap_swap, r.swap_false]

theorem Scope.lookup_eq_none_of_declares (h : scope.declares text = false) :
    scope.lookup text = none := by
  rwa [declares, ← Bool.not_eq_true, Option.not_isSome_iff_eq_none] at h

namespace Scopes

/-- What none of the scopes declares, neither the innermost does nor those around it. -/
theorem fresh_cons (h : hops? (scope :: scopes) text = none) :
    scope.lookup text = none ∧ scopes.hops? text = none := by
  rw [hops?_cons] at h
  split at h
  · cases h
  · rename_i hdeclares
    rw [Bool.not_eq_true] at hdeclares
    exact ⟨Scope.lookup_eq_none_of_declares hdeclares, Option.map_eq_none_iff.1 h⟩

/-- The innermost of renamed scopes says of a renamed name what the innermost scope says of it. -/
theorem lookup_rename_isMarked (marks : Marks) (outer : Scopes) {mark : Bool} (htext : text ≠ r.new)
    (hnew : scope.lookup r.new = none) :
    (scope.rename r mark).lookup
        (r.swap (Marks.isMarked (mark :: marks) (hops? (scope :: outer) text)) text) =
      scope.lookup text := by
  refine Scope.lookup_rename_swap htext hnew ?_
  rw [hops?_cons]
  split
  · exact .inl rfl
  · rename_i hdeclares
    rw [Bool.not_eq_true] at hdeclares
    exact .inr (Scope.lookup_eq_none_of_declares hdeclares)

/-- A renamed name is as far out as the name was. -/
theorem hops?_rename (htext : text ≠ r.new) (hnew : scopes.hops? r.new = none) :
    (scopes.rename r marks).hops? (r.swap (marks.isMarked (scopes.hops? text)) text) =
      scopes.hops? text := by
  induction scopes generalizing marks with
  | nil => rw [rename_nil]; rfl
  | cons scope outer ih =>
      obtain ⟨hscope, houter⟩ := fresh_cons hnew
      cases marks with
      | nil => rw [rename_unmarked, Marks.isMarked_nil, r.swap_false]
      | cons mark marks =>
          have hlookup : (scope.rename r mark).lookup (r.swap (Marks.isMarked (mark :: marks)
              (hops? (scope :: outer) text)) text) = scope.lookup text :=
            lookup_rename_isMarked marks outer htext hscope
          rw [rename_cons, hops?_cons, Scope.declares, hlookup, hops?_cons, Scope.declares]
          split
          · rfl
          · rw [Marks.isMarked_cons_map, ih houter]

/-- A renamed name is pending if the name was. -/
theorem isPending_rename (htext : text ≠ r.new) (hnew : scopes.hops? r.new = none) :
    (scopes.rename r marks).isPending (r.swap (marks.isMarked (scopes.hops? text)) text) =
      scopes.isPending text := by
  cases scopes with
  | nil => rw [rename_nil]; rfl
  | cons scope outer =>
      cases marks with
      | nil => rw [rename_unmarked, Marks.isMarked_nil, r.swap_false]
      | cons mark marks =>
          rw [rename_cons, isPending, isPending, Scope.isPending, Scope.isPending,
            lookup_rename_isMarked _ _ htext (fresh_cons hnew).1]

/-! ### Changes to the innermost scope -/

theorem redeclares_rename (marks : Marks) (scopes : Scopes) (text : String) :
    (scopes.rename r marks).redeclares (r.swap (marks.isMarked (some 0)) text) =
      scopes.redeclares text := by
  cases scopes with
  | nil => rw [rename_nil]; rfl
  | cons scope outer =>
      cases marks with
      | nil => rw [rename_unmarked, Marks.isMarked_nil, r.swap_false]
      | cons mark marks =>
          rw [rename_cons, redeclares, redeclares, Scope.declares, Scope.declares,
            Marks.isMarked_cons_zero, Scope.lookup_rename]

theorem rename_define (marks : Marks) (scopes : Scopes) (text : String) :
    (scopes.define text).rename r marks =
      (scopes.rename r marks).define (r.swap (marks.isMarked (some 0)) text) := by
  cases scopes with
  | nil => rw [define, rename_nil, define]
  | cons scope outer =>
      cases marks with
      | nil => rw [rename_unmarked, rename_unmarked, Marks.isMarked_nil, r.swap_false]
      | cons mark marks => rfl

theorem rename_declare (marks : Marks) (scopes : Scopes) (text : String) :
    (scopes.declare text).rename r marks =
      (scopes.rename r marks).declare (r.swap (marks.isMarked (some 0)) text) := by
  cases scopes with
  | nil => rw [declare, rename_nil, declare]
  | cons scope outer =>
      cases marks with
      | nil => rw [rename_unmarked, rename_unmarked, Marks.isMarked_nil, r.swap_false]
      | cons mark marks =>
          rw [declare, rename_cons, declare, Marks.isMarked_cons_zero, Scope.declares,
            Scope.declares, Scope.lookup_rename]
          split <;> rfl

end Scopes

end Lookup

/-! ## Findings -/

/-- The scoping error at the renamed name. -/
def ResolveError.rename (e : ResolveError) : ResolveError := ⟨e.cause, e.name.rename r⟩

namespace Findings

/-- The findings at the renamed names, whose offsets are the same. -/
def rename (f : Findings) : Findings := ⟨f.errors.map (ResolveError.rename r), f.bindings⟩

theorem rename_append (f g : Findings) : (f ++ g).rename r = f.rename r ++ g.rename r := by
  rw [rename, errors_append, bindings_append, List.map_append]
  rfl

theorem rename_errorIf (condition : Bool) (cause : ResolveError.Cause) (name : Name) :
    errorIf condition cause (name.rename r) = (errorIf condition cause name).rename r := by
  cases condition <;> rfl

variable {r} {marks : Marks} {scopes : Scopes} {n : Name}

theorem rename_reference (hn : n.text ≠ r.new) (hnew : scopes.hops? r.new = none)
    (h : n.SpelledIn r marks (scopes.hops? n.text)) :
    reference (scopes.rename r marks) (n.rename r) = (reference scopes n).rename r := by
  have htext : (n.rename r).text = r.swap (marks.isMarked (scopes.hops? n.text)) n.text := h
  rw [reference, reference, htext, Scopes.hops?_rename hn hnew]
  cases scopes.hops? n.text <;> rfl

theorem rename_read (hn : n.text ≠ r.new) (hnew : scopes.hops? r.new = none)
    (h : n.SpelledIn r marks (scopes.hops? n.text)) :
    read (scopes.rename r marks) (n.rename r) = (read scopes n).rename r := by
  have htext : (n.rename r).text = r.swap (marks.isMarked (scopes.hops? n.text)) n.text := h
  rw [read, read, rename_append, ← rename_errorIf, ← rename_reference hn hnew h, htext,
    Scopes.isPending_rename hn hnew]

theorem rename_declaration (h : n.SpelledIn r marks (some 0)) :
    declaration (scopes.rename r marks) (n.rename r) = (declaration scopes n).rename r := by
  have htext : (n.rename r).text = r.swap (marks.isMarked (some 0)) n.text := h
  rw [declaration, declaration, ← rename_errorIf, htext, Scopes.redeclares_rename]

end Findings

section Walk

variable {r} {t : BindingTable} {own : List Name} {marks : Marks} {scopes : Scopes}

theorem Name.SpelledIn.define {n : Name} (h : n.SpelledIn r marks (some 0)) :
    (scopes.rename r marks).define (n.rename r).text = (scopes.define n.text).rename r marks := by
  rw [Scopes.rename_define]
  exact congrArg _ h

theorem Name.SpelledIn.declare {n : Name} (h : n.SpelledIn r marks (some 0)) :
    (scopes.rename r marks).declare (n.rename r).text =
      (scopes.declare n.text).rename r marks := by
  rw [Scopes.rename_declare]
  exact congrArg _ h

theorem Findings.rename_declarations {ns : List Name}
    (h : ∀ n ∈ ns, n.SpelledIn r marks (some 0)) :
    declarations (scopes.rename r marks) (ns.map (Name.rename r)) =
      (declarations scopes ns).rename r := by
  induction ns generalizing scopes with
  | nil => rfl
  | cons n ns ih =>
      obtain ⟨hn, hns⟩ := List.forall_mem_cons.1 h
      rw [List.map_cons, declarations, declarations, rename_append, rename_declaration hn,
        hn.define, ih hns]

theorem Scopes.rename_defineAll {ns : List Name} (h : ∀ n ∈ ns, n.SpelledIn r marks (some 0)) :
    (scopes.rename r marks).defineAll (ns.map (Name.rename r)) =
      (scopes.defineAll ns).rename r marks := by
  induction ns generalizing scopes with
  | nil => rfl
  | cons n ns ih =>
      obtain ⟨hn, hns⟩ := List.forall_mem_cons.1 h
      rw [List.map_cons, defineAll, hn.define, ih hns, defineAll]

theorem Scopes.hops?_defineAll_of_ne {ns : List Name} {text : String}
    (h : ∀ n ∈ ns, n.text ≠ text) : (scopes.defineAll ns).hops? text = scopes.hops? text := by
  induction ns generalizing scopes with
  | nil => rfl
  | cons n ns ih =>
      obtain ⟨hn, hns⟩ := List.forall_mem_cons.1 h
      rw [defineAll, ih hns, hops?_define_of_ne hn.symm]

theorem Stmt.rename_scopesAfter {s : Stmt} (h : s.Spelled r t marks) :
    (s.rename r).scopesAfter (scopes.rename r marks) = (s.scopesAfter scopes).rename r marks := by
  cases s with
  | var name initial =>
      rw [Stmt.rename, scopesAfter, h.1.declare, h.1.define]
      rfl
  | function f =>
      rw [Stmt.rename, scopesAfter, Function.rename_name, h.1.define]
      rfl
  | classDecl name superclass methods => exact h.1.define
  | branch condition yes no =>
      rw [Stmt.rename_branch]
      rfl
  | _ => rfl

theorem Stmt.hops?_scopesAfter {s : Stmt} {text : String} (h : ∀ n ∈ s.names, n.text ≠ text) :
    (s.scopesAfter scopes).hops? text = scopes.hops? text := by
  cases s with
  | var name initial =>
      have hne := (h name List.mem_cons_self).symm
      rw [scopesAfter, Scopes.hops?_define_of_ne hne, Scopes.hops?_declare_of_ne hne]
  | function f =>
      obtain ⟨name, parameters, body⟩ := f
      exact Scopes.hops?_define_of_ne (h name List.mem_cons_self).symm
  | classDecl name superclass methods =>
      exact Scopes.hops?_define_of_ne (h name List.mem_cons_self).symm
  | _ => rfl

theorem Renaming.Ordinary.hops?_ofMethods (ho : r.Ordinary) (hnew : scopes.hops? r.new = none)
    (hasSuperclass : Bool) : (scopes.ofMethods hasSuperclass).hops? r.new = none := by
  have hkeyword : ∀ {keyword : String} {scopes : Scopes}, r.new ≠ keyword →
      scopes.hops? r.new = none → Scopes.hops? ([(keyword, true)] :: scopes) r.new = none := by
    intro keyword scopes hne hnone
    rw [Scopes.hops?_cons, Scope.declares_cons, beq_false_of_ne hne, hnone]
    rfl
  cases hasSuperclass with
  | true => exact hkeyword ho.new_ne_this (hkeyword ho.new_ne_super hnew)
  | false => exact hkeyword ho.new_ne_this hnew

mutual

/-- A walk over a renamed expression finds what a walk over the expression does. -/
theorem Expr.findings_rename (ctx : Context) (ho : r.Ordinary)
    (hnew : scopes.hops? r.new = none) :
    (e : Expr) → e.Bound t own scopes → e.Spelled r t marks → (∀ n ∈ e.names, n.text ≠ r.new) →
      (e.rename r).findings ctx (scopes.rename r marks) = (e.findings ctx scopes).rename r
  | .literal _, _, _, _ => rfl
  | .grouping inner, hb, hs, hn => Expr.findings_rename ctx ho hnew inner hb hs hn
  | .unary _ _ operand, hb, hs, hn => Expr.findings_rename ctx ho hnew operand hb hs hn
  | .binary _ _ left right, hb, hs, hn | .logical _ left right, hb, hs, hn => by
      obtain ⟨hbleft, hbright⟩ := List.forall_mem_append.1 hb
      obtain ⟨hnleft, hnright⟩ := List.forall_mem_append.1 hn
      rw [Expr.rename, Expr.findings, Expr.findings, Findings.rename_append,
        Expr.findings_rename ctx ho hnew left hbleft hs.1 hnleft,
        Expr.findings_rename ctx ho hnew right hbright hs.2 hnright]
  | .variable name, hb, hs, hn => by
      rw [Expr.Spelled, (hb _ List.mem_cons_self).hops] at hs
      exact Findings.rename_read (hn name List.mem_cons_self) hnew hs
  | .assign name value, hb, hs, hn => by
      obtain ⟨hbname, hbvalue⟩ := List.forall_mem_cons.1 hb
      obtain ⟨hnname, hnvalue⟩ := List.forall_mem_cons.1 hn
      have hname := hs.1
      rw [hbname.hops] at hname
      rw [Expr.rename, Expr.findings, Expr.findings, Findings.rename_append,
        Expr.findings_rename ctx ho hnew value hbvalue hs.2 hnvalue,
        Findings.rename_reference hnname hnew hname]
  | .call callee arguments _, hb, hs, hn => by
      obtain ⟨hbcallee, hbarguments⟩ := List.forall_mem_append.1 hb
      obtain ⟨hncallee, hnarguments⟩ := List.forall_mem_append.1 hn
      rw [Expr.rename, Expr.findings, Expr.findings, Findings.rename_append,
        Expr.findings_rename ctx ho hnew callee hbcallee hs.1 hncallee,
        Expr.findingsAll_rename ctx ho hnew arguments hbarguments hs.2 hnarguments]
  | .get object _, hb, hs, hn =>
      Expr.findings_rename ctx ho hnew object hb hs.1 (List.forall_mem_append.1 hn).1
  | .set object property value, hb, hs, hn => by
      obtain ⟨hbobject, hbvalue⟩ := List.forall_mem_append.1 hb
      obtain ⟨hnobject, hnrest⟩ := List.forall_mem_append.1 hn
      have hnvalue := (List.forall_mem_cons.1 hnrest).2
      rw [Expr.rename, Expr.findings, Expr.findings, Findings.rename_append,
        Expr.findings_rename ctx ho hnew object hbobject hs.1 hnobject,
        Expr.findings_rename ctx ho hnew value hbvalue hs.2.2 hnvalue]
  | .this keyword, hb, hs, _ => by
      have hbound := hb _ List.mem_cons_self
      have htext : keyword.text = "this" := hbound.named
      rw [Expr.Spelled, hbound.hops] at hs
      rw [Expr.rename, Expr.findings, Expr.findings]
      split
      · rfl
      · exact Findings.rename_reference (htext ▸ ho.new_ne_this.symm) hnew hs
  | .super keyword _, hb, hs, _ => by
      have hbound := hb _ List.mem_cons_self
      have htext : keyword.text = "super" := hbound.named
      have hkeyword := hs.1
      rw [hbound.hops] at hkeyword
      rw [Expr.rename, Expr.findings, Expr.findings]
      simp only [Findings.rename_append, Findings.rename_errorIf]
      rw [Findings.rename_reference (htext ▸ ho.new_ne_super.symm) hnew hkeyword]

theorem Expr.findingsAll_rename (ctx : Context) (ho : r.Ordinary)
    (hnew : scopes.hops? r.new = none) :
    (es : List Expr) → (∀ ref ∈ Expr.referencesAll es, ref.Bound t own scopes) →
      Expr.SpelledAll r t marks es → (∀ n ∈ Expr.namesAll es, n.text ≠ r.new) →
      Expr.findingsAll ctx (scopes.rename r marks) (Expr.renameAll r es) =
        (Expr.findingsAll ctx scopes es).rename r
  | [], _, _, _ => rfl
  | e :: es, hb, hs, hn => by
      obtain ⟨hbe, hbes⟩ := List.forall_mem_append.1 hb
      obtain ⟨hne, hnes⟩ := List.forall_mem_append.1 hn
      rw [Expr.renameAll, Expr.findingsAll, Expr.findingsAll, Findings.rename_append,
        Expr.findings_rename ctx ho hnew e hbe hs.1 hne,
        Expr.findingsAll_rename ctx ho hnew es hbes hs.2 hnes]

end

theorem Expr.findingsOf?_rename (ctx : Context) (ho : r.Ordinary)
    (hnew : scopes.hops? r.new = none) {e : Option Expr} (hb : ∀ e' ∈ e, e'.Bound t own scopes)
    (hs : ∀ e' ∈ e, e'.Spelled r t marks) (hn : ∀ n ∈ Expr.namesOf? e, n.text ≠ r.new) :
    Expr.findingsOf? ctx (scopes.rename r marks) (e.map (Expr.rename r)) =
      (Expr.findingsOf? ctx scopes e).rename r := by
  cases e with
  | none => rfl
  | some e => exact Expr.findings_rename ctx ho hnew e (hb e rfl) (hs e rfl) hn

/-- The superclass of a class is as far out as it was, and is not the class. -/
theorem Findings.rename_superclass {className : Name} {superclass : Option Name}
    (hnew : scopes.hops? r.new = none) (hkept : className.Kept r)
    (hb : ∀ above ∈ superclass, className.BoundSuperclass t own scopes above)
    (hs : ∀ above ∈ superclass, above.SpelledIn r marks (t.hops? above))
    (hn : ∀ n ∈ className :: superclass.toList, n.text ≠ r.new) :
    Findings.superclass ((scopes.define className.text).rename r marks) (className.rename r)
        (superclass.map (Name.rename r)) =
      (Findings.superclass (scopes.define className.text) className superclass).rename r := by
  cases superclass with
  | none => rfl
  | some above =>
      have hbound := hb above rfl
      have hspelled := hs above rfl
      have hclass := hn className List.mem_cons_self
      have habove := hn above (List.mem_cons_of_mem _ List.mem_cons_self)
      rw [hbound.bound.hops] at hspelled
      have hinside : above.SpelledIn r marks ((scopes.define className.text).hops? above.text) := by
        rw [Scopes.hops?_define_of_ne hbound.ne]
        exact hspelled
      have hfresh : (scopes.define className.text).hops? r.new = none := by
        rw [Scopes.hops?_define_of_ne hclass.symm, hnew]
      -- The clause is not the class's own name, and has not become it.
      have hne : (above.rename r).text ≠ (className.rename r).text := by
        intro heq
        have heq : r.text above.start above.text = className.text := heq.trans hkept
        rcases r.text_cases above.start above.text with htext | ⟨-, htext⟩
        · exact hbound.ne (htext.symm.trans heq)
        · exact hclass (heq.symm.trans htext)
      rw [Option.map_some, superclass, superclass, rename_append, rename_read habove hfresh hinside,
        ← rename_errorIf, beq_false_of_ne hne, beq_false_of_ne hbound.ne]

mutual

/-- A walk over a renamed statement finds what a walk over the statement does. -/
theorem Stmt.findings_rename (ho : r.Ordinary) (ctx : Context) {marks : Marks} {scopes : Scopes}
    (hnew : scopes.hops? r.new = none) :
    (s : Stmt) → s.Bound t own scopes → s.Spelled r t marks → (∀ n ∈ s.names, n.text ≠ r.new) →
      (s.rename r).findings ctx (scopes.rename r marks) = (s.findings ctx scopes).rename r
  | .expression e, hb, hs, hn | .print e, hb, hs, hn =>
      Expr.findings_rename ctx ho hnew e hb hs hn
  | .var name initial, hb, hs, hn => by
      obtain ⟨hname, hinitial⟩ := List.forall_mem_cons.1 hn
      have hinside : (scopes.declare name.text).hops? r.new = none := by
        rw [Scopes.hops?_declare_of_ne hname.symm, hnew]
      rw [Stmt.rename, Stmt.findings, Stmt.findings, Findings.rename_append,
        Findings.rename_declaration hs.1, hs.1.declare,
        Expr.findingsOf?_rename ctx ho hinside hb.2 hs.2 hinitial]
  | .block body, hb, hs, hn => by
      obtain ⟨mark, hs⟩ := hs
      have hinside : Scopes.hops? ([] :: scopes) r.new = none := by
        rw [Scopes.hops?_block, hnew, Option.map_none]
      exact Stmt.findingsAll_rename ho ctx hinside body hb hs hn
  | .branch condition yes none, hb, hs, hn => by
      obtain ⟨hncondition, hnyes⟩ := List.forall_mem_append.1 hn
      rw [Stmt.rename, Stmt.findings, Stmt.findings, Findings.rename_append,
        Expr.findings_rename ctx ho hnew condition hb.1 hs.1 hncondition,
        Stmt.findings_rename ho ctx hnew yes hb.2.2 hs.2 hnyes]
  | .branch condition yes (some no), hb, hs, hn => by
      obtain ⟨hncondition, hnrest⟩ := List.forall_mem_append.1 hn
      obtain ⟨hnyes, hnno⟩ := List.forall_mem_append.1 hnrest
      rw [Stmt.rename, Stmt.findings, Stmt.findings, Findings.rename_append,
        Findings.rename_append,
        Expr.findings_rename ctx ho hnew condition hb.1 hs.1 hncondition,
        Stmt.findings_rename ho ctx hnew yes hb.2.1.2 hs.2.1 hnyes,
        Stmt.findings_rename ho ctx hnew no hb.2.2.2 hs.2.2 hnno]
  | .loop condition body, hb, hs, hn => by
      obtain ⟨hncondition, hnbody⟩ := List.forall_mem_append.1 hn
      rw [Stmt.rename, Stmt.findings, Stmt.findings, Findings.rename_append,
        Expr.findings_rename ctx ho hnew condition hb.1 hs.1 hncondition,
        Stmt.findings_rename ho ctx hnew body hb.2.2 hs.2 hnbody]
  | .function f, hb, hs, hn => by
      have hname : f.name.text ≠ r.new := by
        obtain ⟨name, parameters, body⟩ := f
        exact hn name List.mem_cons_self
      have hinside : (scopes.define f.name.text).hops? r.new = none := by
        rw [Scopes.hops?_define_of_ne hname.symm, hnew]
      rw [Stmt.rename, Stmt.findings, Stmt.findings, Findings.rename_append,
        Function.rename_name, Findings.rename_declaration hs.1, hs.1.define,
        Function.findings_rename ho _ hinside f hb.2 hs.2 hn]
  | .ret keyword value, hb, hs, hn => by
      rw [Stmt.rename, Stmt.findings, Stmt.findings]
      simp only [Findings.rename_append, Findings.rename_errorIf, Option.isSome_map]
      rw [Expr.findingsOf?_rename ctx ho hnew hb hs hn]
  | .classDecl name superclass methods, hb, hs, hn => by
      obtain ⟨hspelled, hkept, habove, hmethods⟩ := hs
      have hnhead : ∀ n ∈ name :: superclass.toList, n.text ≠ r.new := fun n hmem =>
        hn n (List.mem_append_left (Function.namesAll methods) hmem)
      have hnmethods : ∀ n ∈ Function.namesAll methods, n.text ≠ r.new := fun n hmem =>
        hn n (List.mem_append_right (name :: superclass.toList) hmem)
      have hclass : (scopes.define name.text).hops? r.new = none := by
        rw [Scopes.hops?_define_of_ne (hn name List.mem_cons_self).symm, hnew]
      have hinside := ho.hops?_ofMethods hclass superclass.isSome
      rw [Stmt.rename, Stmt.findings, Stmt.findings]
      simp only [Findings.rename_append, Option.isSome_map]
      rw [Findings.rename_declaration hspelled, hspelled.define,
        Findings.rename_superclass hnew hkept hb.2.1 habove hnhead, ← Scopes.rename_ofMethods,
        Function.findingsAll_rename ho _ hinside methods hb.2.2 hmethods hnmethods]

theorem Stmt.findingsAll_rename (ho : r.Ordinary) (ctx : Context) {marks : Marks}
    {scopes : Scopes} (hnew : scopes.hops? r.new = none) :
    (ss : List Stmt) → Stmt.BoundAll t own scopes ss → Stmt.SpelledAll r t marks ss →
      (∀ n ∈ Stmt.namesAll ss, n.text ≠ r.new) →
      Stmt.findingsAll ctx (scopes.rename r marks) (Stmt.renameAll r ss) =
        (Stmt.findingsAll ctx scopes ss).rename r
  | [], _, _, _ => rfl
  | s :: ss, hb, hs, hn => by
      obtain ⟨hns, hnss⟩ := List.forall_mem_append.1 hn
      have hafter : (s.scopesAfter scopes).hops? r.new = none := by
        rw [Stmt.hops?_scopesAfter hns, hnew]
      rw [Stmt.renameAll, Stmt.findingsAll, Stmt.findingsAll, Findings.rename_append,
        Stmt.findings_rename ho ctx hnew s hb.1 hs.1 hns, Stmt.rename_scopesAfter hs.1,
        Stmt.findingsAll_rename ho ctx hafter ss hb.2 hs.2 hnss]

theorem Function.findings_rename (ho : r.Ordinary) (ctx : Context) {marks : Marks}
    {scopes : Scopes} (hnew : scopes.hops? r.new = none) :
    (f : Function) → f.Bound t own scopes → f.Spelled r t marks →
      (∀ n ∈ f.names, n.text ≠ r.new) →
      (f.rename r).findings ctx (scopes.rename r marks) = (f.findings ctx scopes).rename r
  | .mk name parameters body, hb, hs, hn => by
      obtain ⟨-, mark, hparameters, hbody⟩ := hs
      obtain ⟨-, hnrest⟩ := List.forall_mem_cons.1 hn
      obtain ⟨hnparameters, hnbody⟩ := List.forall_mem_append.1 hnrest
      have hinside : (Scopes.defineAll ([] :: scopes) parameters).hops? r.new = none := by
        rw [Scopes.hops?_defineAll_of_ne hnparameters, Scopes.hops?_block, hnew, Option.map_none]
      have hblock : [] :: scopes.rename r marks = Scopes.rename r (mark :: marks) ([] :: scopes) :=
        rfl
      rw [Function.rename, Function.findings, Function.findings, Findings.rename_append, hblock,
        Findings.rename_declarations hparameters, Scopes.rename_defineAll hparameters,
        Stmt.findingsAll_rename ho ctx hinside body hb.2 hbody hnbody]

theorem Function.findingsAll_rename (ho : r.Ordinary) (ctx : Context) {marks : Marks}
    {scopes : Scopes} (hnew : scopes.hops? r.new = none) :
    (fs : List Function) → Function.BoundAll t own scopes fs → Function.SpelledAll r t marks fs →
      (∀ n ∈ Function.namesAll fs, n.text ≠ r.new) →
      Function.findingsAll ctx (scopes.rename r marks) (Function.renameAll r fs) =
        (Function.findingsAll ctx scopes fs).rename r
  | [], _, _, _ => rfl
  | f :: fs, hb, hs, hn => by
      obtain ⟨hnf, hnfs⟩ := List.forall_mem_append.1 hn
      have hmethod : ctx.ofMethod (f.rename r) = ctx.ofMethod f := by
        rw [Context.ofMethod, Context.ofMethod, hs.1.isNamedInit_rename]
      rw [Function.renameAll, Function.findingsAll, Function.findingsAll, Findings.rename_append,
        hmethod, Function.findings_rename ho _ hnew f hb.1 hs.1 hnf,
        Function.findingsAll_rename ho ctx hnew fs hb.2 hs.2 hnfs]

end

end Walk

/-! ## References -/

/-- The reference, renamed. -/
def Reference.rename (q : Reference) : Reference := { q with name := q.name.rename r }

mutual

theorem Expr.references_rename :
    (e : Expr) → (e.rename r).references = e.references.map (Reference.rename r)
  | .literal _ | .variable _ | .this _ | .super _ _ => rfl
  | .grouping inner => Expr.references_rename inner
  | .unary _ _ operand => Expr.references_rename operand
  | .binary _ _ left right | .logical _ left right | .set left _ right => by
      rw [Expr.rename, Expr.references, Expr.references, List.map_append,
        Expr.references_rename left, Expr.references_rename right]
  | .assign name value => by
      rw [Expr.rename, Expr.references, Expr.references, List.map_cons,
        Expr.references_rename value]
      rfl
  | .call callee arguments _ => by
      rw [Expr.rename, Expr.references, Expr.references, List.map_append,
        Expr.references_rename callee, Expr.referencesAll_rename arguments]
  | .get object _ => Expr.references_rename object

theorem Expr.referencesAll_rename :
    (es : List Expr) → Expr.referencesAll (Expr.renameAll r es) =
      (Expr.referencesAll es).map (Reference.rename r)
  | [] => rfl
  | e :: es => by
      rw [Expr.renameAll, Expr.referencesAll, Expr.referencesAll, List.map_append,
        Expr.references_rename e, Expr.referencesAll_rename es]

end

theorem Expr.referencesOf?_rename (e : Option Expr) :
    Expr.referencesOf? (e.map (Expr.rename r)) =
      (Expr.referencesOf? e).map (Reference.rename r) := by
  cases e with
  | none => rfl
  | some e => exact Expr.references_rename r e

mutual

theorem Stmt.references_rename :
    (s : Stmt) → (s.rename r).references = s.references.map (Reference.rename r)
  | .expression e | .print e => Expr.references_rename r e
  | .var _ initial => Expr.referencesOf?_rename r initial
  | .block body => Stmt.referencesAll_rename body
  | .branch condition yes none => by
      rw [Stmt.rename, Stmt.references, Stmt.references, List.map_append,
        Expr.references_rename, Stmt.references_rename yes]
  | .branch condition yes (some no) => by
      rw [Stmt.rename, Stmt.references, Stmt.references, List.map_append, List.map_append,
        Expr.references_rename, Stmt.references_rename yes, Stmt.references_rename no]
  | .loop condition body => by
      rw [Stmt.rename, Stmt.references, Stmt.references, List.map_append,
        Expr.references_rename, Stmt.references_rename body]
  | .function f => Function.references_rename f
  | .ret _ value => Expr.referencesOf?_rename r value
  | .classDecl _ superclass methods => by
      rw [Stmt.rename, Stmt.references, Stmt.references, List.map_append,
        Function.referencesAll_rename methods]
      cases superclass <;> rfl

theorem Stmt.referencesAll_rename :
    (ss : List Stmt) → Stmt.referencesAll (Stmt.renameAll r ss) =
      (Stmt.referencesAll ss).map (Reference.rename r)
  | [] => rfl
  | s :: ss => by
      rw [Stmt.renameAll, Stmt.referencesAll, Stmt.referencesAll, List.map_append,
        Stmt.references_rename s, Stmt.referencesAll_rename ss]

theorem Function.references_rename :
    (f : Function) → (f.rename r).references = f.references.map (Reference.rename r)
  | .mk _ _ body => Stmt.referencesAll_rename body

theorem Function.referencesAll_rename :
    (fs : List Function) → Function.referencesAll (Function.renameAll r fs) =
      (Function.referencesAll fs).map (Reference.rename r)
  | [] => rfl
  | f :: fs => by
      rw [Function.renameAll, Function.referencesAll, Function.referencesAll, List.map_append,
        Function.references_rename f, Function.referencesAll_rename fs]

end

namespace Program

theorem references_rename (p : Program) :
    references (p.map (Stmt.rename r)) = p.references.map (Reference.rename r) := by
  rw [← Stmt.renameAll_eq_map]
  exact Stmt.referencesAll_rename r p

variable {r} {p : Program} {t u : BindingTable} {own : List Name}

theorem findings_rename (ho : r.Ordinary) (hb : Stmt.BoundAll t own [] p)
    (hs : Stmt.SpelledAll r t [] p) (hn : ∀ n ∈ p.names, n.text ≠ r.new) :
    findings (p.map (Stmt.rename r)) = p.findings.rename r := by
  have hwalk := Stmt.findingsAll_rename ho .top rfl p hb hs hn
  rw [Scopes.rename_nil, Stmt.renameAll_eq_map] at hwalk
  exact hwalk

/-- A renamed program is accepted with the table of the program. -/
theorem bind_rename (ho : r.Ordinary) (hb : Stmt.BoundAll t own [] p)
    (hs : Stmt.SpelledAll r t [] p) (hn : ∀ n ∈ p.names, n.text ≠ r.new)
    (hbind : p.bind u = .ok t) : Program.bind (p.map (Stmt.rename r)) u = .ok t := by
  rw [bind_eq_ok_iff] at hbind ⊢
  rw [findings_rename ho hb hs hn]
  exact ⟨congrArg (List.map (ResolveError.rename r)) hbind.1, hbind.2⟩

end Program

end Lox
