import Lox.Proofs.Binding.Bound
import Lox.Proofs.Renaming.Occurrence
import Mathlib.Logic.Equiv.Basic

set_option autoImplicit false

/-! # Renaming and scopes

Of the scopes around a place, those that declare the renamed variable are marked (`Marks`). Seen
from a place, a renaming is right if in a marked scope the old and the new spelling have changed
places, and elsewhere nothing has changed (`Name.SpelledIn`). This can be said of each piece of code
by itself (`Stmt.Spelled`), from the distances in the binding table, and holds of a bound program if
the occurrences of the variable are what is renamed (`Stmt.spelled_of_occurrences`).
-/

namespace Lox

/-! ## Marks -/

/-- Which of the scopes around a place declare the renamed variable, the innermost first. -/
abbrev Marks := List Bool

namespace Marks

/-- The scope so many scopes out is marked. -/
def isMarked (marks : Marks) (hops : Option Nat) : Bool := (hops.bind (marks[·]?)).getD false

@[simp] theorem isMarked_none (marks : Marks) : marks.isMarked none = false := rfl

@[simp] theorem isMarked_nil (hops : Option Nat) : isMarked [] hops = false := by
  cases hops <;> rfl

@[simp] theorem isMarked_cons_zero (mark : Bool) (marks : Marks) :
    isMarked (mark :: marks) (some 0) = mark := rfl

@[simp] theorem isMarked_cons_map (mark : Bool) (marks : Marks) (hops : Option Nat) :
    isMarked (mark :: marks) (hops.map (· + 1)) = marks.isMarked hops := by
  cases hops <;> rfl

end Marks

namespace Renaming

variable (r : Renaming)

/-- In a marked scope the old and the new spelling change places. -/
def swap (mark : Bool) (text : String) : String :=
  if mark then Equiv.swap r.old r.new text else text

@[simp] theorem swap_false (text : String) : r.swap false text = text := rfl

@[simp] theorem swap_old : r.swap true r.old = r.new := Equiv.swap_apply_left r.old r.new

theorem swap_injective (mark : Bool) : Function.Injective (r.swap mark) := by
  intro s s' h
  cases mark with
  | false => exact h
  | true => exact (Equiv.swap r.old r.new).injective h

theorem swap_of_ne {text : String} (hold : text ≠ r.old) (hnew : text ≠ r.new) (mark : Bool) :
    r.swap mark text = text := by
  cases mark with
  | false => rfl
  | true => exact Equiv.swap_apply_of_ne_of_ne hold hnew

/-- The two spellings differ, and are those of identifiers. -/
structure Ordinary : Prop where
  ne : r.old ≠ r.new
  old_ne_this : r.old ≠ "this"
  old_ne_super : r.old ≠ "super"
  new_ne_this : r.new ≠ "this"
  new_ne_super : r.new ≠ "super"

variable {r}

theorem Ordinary.swap_this (h : r.Ordinary) (mark : Bool) : r.swap mark "this" = "this" :=
  r.swap_of_ne h.old_ne_this.symm h.new_ne_this.symm mark

theorem Ordinary.swap_super (h : r.Ordinary) (mark : Bool) : r.swap mark "super" = "super" :=
  r.swap_of_ne h.old_ne_super.symm h.new_ne_super.symm mark

end Renaming

/-! ## Code that is renamed as its scopes are -/

section Judgement

variable (r : Renaming)

/-- The name is not renamed. -/
def Name.Kept (n : Name) : Prop := r.text n.start n.text = n.text

/-- The name gets the spelling that it has in the scope so many scopes out. -/
def Name.SpelledIn (marks : Marks) (hops : Option Nat) (n : Name) : Prop :=
  r.text n.start n.text = r.swap (marks.isMarked hops) n.text

variable (t : BindingTable)

mutual

/-- The names in an expression get the spellings of their scopes. -/
def Expr.Spelled (marks : Marks) : Expr → Prop
  | .literal _ => True
  | .grouping inner => inner.Spelled marks
  | .unary _ _ operand => operand.Spelled marks
  | .binary _ _ left right => left.Spelled marks ∧ right.Spelled marks
  | .logical _ left right => left.Spelled marks ∧ right.Spelled marks
  | .variable name => name.SpelledIn r marks (t.hops? name)
  | .assign name value => name.SpelledIn r marks (t.hops? name) ∧ value.Spelled marks
  | .call callee arguments _ => callee.Spelled marks ∧ Expr.SpelledAll marks arguments
  | .get object property => object.Spelled marks ∧ property.Kept r
  | .set object property value => object.Spelled marks ∧ property.Kept r ∧ value.Spelled marks
  | .this keyword => keyword.SpelledIn r marks (t.hops? keyword)
  | .super keyword method => keyword.SpelledIn r marks (t.hops? keyword) ∧ method.Kept r

/-- The names in expressions get the spellings of their scopes. -/
def Expr.SpelledAll (marks : Marks) : List Expr → Prop
  | [] => True
  | e :: es => e.Spelled marks ∧ Expr.SpelledAll marks es

end

mutual

/-- The names in a statement get the spellings of their scopes. A scope inside may be marked. -/
def Stmt.Spelled (marks : Marks) : Stmt → Prop
  | .expression e | .print e => e.Spelled r t marks
  | .var name initial => name.SpelledIn r marks (some 0) ∧ ∀ e ∈ initial, e.Spelled r t marks
  | .block body => ∃ mark, Stmt.SpelledAll (mark :: marks) body
  | .branch condition yes none => condition.Spelled r t marks ∧ yes.Spelled marks
  | .branch condition yes (some no) =>
    condition.Spelled r t marks ∧ yes.Spelled marks ∧ no.Spelled marks
  | .loop condition body => condition.Spelled r t marks ∧ body.Spelled marks
  | .function f => f.name.SpelledIn r marks (some 0) ∧ f.Spelled marks
  | .ret _ value => ∀ e ∈ value, e.Spelled r t marks
  | .classDecl name superclass methods =>
    name.SpelledIn r marks (some 0) ∧ name.Kept r ∧
      (∀ above ∈ superclass, above.SpelledIn r marks (t.hops? above)) ∧
      Function.SpelledAll (false :: (if superclass.isSome then false :: marks else marks)) methods

/-- The names in statements get the spellings of their scopes. -/
def Stmt.SpelledAll (marks : Marks) : List Stmt → Prop
  | [] => True
  | s :: ss => s.Spelled marks ∧ Stmt.SpelledAll marks ss

/-- The names in a function get the spellings of their scopes. -/
def Function.Spelled (marks : Marks) : Function → Prop
  | .mk name parameters body =>
    name.Kept r ∧ ∃ mark, (∀ n ∈ parameters, n.SpelledIn r (mark :: marks) (some 0)) ∧
      Stmt.SpelledAll (mark :: marks) body

/-- The names in functions get the spellings of their scopes. -/
def Function.SpelledAll (marks : Marks) : List Function → Prop
  | [] => True
  | f :: fs => f.Spelled marks ∧ Function.SpelledAll marks fs

end

end Judgement

section Functions

variable {r : Renaming} {t : BindingTable} {marks : Marks} {f : Function}

theorem Function.Spelled.kept_name (h : f.Spelled r t marks) : f.name.Kept r := by
  obtain ⟨name, parameters, body⟩ := f
  exact h.1

theorem Function.Spelled.isNamedInit_rename (h : f.Spelled r t marks) :
    (f.rename r).isNamedInit = f.isNamedInit := by
  have htext : (f.name.rename r).text = f.name.text := h.kept_name
  rw [isNamedInit, isNamedInit, rename_name, htext]

end Functions

/-! ## What a scope declares -/

/-- The name that a statement declares in the scope that it stands in. -/
def Stmt.declared? : Stmt → Option Name
  | .var name _ => some name
  | .function f => some f.name
  | .classDecl name _ _ => some name
  | _ => none

/-- The names that statements declare in the scope that they stand in. -/
def Stmt.declaredAll (ss : List Stmt) : List Name := ss.filterMap Stmt.declared?

theorem Stmt.declaredAll_cons (s : Stmt) (ss : List Stmt) :
    Stmt.declaredAll (s :: ss) = s.declared?.toList ++ Stmt.declaredAll ss := by
  rw [declaredAll, List.filterMap_cons]
  cases s.declared? <;> rfl

theorem Stmt.declared?_of_isDeclaration {s : Stmt} (h : s.isDeclaration = false) :
    s.declared? = none := by
  cases s with
  | var | function | classDecl => cases h
  | _ => rfl

/-- After a statement the innermost scope declares what the statement does. -/
theorem Stmt.redeclares_scopesAfter (s : Stmt) (scopes : Scopes) (text : String) :
    (s.scopesAfter scopes).redeclares text =
      (scopes.redeclares text ||
        (!scopes.isEmpty && s.declared?.any fun n => text == n.text)) := by
  have hdefine : ∀ own : String, (scopes.define own).redeclares text =
      (scopes.redeclares text || (!scopes.isEmpty && text == own)) := by
    intro own
    rw [Scopes.redeclares_define]
    cases scopes with
    | nil => rfl
    | cons scope outer => exact Bool.or_comm _ _
  cases s with
  | var name initial =>
      rw [scopesAfter, Scopes.redeclares_declare_define]
      exact hdefine name.text
  | function f => exact hdefine f.name.text
  | classDecl name superclass methods => exact hdefine name.text
  | _ => simp [scopesAfter, declared?]

section Distinct

variable {t : BindingTable} {own : List Name} {scopes : Scopes}

/-- What is declared may be declared. -/
theorem Stmt.Bound.declarable {s : Stmt} (h : s.Bound t own scopes) :
    ∀ n ∈ s.declared?, n.Declarable scopes := by
  intro n hn
  cases s with
  | var | function | classDecl =>
      cases hn
      exact h.1
  | _ => cases hn

/-- The names that bound statements declare in a local scope differ, and are new there. -/
theorem Stmt.BoundAll.distinct {ss : List Stmt} (h : Stmt.BoundAll t own scopes ss)
    (hlocal : scopes.isEmpty = false) :
    ((Stmt.declaredAll ss).map Name.text).Nodup ∧
      ∀ n ∈ Stmt.declaredAll ss, scopes.redeclares n.text = false := by
  induction ss generalizing scopes with
  | nil => exact ⟨.nil, nofun⟩
  | cons s ss ih =>
      have hafter : (s.scopesAfter scopes).isEmpty = false := by
        cases s <;> simpa [Stmt.scopesAfter] using hlocal
      obtain ⟨hnodup, hnew⟩ := ih h.2 hafter
      simp only [Stmt.redeclares_scopesAfter, hlocal, Bool.or_eq_false_iff, Bool.not_false,
        Bool.true_and] at hnew
      rw [Stmt.declaredAll_cons]
      cases hs : s.declared? with
      | none => exact ⟨hnodup, fun n hn => (hnew n hn).1⟩
      | some own =>
          have hown := (h.1.declarable own hs).new
          refine ⟨List.nodup_cons.2 ⟨fun hmem => ?_, hnodup⟩, fun n hn => ?_⟩
          · -- A later declaration of the same text is none that bound statements have.
            obtain ⟨n, hn, htext⟩ := List.mem_map.1 hmem
            have hne := (hnew n hn).2
            rw [hs, Option.any_some, htext, beq_self_eq_true] at hne
            cases hne
          · rcases List.mem_cons.1 hn with rfl | hn
            · exact hown
            · exact (hnew n hn).1

/-- So do the names of the parameters and of what the body of a function declares. -/
theorem Name.DeclarableAll.distinct {ns : List Name} {body : List Stmt}
    (h : Name.DeclarableAll scopes ns) (hbody : Stmt.BoundAll t own (scopes.defineAll ns) body)
    (hlocal : scopes.isEmpty = false) :
    ((ns ++ Stmt.declaredAll body).map Name.text).Nodup ∧
      ∀ n ∈ ns ++ Stmt.declaredAll body, scopes.redeclares n.text = false := by
  induction ns generalizing scopes with
  | nil => exact hbody.distinct hlocal
  | cons own ns ih =>
      have hdefine : (scopes.define own.text).isEmpty = false := by simpa using hlocal
      obtain ⟨hnodup, hnew⟩ := ih h.2 hbody hdefine
      simp only [Scopes.redeclares_define, hlocal, Bool.not_false, Bool.true_and,
        Bool.or_eq_false_iff] at hnew
      refine ⟨List.nodup_cons.2 ⟨fun hmem => ?_, hnodup⟩, fun n hn => ?_⟩
      · obtain ⟨n, hn, htext⟩ := List.mem_map.1 hmem
        have hne := (hnew n hn).1
        rw [htext, beq_self_eq_true] at hne
        cases hne
      · rcases List.mem_cons.1 hn with rfl | hn
        · exact h.1.new
        · exact (hnew n hn).2

end Distinct

/-! ## From occurrences -/

/-- The renaming gives another name to this variable. -/
structure Renaming.Renames (r : Renaming) (d : Name) : Prop where
  old : r.old = d.text
  start : d.start ∈ r.starts
  ordinary : r.Ordinary

/-- The name has another spelling than the new one, and is renamed if it stands for the variable. -/
structure Occurrence.Fits (r : Renaming) (d : Name) (o : Occurrence) : Prop where
  fresh : o.name.text ≠ r.new
  mem_starts_iff : o.name.start ∈ r.starts ↔ o.meaning = some d

/-- The name of the variable means the variable where the scope that it leads to is marked. -/
structure Meanings.Fits (d : Name) (m : Meanings) (marks : Marks) (scopes : Scopes) : Prop where
  top : scopes = [] → marks = []
  meaning : m.of d = some d ↔ marks.isMarked (scopes.hops? d.text) = true

section Walk

variable {r : Renaming} {d : Name} {t : BindingTable} {own : List Name} {marks : Marks}
  {scopes : Scopes} {m : Meanings}

theorem Name.spelledIn_of_ne {n : Name} (hold : n.text ≠ r.old) (hnew : n.text ≠ r.new)
    (hops : Option Nat) : n.SpelledIn r marks hops := by
  rw [SpelledIn, r.text_of_ne hold, r.swap_of_ne hold hnew]

/-- A name that stands for nothing is not renamed. -/
theorem Occurrence.Fits.kept {n : Name} (h : Occurrence.Fits r d ⟨n, none⟩) : n.Kept r := by
  refine r.text_of_not_mem (fun hmem => ?_) n.text
  have hmeaning := h.mem_starts_iff.1 hmem
  cases hmeaning

/-- A name with the old spelling is renamed as its scope is if it stands for the variable just where
that scope is marked. -/
theorem Occurrence.Fits.spelledIn {o : Occurrence} {hops : Option Nat} (h : o.Fits r d)
    (hmark : o.name.text = r.old → (o.meaning = some d ↔ marks.isMarked hops = true)) :
    o.name.SpelledIn r marks hops := by
  by_cases hold : o.name.text = r.old
  · rw [Name.SpelledIn, hold]
    cases hmarked : marks.isMarked hops with
    | true =>
        have hmem := h.mem_starts_iff.2 ((hmark hold).2 hmarked)
        rw [r.text_of_mem hmem, r.swap_old]
    | false =>
        have hmem : o.name.start ∉ r.starts := by
          intro hmem
          rw [(hmark hold).1 (h.mem_starts_iff.1 hmem)] at hmarked
          cases hmarked
        exact r.text_of_not_mem hmem r.old
  · exact Name.spelledIn_of_ne hold h.fresh hops

/-- A reference is renamed as the scope that it leads to. -/
theorem Meanings.Fits.spelledIn (hr : r.Renames d) (hm : m.Fits d marks scopes) {n : Name}
    (h : Occurrence.Fits r d ⟨n, m.of n⟩) : n.SpelledIn r marks (scopes.hops? n.text) := by
  refine h.spelledIn fun hold => ?_
  have htext : n.text = d.text := hold.trans hr.old
  have hmeaning := hm.meaning
  rw [Meanings.of, ← htext] at hmeaning
  exact hmeaning

/-! ### Declarations -/

/-- Of the names that differ and are declared in one scope, the variable is one if the scope is
marked. -/
theorem Occurrence.Fits.spelledIn_declared (hr : r.Renames d) {ns : List Name}
    (hnodup : (ns.map Name.text).Nodup) {n : Name} (hn : n ∈ ns) {meaning : Option Name}
    (h : Occurrence.Fits r d ⟨n, meaning⟩) (hmeaning : ∀ v ∈ meaning, v = n) :
    n.SpelledIn r (decide (d ∈ ns) :: marks) (some 0) := by
  refine h.spelledIn fun hold => ?_
  rw [Marks.isMarked_cons_zero, decide_eq_true_iff]
  constructor
  · intro hd
    obtain rfl := hmeaning d hd
    exact hn
  · intro hd
    have hnd : n = d := List.inj_on_of_nodup_map hnodup hn hd (hold.trans hr.old)
    subst hnd
    exact h.mem_starts_iff.1 hr.start

/-- A name is declared that is renamed as its scope. -/
theorem Meanings.Fits.cons (hr : r.Renames d) (hm : m.Fits d marks scopes) {n : Name}
    {meaning : Option Name} (h : Occurrence.Fits r d ⟨n, meaning⟩)
    (hn : n.SpelledIn r marks (some 0)) :
    Meanings.Fits d ((n.text, meaning) :: m) marks (scopes.define n.text) := by
  refine ⟨fun hempty => hm.top ?_, ?_⟩
  · cases scopes with
    | nil => rfl
    | cons scope outer => cases hempty
  by_cases htext : d.text = n.text
  · have hof : Meanings.of ((n.text, meaning) :: m) d = meaning := by
      rw [Meanings.of, List.lookup_cons, htext, beq_self_eq_true]
      rfl
    have hmarked : marks.isMarked ((scopes.define n.text).hops? d.text) =
        marks.isMarked (some 0) := by
      cases scopes with
      | nil => rw [hm.top rfl, Marks.isMarked_nil, Marks.isMarked_nil]
      | cons scope outer =>
          rw [Scopes.define, Scopes.hops?_cons, Scope.declares_cons, htext, beq_self_eq_true]
          rfl
    rw [hof, hmarked, ← h.mem_starts_iff]
    have hold : n.text = r.old := htext.symm.trans hr.old.symm
    rw [Name.SpelledIn, hold] at hn
    constructor
    · intro hmem
      rw [r.text_of_mem hmem] at hn
      cases hmark : marks.isMarked (some 0) with
      | true => rfl
      | false =>
          rw [hmark] at hn
          exact absurd hn.symm hr.ordinary.ne
    · intro hmark
      rw [hmark, r.swap_old] at hn
      by_contra hmem
      rw [r.text_of_not_mem hmem] at hn
      exact hr.ordinary.ne hn
  · have hof : Meanings.of ((n.text, meaning) :: m) d = m.of d := by
      rw [Meanings.of, List.lookup_cons, beq_false_of_ne htext]
      rfl
    rw [hof, Scopes.hops?_define_of_ne htext]
    exact hm.meaning

theorem Meanings.Fits.of_hops {scopes' : Scopes} (hm : m.Fits d marks scopes)
    (hempty : scopes'.isEmpty = scopes.isEmpty)
    (hhops : scopes'.hops? d.text = scopes.hops? d.text) : m.Fits d marks scopes' := by
  refine ⟨fun h => hm.top ?_, by rw [hhops]; exact hm.meaning⟩
  rw [← List.isEmpty_iff, ← hempty, h]
  rfl

theorem Meanings.Fits.block (hm : m.Fits d marks scopes) (mark : Bool) :
    m.Fits d (mark :: marks) ([] :: scopes) := by
  refine ⟨nofun, ?_⟩
  rw [Scopes.hops?_block, Marks.isMarked_cons_map]
  exact hm.meaning

theorem Meanings.Fits.inner (hm : m.Fits d marks scopes) {keyword : String}
    (hne : d.text ≠ keyword) : m.Fits d (false :: marks) ([(keyword, true)] :: scopes) := by
  have hscope : Scope.declares [(keyword, true)] d.text = false := by
    rw [Scope.declares_cons, beq_false_of_ne hne]
    rfl
  refine ⟨nofun, ?_⟩
  rw [Scopes.hops?_cons, hscope, if_neg Bool.false_ne_true, Marks.isMarked_cons_map]
  exact hm.meaning

theorem Meanings.Fits.ofMethods (hr : r.Renames d) (hm : m.Fits d marks scopes)
    (hasSuperclass : Bool) :
    m.Fits d (false :: (if hasSuperclass then false :: marks else marks))
      (scopes.ofMethods hasSuperclass) := by
  have hthis : d.text ≠ "this" := hr.old ▸ hr.ordinary.old_ne_this
  have hsuper : d.text ≠ "super" := hr.old ▸ hr.ordinary.old_ne_super
  cases hasSuperclass with
  | true => exact (hm.inner hsuper).inner hthis
  | false => exact hm.inner hthis

theorem Scopes.hops?_declare (scopes : Scopes) (own text : String) :
    (scopes.declare own).hops? text = (scopes.define own).hops? text := by
  by_cases htext : text = own
  · subst htext
    cases scopes with
    | nil => rfl
    | cons scope outer =>
        rw [declare, define]
        split
        · rename_i hown
          rw [hops?_cons, hops?_cons, hown, Scope.declares_cons, beq_self_eq_true]
          rfl
        · simp [hops?_cons, Scope.declares_cons]
  · rw [hops?_declare_of_ne htext, hops?_define_of_ne htext]

theorem Scopes.hops?_declare_define (scopes : Scopes) (own text : String) :
    ((scopes.declare own).define own).hops? text = (scopes.define own).hops? text := by
  by_cases htext : text = own
  · subst htext
    cases scopes with
    | nil => rfl
    | cons scope outer =>
        rw [declare]
        split <;> simp [define, hops?_cons, Scope.declares_cons]
  · rw [hops?_define_of_ne htext, hops?_declare_of_ne htext, hops?_define_of_ne htext]

/-! ### Trees -/

mutual

/-- An expression gets the spellings of its scopes if the renaming fits its occurrences. -/
theorem Expr.spelled_of_occurrences (hr : r.Renames d) (hm : m.Fits d marks scopes) :
    (e : Expr) → e.Bound t own scopes → (∀ o ∈ e.occurrences m, o.Fits r d) →
      e.Spelled r t marks
  | .literal _, _, _ => trivial
  | .grouping inner, hb, ho => Expr.spelled_of_occurrences hr hm inner hb ho
  | .unary _ _ operand, hb, ho => Expr.spelled_of_occurrences hr hm operand hb ho
  | .binary _ _ left right, hb, ho | .logical _ left right, hb, ho => by
      obtain ⟨hleft, hright⟩ := List.forall_mem_append.1 hb
      obtain ⟨holeft, horight⟩ := List.forall_mem_append.1 ho
      exact ⟨Expr.spelled_of_occurrences hr hm left hleft holeft,
        Expr.spelled_of_occurrences hr hm right hright horight⟩
  | .variable name, hb, ho => by
      rw [Expr.Spelled, (hb _ List.mem_cons_self).hops]
      exact hm.spelledIn hr (ho _ List.mem_cons_self)
  | .assign name value, hb, ho => by
      obtain ⟨hname, hvalue⟩ := List.forall_mem_cons.1 hb
      obtain ⟨honame, hovalue⟩ := List.forall_mem_cons.1 ho
      refine ⟨?_, Expr.spelled_of_occurrences hr hm value hvalue hovalue⟩
      rw [hname.hops]
      exact hm.spelledIn hr honame
  | .call callee arguments _, hb, ho => by
      obtain ⟨hcallee, harguments⟩ := List.forall_mem_append.1 hb
      obtain ⟨hocallee, hoarguments⟩ := List.forall_mem_append.1 ho
      exact ⟨Expr.spelled_of_occurrences hr hm callee hcallee hocallee,
        Expr.spelledAll_of_occurrences hr hm arguments harguments hoarguments⟩
  | .get object property, hb, ho => by
      obtain ⟨hoobject, hoproperty⟩ := List.forall_mem_append.1 ho
      exact ⟨Expr.spelled_of_occurrences hr hm object hb hoobject,
        (hoproperty _ List.mem_cons_self).kept⟩
  | .set object property value, hb, ho => by
      obtain ⟨hobject, hvalue⟩ := List.forall_mem_append.1 hb
      obtain ⟨hoobject, horest⟩ := List.forall_mem_append.1 ho
      obtain ⟨hoproperty, hovalue⟩ := List.forall_mem_cons.1 horest
      exact ⟨Expr.spelled_of_occurrences hr hm object hobject hoobject, hoproperty.kept,
        Expr.spelled_of_occurrences hr hm value hvalue hovalue⟩
  | .this keyword, hb, _ => by
      have htext : keyword.text = "this" := (hb _ List.mem_cons_self).named
      exact Name.spelledIn_of_ne (htext ▸ hr.ordinary.old_ne_this.symm)
        (htext ▸ hr.ordinary.new_ne_this.symm) _
  | .super keyword method, hb, ho => by
      have htext : keyword.text = "super" := (hb _ List.mem_cons_self).named
      exact ⟨Name.spelledIn_of_ne (htext ▸ hr.ordinary.old_ne_super.symm)
        (htext ▸ hr.ordinary.new_ne_super.symm) _, (ho _ List.mem_cons_self).kept⟩

theorem Expr.spelledAll_of_occurrences (hr : r.Renames d) (hm : m.Fits d marks scopes) :
    (es : List Expr) → (∀ ref ∈ Expr.referencesAll es, ref.Bound t own scopes) →
      (∀ o ∈ Expr.occurrencesAll m es, o.Fits r d) → Expr.SpelledAll r t marks es
  | [], _, _ => trivial
  | e :: es, hb, ho => by
      obtain ⟨he, hes⟩ := List.forall_mem_append.1 hb
      obtain ⟨hoe, hoes⟩ := List.forall_mem_append.1 ho
      exact ⟨Expr.spelled_of_occurrences hr hm e he hoe,
        Expr.spelledAll_of_occurrences hr hm es hes hoes⟩

end

theorem Expr.spelledOf?_of_occurrences (hr : r.Renames d) (hm : m.Fits d marks scopes)
    {initial : Option Expr} (hb : ∀ e ∈ initial, e.Bound t own scopes)
    (ho : ∀ o ∈ Expr.occurrencesOf? m initial, o.Fits r d) :
    ∀ e ∈ initial, e.Spelled r t marks := by
  intro e he
  cases he
  exact Expr.spelled_of_occurrences hr hm e (hb e rfl) ho

/-- What statements declare occurs in them, as itself or as something else than a variable. At the
top level it is something else. -/
theorem Stmt.exists_occurrence {isLocal : Bool} {ss : List Stmt} {n : Name}
    (hn : n ∈ Stmt.declaredAll ss) :
    ∃ meaning : Option Name, ⟨n, meaning⟩ ∈ Stmt.occurrencesAll isLocal m ss ∧
      ∀ v ∈ meaning, isLocal = true ∧ v = n := by
  induction ss generalizing m with
  | nil => cases hn
  | cons s ss ih =>
      rw [Stmt.declaredAll_cons, List.mem_append] at hn
      rw [Stmt.occurrencesAll]
      rcases hn with hn | hn
      · cases s with
        | var name initial =>
            obtain rfl := List.mem_singleton.1 hn
            refine ⟨_, List.mem_append_left _ List.mem_cons_self, fun v hv => ?_⟩
            cases isLocal with
            | true => exact ⟨rfl, (Option.some.inj hv).symm⟩
            | false => cases hv
        | function f =>
            obtain rfl := List.mem_singleton.1 hn
            obtain ⟨name, parameters, body⟩ := f
            exact ⟨none, List.mem_append_left _ List.mem_cons_self, nofun⟩
        | classDecl name superclass methods =>
            obtain rfl := List.mem_singleton.1 hn
            exact ⟨none, List.mem_append_left _ List.mem_cons_self, nofun⟩
        | _ => cases hn
      · obtain ⟨meaning, hmem, hmeaning⟩ := ih (m := s.meaningsAfter isLocal m) hn
        exact ⟨meaning, List.mem_append_right _ hmem, hmeaning⟩

/-- What is declared in a local scope is renamed as the scope, which is marked if the variable is
declared there. -/
theorem Stmt.spelledIn_declared (marks : Marks) (hr : r.Renames d) (ns : List Name)
    {body : List Stmt}
    (hnodup : ((ns ++ Stmt.declaredAll body).map Name.text).Nodup)
    (hparameters : ∀ n ∈ ns, Occurrence.Fits r d ⟨n, some n⟩)
    (hbody : ∀ o ∈ Stmt.occurrencesAll true m body, o.Fits r d) :
    ∀ n ∈ ns ++ Stmt.declaredAll body,
      n.SpelledIn r (decide (d ∈ ns ++ Stmt.declaredAll body) :: marks) (some 0) := by
  intro n hn
  rcases List.mem_append.1 hn with hparameter | hdeclared
  · have hmeaning : ∀ v ∈ some n, v = n := fun v hv => (Option.some.inj hv).symm
    exact (hparameters n hparameter).spelledIn_declared hr hnodup hn hmeaning
  · obtain ⟨meaning, hmem, hmeaning⟩ := Stmt.exists_occurrence (m := m) hdeclared
    exact (hbody _ hmem).spelledIn_declared hr hnodup hn fun v hv => (hmeaning v hv).2

/-- After a statement, the name of the variable means what it should. -/
theorem Meanings.Fits.after (hr : r.Renames d) {isLocal : Bool} {s : Stmt}
    (hm : m.Fits d marks scopes) (ho : ∀ o ∈ s.occurrences isLocal m, o.Fits r d)
    (hdeclared : ∀ n ∈ s.declared?, n.SpelledIn r marks (some 0)) :
    (s.meaningsAfter isLocal m).Fits d marks (s.scopesAfter scopes) := by
  cases s with
  | var name initial =>
      refine (hm.cons hr (ho _ List.mem_cons_self) (hdeclared name rfl)).of_hops ?_ ?_
      · simp [Stmt.scopesAfter]
      · exact Scopes.hops?_declare_define scopes name.text d.text
  | function f =>
      obtain ⟨name, parameters, body⟩ := f
      exact hm.cons hr (ho _ List.mem_cons_self) (hdeclared name rfl)
  | classDecl name superclass methods =>
      exact hm.cons hr (ho _ List.mem_cons_self) (hdeclared name rfl)
  | _ => exact hm

theorem Meanings.Fits.afterParameters (hr : r.Renames d) {ns : List Name}
    (hm : m.Fits d marks scopes) (ho : ∀ n ∈ ns, Occurrence.Fits r d ⟨n, some n⟩)
    (hdeclared : ∀ n ∈ ns, n.SpelledIn r marks (some 0)) :
    (m.afterParameters ns).Fits d marks (scopes.defineAll ns) := by
  induction ns generalizing m scopes with
  | nil => exact hm
  | cons n ns ih =>
      rw [List.forall_mem_cons] at ho hdeclared
      exact ih (hm.cons hr ho.1 hdeclared.1) ho.2 hdeclared.2

mutual

/-- A bound statement gets the spellings of its scopes if the renaming fits its occurrences. -/
theorem Stmt.spelled_of_occurrences (hr : r.Renames d) {isLocal : Bool} {m : Meanings}
    {marks : Marks} {scopes : Scopes} (hm : m.Fits d marks scopes) :
    (s : Stmt) → s.Bound t own scopes → (∀ o ∈ s.occurrences isLocal m, o.Fits r d) →
      (∀ n ∈ s.declared?, n.SpelledIn r marks (some 0)) → s.Spelled r t marks
  | .expression e, hb, ho, _ | .print e, hb, ho, _ => Expr.spelled_of_occurrences hr hm e hb ho
  | .var name initial, hb, ho, hdeclared => by
      obtain ⟨honame, hoinitial⟩ := List.forall_mem_cons.1 ho
      have hname := hdeclared name rfl
      have hempty : (scopes.declare name.text).isEmpty =
          (scopes.define name.text).isEmpty := by simp
      have hinside := (hm.cons hr honame hname).of_hops hempty
        (Scopes.hops?_declare scopes name.text d.text)
      exact ⟨hname, Expr.spelledOf?_of_occurrences hr hinside hb.2 hoinitial⟩
  | .block body, hb, ho, _ => by
      have hnodup := (Stmt.BoundAll.distinct hb rfl).1
      have hspelled := Stmt.spelledIn_declared marks hr [] hnodup nofun ho
      exact ⟨_, Stmt.spelledAll_of_occurrences hr (hm.block _) body hb ho hspelled⟩
  | .branch condition yes none, hb, ho, _ => by
      obtain ⟨hocondition, hoyes⟩ := List.forall_mem_append.1 ho
      have hyes := Stmt.declared?_of_isDeclaration hb.2.1
      exact ⟨Expr.spelled_of_occurrences hr hm condition hb.1 hocondition,
        Stmt.spelled_of_occurrences hr hm yes hb.2.2 hoyes (by simp [hyes])⟩
  | .branch condition yes (some no), hb, ho, _ => by
      obtain ⟨hocondition, horest⟩ := List.forall_mem_append.1 ho
      obtain ⟨hoyes, hono⟩ := List.forall_mem_append.1 horest
      have hyes := Stmt.declared?_of_isDeclaration hb.2.1.1
      have hno := Stmt.declared?_of_isDeclaration hb.2.2.1
      exact ⟨Expr.spelled_of_occurrences hr hm condition hb.1 hocondition,
        Stmt.spelled_of_occurrences hr hm yes hb.2.1.2 hoyes (by simp [hyes]),
        Stmt.spelled_of_occurrences hr hm no hb.2.2.2 hono (by simp [hno])⟩
  | .loop condition body, hb, ho, _ => by
      obtain ⟨hocondition, hobody⟩ := List.forall_mem_append.1 ho
      have hbody := Stmt.declared?_of_isDeclaration hb.2.1
      exact ⟨Expr.spelled_of_occurrences hr hm condition hb.1 hocondition,
        Stmt.spelled_of_occurrences hr hm body hb.2.2 hobody (by simp [hbody])⟩
  | .function f, hb, ho, hdeclared => by
      have hname := hdeclared f.name rfl
      obtain ⟨name, parameters, body⟩ := f
      have hinside := hm.cons hr (ho _ List.mem_cons_self) hname
      exact ⟨hname, Function.spelled_of_occurrences hr hinside _ hb.2 ho⟩
  | .ret _ value, hb, ho, _ => Expr.spelledOf?_of_occurrences hr hm hb ho
  | .classDecl name superclass methods, hb, ho, hdeclared => by
      obtain ⟨honame, horest⟩ := List.forall_mem_cons.1 ho
      obtain ⟨hoabove, homethods⟩ := List.forall_mem_append.1 horest
      have hname := hdeclared name rfl
      have hinside := hm.cons hr honame hname
      refine ⟨hname, honame.kept, fun above habove => ?_,
        Function.spelledAll_of_occurrences hr (hinside.ofMethods hr superclass.isSome) methods
          hb.2.2 homethods⟩
      cases habove
      have hbound := hb.2.1 above rfl
      -- The clause names another class, which the declaration of this one does not hide.
      rw [hbound.bound.hops]
      show above.SpelledIn r marks (scopes.hops? above.text)
      rw [← Scopes.hops?_define_of_ne hbound.ne]
      exact hinside.spelledIn hr (hoabove _ List.mem_cons_self)

theorem Stmt.spelledAll_of_occurrences (hr : r.Renames d) {isLocal : Bool} {m : Meanings}
    {marks : Marks} {scopes : Scopes} (hm : m.Fits d marks scopes) :
    (ss : List Stmt) → Stmt.BoundAll t own scopes ss →
      (∀ o ∈ Stmt.occurrencesAll isLocal m ss, o.Fits r d) →
      (∀ n ∈ Stmt.declaredAll ss, n.SpelledIn r marks (some 0)) → Stmt.SpelledAll r t marks ss
  | [], _, _, _ => trivial
  | s :: ss, hb, ho, hdeclared => by
      obtain ⟨hos, hoss⟩ := List.forall_mem_append.1 ho
      rw [Stmt.declaredAll_cons, List.forall_mem_append] at hdeclared
      have hs : ∀ n ∈ s.declared?, n.SpelledIn r marks (some 0) :=
        fun n hn => hdeclared.1 n (Option.mem_toList.2 hn)
      exact ⟨Stmt.spelled_of_occurrences hr hm s hb.1 hos hs,
        Stmt.spelledAll_of_occurrences hr (hm.after hr hos hs) ss hb.2 hoss hdeclared.2⟩

theorem Function.spelled_of_occurrences (hr : r.Renames d) {m : Meanings} {marks : Marks}
    {scopes : Scopes} (hm : m.Fits d marks scopes) :
    (f : Function) → f.Bound t own scopes → (∀ o ∈ f.occurrences m, o.Fits r d) →
      f.Spelled r t marks
  | .mk name parameters body, hb, ho => by
      obtain ⟨honame, horest⟩ := List.forall_mem_cons.1 ho
      obtain ⟨hoparameters, hobody⟩ := List.forall_mem_append.1 horest
      have hparameters : ∀ n ∈ parameters, Occurrence.Fits r d ⟨n, some n⟩ :=
        fun n hn => hoparameters _ (List.mem_map_of_mem hn)
      have hnodup := (Name.DeclarableAll.distinct hb.1 hb.2 rfl).1
      have hspelled := Stmt.spelledIn_declared marks hr parameters hnodup hparameters hobody
      obtain ⟨hns, hdeclared⟩ := List.forall_mem_append.1 hspelled
      have hinside := (hm.block (decide (d ∈ parameters ++ Stmt.declaredAll body))).afterParameters
        hr hparameters hns
      exact ⟨honame.kept, _, hns,
        Stmt.spelledAll_of_occurrences hr hinside body hb.2 hobody hdeclared⟩

theorem Function.spelledAll_of_occurrences (hr : r.Renames d) {m : Meanings} {marks : Marks}
    {scopes : Scopes} (hm : m.Fits d marks scopes) :
    (fs : List Function) → Function.BoundAll t own scopes fs →
      (∀ o ∈ Function.occurrencesAll m fs, o.Fits r d) → Function.SpelledAll r t marks fs
  | [], _, _ => trivial
  | f :: fs, hb, ho => by
      obtain ⟨hof, hofs⟩ := List.forall_mem_append.1 ho
      exact ⟨Function.spelled_of_occurrences hr hm f hb.1 hof,
        Function.spelledAll_of_occurrences hr hm fs hb.2 hofs⟩

end

/-- In a bound program, what is renamed gets the spellings of its scopes if it is the occurrences of
the variable. Nothing at the top level is in a scope. -/
theorem Program.spelled_of_occurrences (hr : r.Renames d) {p : Program}
    (hb : Stmt.BoundAll t own [] p) (ho : ∀ o ∈ p.occurrences, o.Fits r d) :
    Stmt.SpelledAll r t [] p := by
  have hm : Meanings.Fits d [] [] [] := by
    constructor
    · intro _
      rfl
    · constructor <;> intro h <;> cases h
  refine Stmt.spelledAll_of_occurrences hr hm p hb ho fun n hn => ?_
  obtain ⟨meaning, hmem, hmeaning⟩ := Stmt.exists_occurrence hn
  refine (ho _ hmem).spelledIn fun _ => ?_
  constructor
  · intro hd
    have hlocal := (hmeaning d hd).1
    cases hlocal
  · intro hmarked
    cases hmarked

end Walk

end Lox
