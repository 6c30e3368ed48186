import Lox.Proofs.Drawing.Parser
import Lox.Proofs.Parsing.Yield
import Mathlib.Data.List.Nodup

set_option autoImplicit false

/-! # What parsers that draw identities have in common with those that do not

`Drawing.Follows` compares a parser that draws with one that does not, on the same tokens. They
read the same tokens, note the same errors and fail alike, also if the one fails after it has drawn;
and what they give is the same tree up to the numbers in its names. The identities in it were drawn
by this very parser, no two at once: this is said for each number by itself, as a count that adds up
from the parts of a tree. The numbers in trees that are handed to a parser are given to it.

The rules follow the shape of a parser.
-/

namespace Lox

/-- A kind of trees, with what identities are for them. -/
structure Shape (α : Type) where
  references : α → List Reference
  /-- Forgets the identities of references. -/
  erase : α → α
  /-- Forgets all numbers but the lines. -/
  bare : α → α

namespace Shape

/-- How often a number is an identity in a tree. -/
def tally {α : Type} (s : Shape α) (k : Nat) (a : α) : Nat := Reference.tally k (s.references a)

/-- The first tree has its identities drawn, and is the second one otherwise. -/
def Agrees {α : Type} (s : Shape α) (a' a : α) : Prop := s.erase a' = s.bare a

/-- An expression. -/
def expr : Shape Expr := ⟨Expr.references, Expr.erase, Expr.renumber .bare⟩

/-- Expressions. -/
def exprs : Shape (List Expr) :=
  ⟨Expr.referencesAll, List.map Expr.erase, List.map (Expr.renumber .bare)⟩

/-- An expression that may be missing. -/
def maybeExpr : Shape (Option Expr) :=
  ⟨Expr.referencesOf?, Option.map Expr.erase, Option.map (Expr.renumber .bare)⟩

/-- The name of a superclass, if a class has one. -/
def superclass : Shape (Option Name) :=
  ⟨fun n => (n.map (⟨.variable, ·⟩)).toList, Option.map (Name.renumber .bare),
    Option.map (Name.renumber .bare)⟩

/-- A statement. -/
def stmt : Shape Stmt := ⟨Stmt.references, Stmt.erase, Stmt.renumber .bare⟩

/-- Statements. -/
def stmts : Shape (List Stmt) :=
  ⟨Stmt.referencesAll, List.map Stmt.erase, List.map (Stmt.renumber .bare)⟩

/-- A statement that may be missing. -/
def maybeStmt : Shape (Option Stmt) :=
  ⟨fun s => Stmt.referencesAll s.toList, Option.map Stmt.erase, Option.map (Stmt.renumber .bare)⟩

/-- A function. -/
def function : Shape Function := ⟨Function.references, Function.erase, Function.renumber .bare⟩

/-- Functions. -/
def functions : Shape (List Function) :=
  ⟨Function.referencesAll, List.map Function.erase, List.map (Function.renumber .bare)⟩

end Shape

namespace Drawing

/-- Whether a number is drawn as the counter goes from one number to another. -/
def between (k before after : Nat) : Nat := if before < k ∧ k ≤ after then 1 else 0

/-- The first parser does what the second one does, and draws the identities in what it gives,
other than those that were given to it. -/
def Follows {α : Type} (k given : Nat) (s : Shape α) (p : Drawing α) (q : Parser α) : Prop :=
  ∀ d : Drawer,
    match q d.cursor with
    | .ok a c =>
      ∃ a' drawn, p d = .ok a' ⟨c, drawn⟩ ∧ s.Agrees a' a ∧ d.drawn ≤ drawn ∧
        s.tally k a' ≤ given + between k d.drawn drawn
    | .error e c => ∃ drawn, p d = .error e ⟨c, drawn⟩ ∧ d.drawn ≤ drawn

variable {α β : Type} {k given : Nat} {s : Shape α} {t : Shape β}

theorem between_add {before mid after : Nat} (h : before ≤ mid) (h' : mid ≤ after) :
    between k before mid + between k mid after = between k before after := by
  unfold between
  split <;> split <;> split <;> omega

theorem bind_of_ok {p : Drawing α} {f : α → Drawing β} {d d' : Drawer} {a : α}
    (h : p d = .ok a d') : (p >>= f) d = f a d' := by
  show EStateM.bind p f d = _
  rw [EStateM.bind, h]

theorem bind_of_error {p : Drawing α} {f : α → Drawing β} {d d' : Drawer} {e : Failure}
    (h : p d = .error e d') : (p >>= f) d = .error e d' := by
  show EStateM.bind p f d = _
  rw [EStateM.bind, h]

/-! ## What a parser has drawn -/

section Drawn

variable {p : Drawing α} {q : Parser α} {d d' : Drawer}

theorem Follows.drawn_le (h : Follows k given s p q) {result : α} (hp : p d = .ok result d') :
    d.drawn ≤ d'.drawn := by
  have hrun := h d
  split at hrun
  · obtain ⟨a', drawn, hd, -, hle, -⟩ := hrun
    cases hp.symm.trans hd
    exact hle
  · obtain ⟨drawn, hd, -⟩ := hrun
    cases hp.symm.trans hd

theorem Follows.drawn_le_of_error (h : Follows k given s p q) {e : Failure}
    (hp : p d = .error e d') : d.drawn ≤ d'.drawn := by
  have hrun := h d
  split at hrun
  · obtain ⟨a', drawn, hd, -⟩ := hrun
    cases hp.symm.trans hd
  · obtain ⟨drawn, hd, hle⟩ := hrun
    cases hp.symm.trans hd
    exact hle

/-- The identities in what is given are new, and differ. -/
theorem Follows.ids (h : ∀ k, Follows k 0 s p q) {a : α} (hp : p d = .ok a d') :
    (Reference.ids (s.references a)).Nodup ∧
      ∀ i ∈ Reference.ids (s.references a), d.drawn < i ∧ i ≤ d'.drawn := by
  have hcount : ∀ k, (Reference.ids (s.references a)).count k ≤ between k d.drawn d'.drawn := by
    intro k
    have hrun := h k d
    split at hrun
    · obtain ⟨a', drawn, hd, -, -, htally⟩ := hrun
      cases hp.symm.trans hd
      exact Nat.le_trans htally (Nat.le_of_eq (Nat.zero_add _))
    · obtain ⟨drawn, hd, -⟩ := hrun
      cases hp.symm.trans hd
  constructor
  · refine List.nodup_iff_count_le_one.2 fun k => Nat.le_trans (hcount k) ?_
    unfold between
    split <;> omega
  · intro i hi
    have hpos := Nat.lt_of_lt_of_le (List.count_pos_iff.2 hi) (hcount i)
    unfold between at hpos
    split at hpos
    · assumption
    · omega

end Drawn

/-! ## Rules -/

theorem Follows.pure {a' a : α} (h : s.Agrees a' a) (htally : s.tally k a' ≤ given) :
    Follows k given s (pure a') (Pure.pure a) :=
  fun d => ⟨a', d.drawn, rfl, h, Nat.le_refl _, Nat.le_trans htally (Nat.le_add_right _ _)⟩

/-- One parser after another. The first one's tree is handed to the second one. -/
theorem Follows.bind {p : Drawing α} {q : Parser α} {f : α → Drawing β} {g : α → Parser β}
    (hp : Follows k 0 s p q)
    (hf : ∀ a' a, s.Agrees a' a → Follows k (given + s.tally k a') t (f a') (g a)) :
    Follows k given t (p >>= f) (q >>= g) := by
  intro d
  have hrun := hp d
  cases hq : q d.cursor with
  | error e c =>
      rw [hq] at hrun
      obtain ⟨drawn, hd, hle⟩ := hrun
      rw [Parser.bind_of_error hq]
      exact ⟨drawn, bind_of_error hd, hle⟩
  | ok a c =>
      rw [hq] at hrun
      obtain ⟨a', mid, hd, hagrees, hle, htally⟩ := hrun
      have hrest := hf a' a hagrees ⟨c, mid⟩
      rw [Parser.bind_of_ok hq, bind_of_ok hd]
      dsimp only at hrest
      split at hrest
      · obtain ⟨b', drawn, hd', hb, hle', htally'⟩ := hrest
        have hadd := between_add (k := k) hle hle'
        exact ⟨b', drawn, hd', hb, Nat.le_trans hle hle', by omega⟩
      · obtain ⟨drawn, hd', hle'⟩ := hrest
        exact ⟨drawn, hd', Nat.le_trans hle hle'⟩

/-- Both parsers read alike, and go on with what they have read. -/
theorem Follows.reading {p : Parser α} {f : α → Drawing β} {g : α → Parser β}
    (h : ∀ a, Follows k given t (f a) (g a)) : Follows k given t (reading p >>= f) (p >>= g) := by
  intro d
  cases hp : p d.cursor with
  | error e c =>
      have hd : Drawing.reading p d = .error e ⟨c, d.drawn⟩ := by rw [Drawing.reading, hp]
      rw [Parser.bind_of_error hp]
      exact ⟨d.drawn, bind_of_error hd, Nat.le_refl _⟩
  | ok a c =>
      have hd : Drawing.reading p d = .ok a ⟨c, d.drawn⟩ := by rw [Drawing.reading, hp]
      rw [Parser.bind_of_ok hp, bind_of_ok hd]
      exact h a ⟨c, d.drawn⟩

/-- An identity is drawn for a reference. -/
theorem Follows.refer {n' n : Name} {f : Name → Drawing β} {q : Parser β}
    (hn : n'.renumber .bare = n.renumber .bare)
    (h : ∀ m : Name, m.renumber .bare = n.renumber .bare →
      Follows k (given + if m.start = k then 1 else 0) t (f m) q) :
    Follows k given t (Drawing.refer n' >>= f) q := by
  intro d
  have hrun := h ⟨n'.text, n'.line, d.drawn + 1⟩ hn ⟨d.cursor, d.drawn + 1⟩
  have hd : (Drawing.refer n' >>= f) d =
      f ⟨n'.text, n'.line, d.drawn + 1⟩ ⟨d.cursor, d.drawn + 1⟩ := rfl
  have hdrawn : between k d.drawn (d.drawn + 1) = if d.drawn + 1 = k then 1 else 0 := by
    unfold between
    split <;> split <;> omega
  rw [hd]
  dsimp only at hrun
  split at hrun
  · obtain ⟨b', drawn, hb, hagrees, hle, htally⟩ := hrun
    have hadd : between k d.drawn (d.drawn + 1) + between k (d.drawn + 1) drawn = _ :=
      between_add (Nat.le_succ d.drawn) hle
    exact ⟨b', drawn, hb, hagrees, Nat.le_of_succ_le hle, by omega⟩
  · obtain ⟨drawn, hb, hle⟩ := hrun
    exact ⟨drawn, hb, Nat.le_of_succ_le hle⟩

/-- A name that is no reference draws nothing. -/
theorem Follows.expectName {cause : ParseError.Cause} {f : Name → Drawing β} {g : Name → Parser β}
    (h : ∀ n : Name, Follows k given t (f (n.renumber .bare)) (g n)) :
    Follows k given t (Drawing.expectName cause >>= f) (Parser.expectName cause >>= g) := by
  rw [Drawing.expectName, bind_assoc]
  simp only [pure_bind]
  exact .reading h

theorem Follows.parameters {f : List Name → Drawing β} {g : List Name → Parser β}
    (h : ∀ ns : List Name, Follows k given t (f (ns.map (Name.renumber .bare))) (g ns)) :
    Follows k given t (Drawing.parameters >>= f) (Parser.parameters >>= g) := by
  rw [Drawing.parameters, bind_assoc]
  simp only [pure_bind]
  exact .reading h

theorem Follows.exhaust : Follows k given s exhaust Parser.exhaust :=
  fun d => ⟨d.drawn, rfl, Nat.le_refl _⟩

theorem follows_fail (cause : ParseError.Cause) :
    Follows k given s (Drawing.reading (Parser.fail cause)) (Parser.fail cause) :=
  fun d => ⟨d.drawn, rfl, Nat.le_refl _⟩

/-- A parser that runs with the budget that its tokens call for. -/
theorem Follows.budgeted {run : Nat → Drawing α} {run' : Nat → Parser α}
    (h : ∀ b, Follows k given s (run b) (run' b)) :
    Follows k given s (fun d => run d.cursor.budget d) (fun c => run' c.budget c) :=
  fun d => h d.cursor.budget d

/-- What was drawn before an error stays drawn. -/
theorem Follows.recovering {p : Drawing Stmt} {q : Parser Stmt} (h : Follows k 0 .stmt p q) :
    Follows k 0 .maybeStmt (Drawing.recovering p) (Parser.recovering q) := by
  intro d
  have hrun := h d
  unfold Parser.recovering Drawing.recovering
  cases hq : q d.cursor with
  | ok s c =>
      rw [hq] at hrun
      obtain ⟨s', drawn, hp, hagrees, hle, htally⟩ := hrun
      rw [hp]
      refine ⟨some s', drawn, rfl, congrArg some hagrees, hle, ?_⟩
      exact Nat.le_trans (Nat.le_of_eq (Reference.tally_append _ [])) htally
  | error e c =>
      rw [hq] at hrun
      obtain ⟨drawn, hp, hle⟩ := hrun
      rw [hp]
      cases e with
      | failed e => exact ⟨none, drawn, rfl, rfl, hle, Nat.zero_le _⟩
      | exhausted => exact ⟨drawn, rfl, hle⟩

end Drawing

end Lox
