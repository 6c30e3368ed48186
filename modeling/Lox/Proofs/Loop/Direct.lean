import Lox.Proofs.Lexical.Stack
import Lox.Proofs.Parsing.Names
import Lox.Proofs.Parsing.StatementAcceptance

set_option autoImplicit false

/-! # What a `for` loop means

A `for` statement is read as a tree of blocks and a plain loop (`ForLoop.exists_spelledBy`). What
the loop means is said here without that tree. The loop has a scope of its own. The initializer runs
there once. Then come the rounds: the condition is evaluated, which is true if there is none, and
the loop ends if it is falsey; otherwise the body runs and then the increment is evaluated, all in
that same scope. So a variable that the initializer declares is one variable for all rounds. A
`return` and an error leave the loop at once, out of whichever part.

Each part is a run of the reference machine by itself, with nothing waiting below it.
-/

namespace Lox.Lexical

/-- The clauses of a `for` loop, and its body, which is not a declaration. -/
structure ForLoop where
  initial : Option Stmt
  condition : Option Expr
  increment : Option Expr
  body : Stmt
  isDeclaration_body : body.isDeclaration = false

/-- The tree that a `for` loop is read as. -/
def ForLoop.tree (l : ForLoop) : Stmt := .forLoop l.initial l.condition l.increment l.body

section Spelling

open Grammar

/-- These tokens are a `for` statement with the clauses and the body of the loop. -/
inductive ForLoop.SpelledBy (l : ForLoop) : List Token → Prop
  | mk {keyword opening semicolon closing : Token} {ts us vs ws : List Token}
      (hkeyword : keyword.kind = .keyword .forWord)
      (hopening : opening.kind = .mark .leftParen)
      (hinitial : Spells forInitialPhrase ts (.maybeStmt l.initial))
      (hcondition : Spells (.optional (.symbol .expression)) us (.maybeExpr l.condition))
      (hsemicolon : semicolon.kind = .mark .semicolon)
      (hincrement : Spells (.optional (.symbol .expression)) vs (.maybeExpr l.increment))
      (hclosing : closing.kind = .mark .rightParen)
      (hbody : Spells (.symbol .statement) ws (.stmt l.body)) :
      l.SpelledBy (keyword :: opening :: (ts ++ (us ++ semicolon :: (vs ++ closing :: ws))))

/-- Every `for` statement is read as the tree of its loop. -/
theorem ForLoop.exists_spelledBy {keyword : Token} {ts : List Token} {s : Stmt}
    (hkeyword : keyword.kind = .keyword .forWord)
    (h : Spells (.symbol .statement) (keyword :: ts) (.stmt s)) :
    ∃ l : ForLoop, l.SpelledBy (keyword :: ts) ∧ s = l.tree := by
  generalize hp : Phrase.symbol .statement = p at h
  generalize hts : keyword :: ts = tokens at h
  generalize htree : Tree.stmt s = tree at h
  cases h with
  | forStmt hkeyword hopening hinitial hcondition hsemicolon hincrement hclosing hbody =>
      cases htree
      exact ⟨⟨_, _, _, _, hbody.isDeclaration_eq_false⟩,
        .mk hkeyword hopening hinitial hcondition hsemicolon hincrement hclosing hbody, rfl⟩
  | expressionStmt h =>
      -- No expression starts with this keyword.
      obtain ⟨t, us, rfl, ht⟩ := Parser.starts_exprStmt h.derives
      cases hts
      rw [hkeyword] at ht
      cases ht
  | blockStmt h =>
      obtain ⟨opening, us, closing, rfl, hother, -, -⟩ := block_cases h.derives
      cases hts
      rw [hkeyword] at hother
      cases hother
  | ifStmt hother | printStmt hother | returnStmt hother | whileStmt hother =>
      cases hts
      rw [hkeyword] at hother
      cases hother
  | _ => first | cases hp | cases htree

end Spelling

/-- The ways in which a statement ends. -/
inductive Outcome
  | normal
  | returned (value : Value)
  | failed (error : RuntimeError)

/-- What goes on after a statement that ended so. -/
def Outcome.control : Outcome → Control
  | normal => .give .nil
  | returned v => .returning v
  | failed e => .failing e

/-- The parts of a `for` loop. -/
inductive Phase
  | initial
  | condition
  | body
  | increment

/-- A `for` loop at work. -/
inductive Loop
  /-- A part is running in the scope of the loop. -/
  | running (phase : Phase) (scope : View) (part : Config)
  | ended (outcome : Outcome) (st : State)

/-- A part of a loop starts in a scope. -/
def Loop.part (phase : Phase) (scope : View) (control : Control) (st : State) : Loop :=
  .running phase scope ⟨control, [], { st with view := scope }⟩

/-- What was printed so far. -/
def Loop.output : Loop → String
  | running _ _ c => c.state.output
  | ended _ st => st.output

namespace ForLoop

variable (l : ForLoop)

/-- A round starts with the condition; a missing one is true. -/
def round (scope : View) (st : State) : Loop :=
  match l.condition with
  | some e => .part .condition scope (.eval e) st
  | none => .part .body scope (.exec l.body) st

/-- The loop starts with the initializer, in a scope of its own. -/
def start (st : State) : Loop :=
  match l.initial with
  | some s => .part .initial st.view.enter (.exec s) st
  | none => l.round st.view.enter st

/-- How the loop goes on after a part that ended with a value. The scope of the rounds is what the
initializer leaves; `outer` is what is visible around the loop. -/
def next (outer : View) (phase : Phase) (scope : View) (v : Value) (st : State) : Loop :=
  match phase with
  | .initial => l.round st.view st
  | .condition =>
    if v.isTruthy then .part .body scope (.exec l.body) st
    else .ended .normal { st with view := outer }
  | .body =>
    match l.increment with
    | some e => .part .increment scope (.eval e) st
    | none => l.round scope st
  | .increment => l.round scope st

/-- A step of the part that is running, or from one part to the next one. -/
def step (own : List Name) (clock : Nat → Float) (outer : View) : Loop → Loop
  | .running phase scope c =>
    match c with
    | ⟨.give v, [], st⟩ => l.next outer phase scope v st
    | ⟨.returning v, [], st⟩ => .ended (.returned v) { st with view := outer }
    | ⟨.failing e, [], st⟩ => .ended (.failed e) { st with view := outer }
    | c => .running phase scope (c.stepOwn own clock)
  | .ended outcome st => .ended outcome st

/-- The loop, a number of steps after it was started in a state. -/
def run (own : List Name) (clock : Nat → Float) (st : State) : Nat → Loop
  | 0 => l.start st
  | n + 1 => l.step own clock st.view (run own clock st n)

variable {l} {own : List Name} {clock : Nat → Float} {outer : View} {st s : State}
  {outcome : Outcome}

/-! ## What is visible after a loop -/

theorem round_ne_ended (scope : View) : l.round scope st ≠ .ended outcome s := by
  rw [round]
  split <;> exact fun h => nomatch h

theorem view_of_step {d : Loop} (hd : ∀ outcome s, d = .ended outcome s → s.view = outer)
    (h : l.step own clock outer d = .ended outcome s) : s.view = outer := by
  cases d with
  | ended outcome' s' =>
      cases h
      exact hd _ _ rfl
  | running phase scope c =>
      unfold step at h
      dsimp only at h
      split at h
      · unfold next at h
        split at h
        · exact absurd h (round_ne_ended _)
        · split at h
          · cases h
          · cases h
            rfl
        · split at h
          · cases h
          · exact absurd h (round_ne_ended _)
        · exact absurd h (round_ne_ended _)
      · cases h
        rfl
      · cases h
        rfl
      · cases h

/-- A loop that has ended stays so. -/
theorem run_of_le {n m : Nat} (h : l.run own clock st n = .ended outcome s) (hle : n ≤ m) :
    l.run own clock st m = .ended outcome s := by
  induction hle with
  | refl => exact h
  | step _ ih => rw [run, ih, step]

/-- A loop that has ended has left its scope. -/
theorem view_of_run {n : Nat} (h : l.run own clock st n = .ended outcome s) : s.view = st.view := by
  induction n generalizing outcome s with
  | zero =>
      rw [run, start] at h
      split at h
      · cases h
      · exact absurd h (round_ne_ended _)
  | succ n ih => exact view_of_step (fun _ _ => ih) h

end ForLoop

end Lox.Lexical
