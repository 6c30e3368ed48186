import Lox.Proofs.Lexical.States

set_option autoImplicit false

/-! # Configurations that fit

What waits for an expression or a statement waits among scopes: those that hold when the value
arrives (`World.FramesFit`). The frame of a block or a call goes back to other scopes, and to an
environment that is older than the current one; so nothing that happens before the frame is left
gives that environment new variables.
-/

namespace Lox

/-- The scopes after statements. -/
def Stmt.scopesAfterAll (scopes : Scopes) : List Stmt → Scopes
  | [] => scopes
  | s :: ss => Stmt.scopesAfterAll (s.scopesAfter scopes) ss

/-- Only declarations change scopes. -/
theorem Stmt.scopesAfter_eq {s : Stmt} (h : s.isDeclaration = false) (scopes : Scopes) :
    s.scopesAfter scopes = scopes := by
  cases s with
  | var | function | classDecl => cases h
  | _ => rfl

namespace Lexical.World

variable (t : BindingTable) (own : List Name)

/-- A frame that keeps no environment fits among scopes. -/
inductive PlainFits (scopes : Scopes) : Frame EnvId → Frame View → Prop
  | unary (op : UnaryOp) (line : Nat) : PlainFits scopes (.unary op line) (.unary op line)
  | binaryLeft (op : BinaryOp) (line : Nat) {right : Expr} (h : right.Bound t own scopes) :
      PlainFits scopes (.binaryLeft op line right) (.binaryLeft op line right)
  | binaryRight (op : BinaryOp) (line : Nat) (left : Value) :
      PlainFits scopes (.binaryRight op line left) (.binaryRight op line left)
  | logical (op : LogicalOp) {right : Expr} (h : right.Bound t own scopes) :
      PlainFits scopes (.logical op right) (.logical op right)
  | assign {name : Name} (h : Reference.Bound t own scopes ⟨.assign, name⟩) :
      PlainFits scopes (.assign name) (.assign name)
  | callee {arguments : List Expr} (line : Nat) (h : Expr.BoundAll t own scopes arguments) :
      PlainFits scopes (.callee arguments line) (.callee arguments line)
  | argument (callee : Value) (before : List Value) {after : List Expr} (line : Nat)
      (h : Expr.BoundAll t own scopes after) :
      PlainFits scopes (.argument callee before after line) (.argument callee before after line)
  | get (property : Name) : PlainFits scopes (.get property) (.get property)
  | setObject (property : Name) {value : Expr} (h : value.Bound t own scopes) :
      PlainFits scopes (.setObject property value) (.setObject property value)
  | setValue (object : InstanceId) (property : Name) :
      PlainFits scopes (.setValue object property) (.setValue object property)
  | print : PlainFits scopes .print .print
  | ret : PlainFits scopes .ret .ret
  | branch {yes : Stmt} {no : Option Stmt} (hsettled : scopes.Settled)
      (hyes : yes.isDeclaration = false ∧ yes.Bound t own scopes)
      (hno : ∀ s ∈ no, s.isDeclaration = false ∧ s.Bound t own scopes) :
      PlainFits scopes (.branch yes no) (.branch yes no)
  | loopTest {condition : Expr} {body : Stmt} (hsettled : scopes.Settled)
      (hcondition : condition.Bound t own scopes)
      (hbody : body.isDeclaration = false ∧ body.Bound t own scopes) :
      PlainFits scopes (.loopTest condition body) (.loopTest condition body)
  | loopBody {condition : Expr} {body : Stmt} (hsettled : scopes.Settled)
      (hcondition : condition.Bound t own scopes)
      (hbody : body.isDeclaration = false ∧ body.Bound t own scopes) :
      PlainFits scopes (.loopBody condition body) (.loopBody condition body)

/-- Two calls give the same. -/
inductive YieldFits (w : World) : Yield EnvId → Yield View → Prop
  | result : YieldFits w .result .result
  | receiver {e : EnvId} {view : View} {c : CellId} (hcell : w.cell e "this" = some c)
      (hview : view.cell? "this" = some c) : YieldFits w (.receiver e) (.receiver view)
  | made (object : InstanceId) : YieldFits w (.made object) (.made object)

/-- Frames fit in an environment, among the scopes that hold when the first of them goes on. -/
inductive FramesFit (w : World) :
    Scopes → EnvId → List (Frame EnvId) → List (Frame View) → Prop
  | nil (scopes : Scopes) (e : EnvId) : FramesFit w scopes e [] []
  | plain {scopes : Scopes} {e : EnvId} {f : Frame EnvId} {f' : Frame View}
      {fs : List (Frame EnvId)} {fs' : List (Frame View)} (h : PlainFits t own scopes f f')
      (hfs : FramesFit w scopes e fs fs') : FramesFit w scopes e (f :: fs) (f' :: fs')
  | var {scopes : Scopes} {e : EnvId} {name : Name} {fs : List (Frame EnvId)}
      {fs' : List (Frame View)} (hname : name.Declarable scopes)
      (hfs : FramesFit w ((scopes.declare name.text).define name.text) e fs fs') :
      FramesFit w (scopes.declare name.text) e (.var name :: fs) (.var name :: fs')
  | superclass {scopes : Scopes} {e : EnvId} {name superclass : Name} {methods : List Function}
      {fs : List (Frame EnvId)} {fs' : List (Frame View)} (hsettled : scopes.Settled)
      (hname : name.Declarable scopes)
      (hmethods : Function.BoundAll t own ((scopes.define name.text).ofMethods true) methods)
      (hfs : FramesFit w (scopes.define name.text) e fs fs') :
      FramesFit w scopes e (.superclass name superclass methods :: fs)
        (.superclass name superclass methods :: fs')
  | rest {scopes : Scopes} {e : EnvId} {body : List Stmt} {fs : List (Frame EnvId)}
      {fs' : List (Frame View)} (hsettled : scopes.Settled)
      (hbody : Stmt.BoundAll t own scopes body)
      (hfs : FramesFit w (Stmt.scopesAfterAll scopes body) e fs fs') :
      FramesFit w scopes e (.rest body :: fs) (.rest body :: fs')
  -- The environment that a block goes back to is older, so until then it gets no new variables.
  | scope {scopes around : Scopes} {e outer : EnvId} {view : View} {fs : List (Frame EnvId)}
      {fs' : List (Frame View)} (hsees : w.Sees around outer view)
      (hexact : w.Exact around outer) (hlt : outer < e) (hfs : FramesFit w around outer fs fs') :
      FramesFit w scopes e (.scope outer :: fs) (.scope view :: fs')
  | call {scopes around : Scopes} {e caller : EnvId} {view : View} {yield : Yield EnvId}
      {yield' : Yield View} {fs : List (Frame EnvId)} {fs' : List (Frame View)}
      (hsees : w.Sees around caller view) (hexact : w.Exact around caller) (hlt : caller < e)
      (hyield : w.YieldFits yield yield') (hfs : FramesFit w around caller fs fs') :
      FramesFit w scopes e (.call caller yield :: fs) (.call view yield' :: fs')
  | program {e : EnvId} {rest : Program} {fs : List (Frame EnvId)} {fs' : List (Frame View)}
      (htop : e = globalEnv) (hrest : Stmt.BoundAll t own [] rest)
      (hfs : FramesFit w [] e fs fs') :
      FramesFit w [] e (.program rest :: fs) (.program rest :: fs')

/-- What is to be done fits in an environment, among the current scopes. A `return` or an error
does not depend on which scopes the frames wait for. -/
inductive ControlFits (w : World) (scopes : Scopes) (e : EnvId) (fs : List (Frame EnvId))
    (fs' : List (Frame View)) : Control → Prop
  | eval {expr : Expr} (h : expr.Bound t own scopes) (hfs : w.FramesFit t own scopes e fs fs') :
      ControlFits w scopes e fs fs' (.eval expr)
  | exec {s : Stmt} (hsettled : scopes.Settled) (h : s.Bound t own scopes)
      (hfs : w.FramesFit t own (s.scopesAfter scopes) e fs fs') :
      ControlFits w scopes e fs fs' (.exec s)
  | execAll {body : List Stmt} (hsettled : scopes.Settled)
      (h : Stmt.BoundAll t own scopes body)
      (hfs : w.FramesFit t own (Stmt.scopesAfterAll scopes body) e fs fs') :
      ControlFits w scopes e fs fs' (.execAll body)
  | give (v : Value) (hfs : w.FramesFit t own scopes e fs fs') :
      ControlFits w scopes e fs fs' (.give v)
  | returning (v : Value) {after : Scopes} (hfs : w.FramesFit t own after e fs fs') :
      ControlFits w scopes e fs fs' (.returning v)
  | failing (error : RuntimeError) {after : Scopes} (hfs : w.FramesFit t own after e fs fs') :
      ControlFits w scopes e fs fs' (.failing error)

/-- The configurations are at the same point of the same run. -/
inductive ConfigFits : Lox.Config → Config → Prop
  | mk {w : World} {scopes : Scopes} {control : Control} {fs : List (Frame EnvId)}
      {fs' : List (Frame View)} {st : Lox.State} {st' : State}
      (hstate : w.StateFits t own scopes st st')
      (hcontrol : w.ControlFits t own scopes st.env fs fs' control) :
      ConfigFits ⟨control, fs, st⟩ ⟨control, fs', st'⟩

variable {t own} {w w' : World} {scopes : Scopes} {e : EnvId} {fs : List (Frame EnvId)}
  {fs' : List (Frame View)}

theorem YieldFits.grow {k : EnvId} {yield : Yield EnvId} {yield' : Yield View}
    (h : w.YieldFits yield yield') (hgrows : w.Grows w' k) : w'.YieldFits yield yield' := by
  cases h with
  | result => exact .result
  | receiver hcell hview => exact .receiver (hgrows.cell _ _ _ hcell) hview
  | made object => exact .made object

/-- Frames fit in every later world that has new variables only in the current environment and in
later ones. -/
theorem FramesFit.grow (h : w.FramesFit t own scopes e fs fs') (hgrows : w.Grows w' e) :
    w'.FramesFit t own scopes e fs fs' := by
  induction h with
  | nil scopes e => exact .nil scopes e
  | plain hplain _ ih => exact .plain hplain (ih hgrows)
  | var hname _ ih => exact .var hname (ih hgrows)
  | superclass hsettled hname hmethods _ ih => exact .superclass hsettled hname hmethods (ih hgrows)
  | rest hsettled hbody _ ih => exact .rest hsettled hbody (ih hgrows)
  | scope hsees hexact hlt _ ih =>
      exact .scope (hsees.grow hgrows) (hexact.grow hgrows hlt) hlt
        (ih (hgrows.of_le (Nat.le_of_lt hlt)))
  | call hsees hexact hlt hyield _ ih =>
      exact .call (hsees.grow hgrows) (hexact.grow hgrows hlt) hlt (hyield.grow hgrows)
        (ih (hgrows.of_le (Nat.le_of_lt hlt)))
  | program htop hrest _ ih => exact .program htop hrest (ih hgrows)

/-- Something waits in both machines, or in neither. -/
theorem FramesFit.nil_or_cons (h : w.FramesFit t own scopes e fs fs') :
    (fs = [] ∧ fs' = []) ∨
      ∃ f rest f' rest', fs = f :: rest ∧ fs' = f' :: rest' := by
  cases h with
  | nil => exact .inl ⟨rfl, rfl⟩
  | _ => exact .inr ⟨_, _, _, _, rfl, rfl⟩

end Lexical.World

end Lox
