import Lox.Proofs.Parsing.Halting
import Lox.Proofs.Slice.Tracks

set_option autoImplicit false

/-! # The parsers on readers do what the parsers on cursors do -/

namespace Lox.Slice

open Lox.Parser (asks_acceptMark asks_acceptKeyword nextKind_cases)

variable {r : Reader} {c : Cursor}

/-! ## Expected tokens -/

theorem peek_of_ahead {t : Token} {ts : List Token} (hahead : c.ahead = t :: ts) :
    c.peek = t := by
  rw [Cursor.peek, hahead]

/-- What is asked of the next token, said of the cursor. -/
theorem isAtMark_eq (c : Cursor) (m : Mark) :
    c.isAtMark m = c.ahead.head?.any fun t => t.kind.isMark m := by
  rw [Cursor.isAtMark]
  cases c.ahead <;> rfl

theorem tracks_check (m : Mark) : Tracks (check (·.isMark m)) (Parser.checkMark m) := by
  intro r c h
  refine .of_gives rfl ?_
  rw [isAtMark_eq]
  exact gives_check _ h

/-- A token of a kind that is expected, and a parser that expects the same. -/
theorem tracks_expect {α : Type} {test : Token.Kind → Bool} {cause : ParseError.Cause}
    {q : Parser α} {value : Token → α}
    (hfinds : ∀ {c : Cursor} {t : Token} {ts : List Token}, c.ahead = t :: ts →
      test t.kind = true → q c = .ok (value t) c.advance)
    (hmisses : ∀ {c : Cursor}, c.ahead = [] ∨ test (nextKind c.ahead) = false →
      q c = .error (.failed ⟨cause, c.peek⟩) c) :
    Tracks (expect test cause >>= fun t => pure (value t)) q := by
  intro r c h
  rcases nextKind_cases test c.ahead with ⟨t, ts, hahead, ht⟩ | hmissed
  · refine .of_gives (hfinds hahead ht) ?_
    have hcheck := gives_check test h
    rw [hahead, List.head?_cons, Option.any_some, ht] at hcheck
    have hexpect : Gives (expect test cause) r t (·.ShowsAfter t c.advance) :=
      hcheck.bind fun r₁ h₁ => gives_advance h₁ hahead
    exact hexpect.bind fun r₁ h₁ => gives_pure h₁.toShows
  · have hexpect : TracksAt (expect test cause) (Parser.fail cause) r c :=
      .after (gives_check_false test h hmissed) rfl fun r₁ h₁ => .fail cause h₁
    have hbind : (Parser.fail cause >>= fun t : Token => pure (value t) : Parser α) c = q c := by
      rw [hmisses hmissed]
      rfl
    exact .of_run rfl hbind.symm (hexpect.bind fun t => tracks_pure (value t))

theorem isAtMark_false {m : Mark}
    (h : c.ahead = [] ∨ (nextKind c.ahead).isMark m = false) : c.isAtMark m = false := by
  rw [isAtMark_eq]
  cases hahead : c.ahead with
  | nil => rfl
  | cons t ts =>
      rw [hahead] at h
      exact h.resolve_left (List.cons_ne_nil _ _)

theorem tracks_expectMark (m : Mark) (cause : ParseError.Cause) :
    Tracks (expect (·.isMark m) cause) (Parser.expectMark m cause) := by
  have htracks : Tracks (expect (·.isMark m) cause >>= fun t => pure t)
      (Parser.expectMark m cause) := by
    refine tracks_expect (fun {c t ts} hahead ht => ?_) fun {c} hmissed => ?_
    · have hmark : c.isAtMark m = true := by rw [isAtMark_eq, hahead]; exact ht
      rw [Parser.expectMark, if_pos hmark, peek_of_ahead hahead]
    · rw [Parser.expectMark, isAtMark_false hmissed]
      rfl
  rwa [bind_pure] at htracks

theorem tracks_expectName (cause : ParseError.Cause) :
    Tracks (expectName cause) (Parser.expectName cause) := by
  refine tracks_expect (fun {c t ts} hahead ht => ?_) fun {c} hmissed => ?_
  · obtain ⟨kind, lexeme, line, start⟩ := t
    rw [Parser.expectName, hahead]
    cases kind <;> first | rfl | cases ht
  · rw [Parser.expectName]
    cases hahead : c.ahead with
    | nil => rfl
    | cons t ts =>
        obtain ⟨kind, lexeme, line, start⟩ := t
        rw [hahead] at hmissed
        cases kind <;>
          first | rfl | exact Bool.noConfusion (hmissed.resolve_left (List.cons_ne_nil _ _))

/-! ## Operators -/

/-- The next token is an operator with this meaning, and the reader reads it, or it is none. -/
def AsksOperator {α : Type} (p : Reading (Option (α × Token))) (meaning : Token.Kind → Option α)
    (r : Reader) (c : Cursor) : Prop :=
  (∃ t ts op, c.ahead = t :: ts ∧ meaning t.kind = some op ∧
    Gives p r (some (op, t)) (·.Shows c.advance)) ∨
  meaning c.peek.kind = none ∧ Gives p r none (·.Shows c)

theorem AsksOperator.congr {α : Type} {p : Reading (Option (α × Token))}
    {meaning meaning' : Token.Kind → Option α} (h : AsksOperator p meaning r c)
    (hmeaning : ∀ k, meaning k = meaning' k) : AsksOperator p meaning' r c :=
  funext hmeaning ▸ h

/-- The token that ends the source is not one that is asked for. -/
theorem Reader.Shows.peek_missed (test : Token.Kind → Bool) (h : r.Shows c)
    (htest : test .eof = false) (hmissed : c.ahead = [] ∨ test (nextKind c.ahead) = false) :
    test c.peek.kind = false := by
  rw [Cursor.peek]
  cases hahead : c.ahead with
  | nil =>
      show test c.eof.kind = false
      rw [h.eof, htest]
  | cons t ts =>
      rw [hahead] at hmissed
      exact hmissed.resolve_left (List.cons_ne_nil _ _)

theorem asksOperator_word (w : Keyword) (op : InfixOp) (h : r.Shows c) :
    AsksOperator (operatorWord w op) (fun k => if k.isKeyword w then some op else none) r c := by
  rcases nextKind_cases (·.isKeyword w) c.ahead with ⟨t, ts, hahead, ht⟩ | hmissed
  · refine .inl ⟨t, ts, op, hahead, if_pos ht, ?_⟩
    exact (gives_acceptToken h hahead ht).bind fun r₁ h₁ => gives_pure h₁
  · have hword : c.peek.kind.isKeyword w = false := h.peek_missed (·.isKeyword w) rfl hmissed
    refine .inr ⟨by simp only [hword]; rfl, ?_⟩
    exact (gives_acceptToken_none (·.isKeyword w) h hmissed).bind fun r₁ h₁ => gives_pure h₁

/-- The operator that a mark stands for. -/
def markOperator (ops : List (Mark × BinaryOp)) : Token.Kind → Option InfixOp
  | .mark m => (ops.lookup m).map .binary
  | _ => none

theorem asksOperator_mark (ops : List (Mark × BinaryOp)) (h : r.Shows c) :
    AsksOperator (operatorMark ops) (markOperator ops) r c := by
  induction ops generalizing r with
  | nil =>
      refine .inr ⟨?_, gives_pure h⟩
      cases c.peek.kind <;> rfl
  | cons entry ops ih =>
      obtain ⟨m, op⟩ := entry
      rcases nextKind_cases (·.isMark m) c.ahead with ⟨t, ts, hahead, ht⟩ | hmissed
      · have hkind := Token.Kind.isMark_iff.1 ht
        refine .inl ⟨t, ts, .binary op, hahead, ?_, ?_⟩
        · rw [hkind, markOperator, List.lookup_cons, beq_self_eq_true]
          rfl
        · have hcheck := gives_check (·.isMark m) h
          rw [hahead, List.head?_cons, Option.any_some, ht] at hcheck
          exact hcheck.bind fun r₁ h₁ => (gives_advance h₁ hahead).bind fun r₂ h₂ =>
            gives_pure h₂.toShows
      · -- The other marks are asked for, and this one is not the next token.
        have hother : markOperator ((m, op) :: ops) c.peek.kind =
            markOperator ops c.peek.kind := by
          have hmark : c.peek.kind.isMark m = false := h.peek_missed (·.isMark m) rfl hmissed
          cases hkind : c.peek.kind with
          | mark m' =>
              rw [hkind, Token.Kind.isMark_mark] at hmark
              rw [markOperator, List.lookup_cons, hmark]
              rfl
          | _ => rfl
        obtain ⟨r₁, hrun, hmoves, h₁⟩ := gives_check_false (·.isMark m) h hmissed
        have hgoes : ∀ {o : Option (InfixOp × Token)} {c' : Cursor},
            Gives (operatorMark ops) r₁ o (·.Shows c') →
              Gives (operatorMark ((m, op) :: ops)) r o (·.Shows c') :=
          fun hgives => Gives.bind ⟨r₁, hrun, hmoves, rfl⟩ fun r₂ (hr : r₁ = r₂) => hr ▸ hgives
        rcases ih h₁ with ⟨t, ts, op', hahead, hop, hgives⟩ | ⟨hnone, hgives⟩
        · rw [peek_of_ahead hahead] at hother
          exact .inl ⟨t, ts, op', hahead, hother.trans hop, hgoes hgives⟩
        · exact .inr ⟨hother.trans hnone, hgoes hgives⟩

/-- A level asks for its own operators. -/
theorem asksOperator_level (l : Level) (h : r.Shows c) :
    AsksOperator (operator l) l.operator? r c := by
  cases l with
  | disjunction =>
      refine (asksOperator_word .orWord (.logical .or) h).congr fun k => ?_
      cases k with
      | keyword w => cases w <;> rfl
      | _ => rfl
  | conjunction =>
      refine (asksOperator_word .andWord (.logical .and) h).congr fun k => ?_
      cases k with
      | keyword w => cases w <;> rfl
      | _ => rfl
  | _ =>
      refine (asksOperator_mark _ h).congr fun k => ?_
      cases k with
      | mark m => cases m <;> rfl
      | _ => rfl

theorem asksOperator_unary (h : r.Shows c) :
    AsksOperator unaryOperator UnaryOp.ofKind? r c := by
  rcases nextKind_cases (·.isMark .bang) c.ahead with ⟨t, ts, hahead, ht⟩ | hbang
  · refine .inl ⟨t, ts, .not, hahead, by rw [Token.Kind.isMark_iff.1 ht]; rfl, ?_⟩
    exact (gives_acceptToken h hahead ht).bind fun r₁ h₁ => gives_pure h₁
  rcases nextKind_cases (·.isMark .minus) c.ahead with ⟨t, ts, hahead, ht⟩ | hminus
  · refine .inl ⟨t, ts, .negate, hahead, by rw [Token.Kind.isMark_iff.1 ht]; rfl, ?_⟩
    exact (gives_acceptToken_none (·.isMark .bang) h hbang).bind fun r₁ h₁ =>
      (gives_acceptToken h₁ hahead ht).bind fun r₂ h₂ => gives_pure h₂
  · have hnot : c.peek.kind.isMark .bang = false := h.peek_missed (·.isMark .bang) rfl hbang
    have hnegate : c.peek.kind.isMark .minus = false := h.peek_missed (·.isMark .minus) rfl hminus
    refine .inr ⟨?_, ?_⟩
    · cases hkind : c.peek.kind with
      | mark m =>
          rw [hkind] at hnot hnegate
          cases m <;> first | rfl | exact absurd hnot (by decide) | exact absurd hnegate (by decide)
      | _ => rfl
    · exact (gives_acceptToken_none (·.isMark .bang) h hbang).bind fun r₁ h₁ =>
        (gives_acceptToken_none (·.isMark .minus) h₁ hminus).bind fun r₂ h₂ => gives_pure h₂

/-! ## Expressions -/

/-- The expression parsers with a budget. -/
structure ExpressionTracks (b : Nat) : Prop where
  expression : Tracks (expressionWithin b) (Parser.expressionWithin b)
  level : ∀ l : Level, Tracks (levelWithin b l) (Parser.levelWithin b l)
  levelRest : ∀ (l : Level) (left : Expr),
    Tracks (levelRestWithin b l left) (Parser.levelRestWithin b l left)
  operand : ∀ l : Level, Tracks (operandWithin b l) (Parser.operandWithin b l)
  unary : Tracks (unaryWithin b) (Parser.unaryWithin b)
  callRest : ∀ callee : Expr, Tracks (callRestWithin b callee) (Parser.callRestWithin b callee)
  arguments : Tracks (argumentsWithin b) (Parser.argumentsWithin b)
  argumentList : ∀ count : Nat,
    Tracks (argumentListWithin b count) (Parser.argumentListWithin b count)
  primary : Tracks (primaryWithin b) (Parser.primaryWithin b)

section

variable {b : Nat}

theorem tracks_assignTo (left value : Expr) (equals : Token) :
    Tracks (assignTo left value equals) (Parser.assignTo left value equals) := by
  unfold assignTo Parser.assignTo
  cases left <;>
    first
      | exact tracks_pure _
      | exact (tracks_report _ _).bind fun _ => tracks_pure _

theorem tracks_expression_step (ih : ExpressionTracks b) :
    Tracks (expressionWithin (b + 1)) (Parser.expressionWithin (b + 1)) := by
  rw [expressionWithin, Parser.expressionWithin]
  refine (ih.level .disjunction).bind fun left r c h => ?_
  refine .of_run rfl (Parser.bind_of_ok rfl) (.chooseToken (asks_acceptMark .equal) h ?_ ?_)
  · intro r₁ t ts hahead ht h₁
    rw [peek_of_ahead hahead]
    exact (ih.expression.bind fun value => tracks_assignTo left value t) r₁ _ h₁
  · exact fun r₁ h₁ => tracks_pure left r₁ c h₁

theorem tracks_levelRest_step (ih : ExpressionTracks b) (l : Level) (left : Expr) :
    Tracks (levelRestWithin (b + 1) l left) (Parser.levelRestWithin (b + 1) l left) := by
  rw [levelRestWithin, Parser.levelRestWithin]
  intro r c h
  rcases asksOperator_level l h with ⟨t, ts, op, hahead, hop, hgives⟩ | ⟨hnone, hgives⟩
  · refine .after hgives ?_ fun r₁ h₁ =>
      ((ih.operand l).bind fun right => ih.levelRest l _) r₁ c.advance h₁
    refine (Parser.bind_of_ok rfl).trans ?_
    rw [peek_of_ahead hahead]
    simp only [hop]
    rfl
  · refine .after hgives ?_ fun r₁ h₁ => tracks_pure left r₁ c h₁
    refine (Parser.bind_of_ok rfl).trans ?_
    simp only [hnone]

theorem tracks_unary_step (ih : ExpressionTracks b) :
    Tracks (unaryWithin (b + 1)) (Parser.unaryWithin (b + 1)) := by
  rw [unaryWithin, Parser.unaryWithin]
  intro r c h
  rcases asksOperator_unary h with ⟨t, ts, op, hahead, hop, hgives⟩ | ⟨hnone, hgives⟩
  · refine .after hgives ?_ fun r₁ h₁ => (ih.unary.map _) r₁ c.advance h₁
    refine (Parser.bind_of_ok rfl).trans ?_
    rw [peek_of_ahead hahead]
    simp only [hop]
    rfl
  · refine .after hgives ?_ fun r₁ h₁ =>
      (ih.primary.bind fun callee => ih.callRest callee) r₁ c h₁
    refine (Parser.bind_of_ok rfl).trans ?_
    simp only [hnone]

/-- A list of one or more, of which too many are reported. -/
theorem tracks_reported {α : Type} {list : Reading α} {list' : Parser α}
    (hlist : Tracks list list') (count : Nat) (cause : ParseError.Cause) :
    Tracks
      (if maxArguments ≤ count then do
        let token ← peek
        report cause token
        list
      else list)
      (if maxArguments ≤ count then do
        let token ← Parser.peek
        Parser.report cause token
        list'
      else list') := by
  split
  · exact tracks_peek.bind fun token => (tracks_report cause token).bind fun _ => hlist
  · exact hlist

theorem tracks_argumentList_step (ih : ExpressionTracks b) (count : Nat) :
    Tracks (argumentListWithin (b + 1) count) (Parser.argumentListWithin (b + 1) count) := by
  rw [argumentListWithin, Parser.argumentListWithin]
  apply tracks_reported
  refine ih.expression.bind fun argument => ?_
  refine Tracks.choose (asks_acceptMark .comma) ?_ (tracks_pure [argument])
  exact (ih.argumentList (count + 1)).map _

/-- A token that was looked at and is not the last one is read. -/
theorem tracksAt_advance {α : Type} {k : Token → Reading α} {k' : Token → Parser α}
    (h : r.Shows c) (hkind : c.peek.kind ≠ .eof) (hk : ∀ t, Tracks (k t) (k' t)) :
    TracksAt (advance >>= k) (Parser.advance >>= k') r c := by
  obtain ⟨ts, hahead⟩ := Parser.exists_ahead h.eof hkind
  exact .after (gives_advance h hahead) (Parser.bind_of_ok rfl) fun r₁ h₁ =>
    hk _ r₁ _ h₁.toShows

theorem tracks_primary_step (ih : ExpressionTracks b) :
    Tracks (primaryWithin (b + 1)) (Parser.primaryWithin (b + 1)) := by
  rw [primaryWithin, Parser.primaryWithin]
  intro r c h
  refine .after (gives_peek h (h.access _)) (Parser.bind_of_ok rfl)
    fun r₁ (h₁ : r₁.Shows c) => ?_
  cases hliteral : Literal.ofKind? c.peek.kind with
  | some value =>
      have hkind : c.peek.kind ≠ .eof := by
        intro hkind
        rw [hkind] at hliteral
        cases hliteral
      exact tracksAt_advance h₁ hkind fun _ => tracks_pure _
  | none =>
      have hfail : TracksAt (fail .expression c.peek : Reading Expr) (Parser.fail .expression) r₁ c :=
        ⟨r₁, rfl, .refl r₁, h₁⟩
      have hadvance : ∀ {k : Token → Reading Expr} {k' : Token → Parser Expr},
          c.peek.kind ≠ .eof → (∀ t, Tracks (k t) (k' t)) →
          TracksAt (advance >>= k) (Parser.advance >>= k') r₁ c :=
        fun hkind hk => tracksAt_advance h₁ hkind hk
      cases hkind : c.peek.kind with
      | keyword w =>
          have hkind' : c.peek.kind ≠ .eof := by rw [hkind]; rintro ⟨⟩
          cases w <;> first | exact hfail | exact hadvance hkind' fun _ => tracks_pure _ | skip
          refine hadvance hkind' fun _ => (tracks_expectMark _ _).bind fun _ => ?_
          exact (tracks_expectName _).map _
      | identifier => exact hadvance (by rw [hkind]; rintro ⟨⟩) fun _ => tracks_pure _
      | mark m =>
          have hkind' : c.peek.kind ≠ .eof := by rw [hkind]; rintro ⟨⟩
          cases m <;> first | exact hfail | skip
          refine hadvance hkind' fun _ => ih.expression.bind fun inner => ?_
          exact (tracks_expectMark _ _).map _
      | _ => exact hfail

theorem expressionTracks (b : Nat) : ExpressionTracks b := by
  induction b with
  | zero => constructor <;> intros <;> exact tracks_exhaust
  | succ b ih =>
      constructor
      case expression => exact tracks_expression_step ih
      case level =>
        intro l
        rw [levelWithin, Parser.levelWithin]
        exact (ih.operand l).bind fun left => ih.levelRest l left
      case levelRest => exact tracks_levelRest_step ih
      case operand =>
        intro l
        rw [operandWithin, Parser.operandWithin]
        cases l.tighter? with
        | some tighter => exact ih.level tighter
        | none => exact ih.unary
      case unary => exact tracks_unary_step ih
      case callRest =>
        intro callee
        rw [callRestWithin, Parser.callRestWithin]
        refine Tracks.choose (asks_acceptMark .leftParen) ?_
          (Tracks.choose (asks_acceptMark .dot) ?_ (tracks_pure callee))
        · exact ih.arguments.bind fun arguments =>
            (tracks_expectMark _ _).bind fun closing => ih.callRest _
        · exact (tracks_expectName _).bind fun property => ih.callRest _
      case arguments =>
        rw [argumentsWithin, Parser.argumentsWithin]
        refine (tracks_check _).bind fun closes => ?_
        cases closes with
        | true => exact tracks_pure []
        | false => exact ih.argumentList 0
      case argumentList => exact tracks_argumentList_step ih
      case primary => exact tracks_primary_step ih

theorem tracks_expression : Tracks expression Parser.expression :=
  .budgeted fun b => (expressionTracks b).expression

end

/-! ## Statements -/

theorem tracks_parameterList (b count : Nat) :
    Tracks (parameterListWithin b count) (Parser.parameterListWithin b count) := by
  induction b generalizing count with
  | zero => exact tracks_exhaust
  | succ b ih =>
      rw [parameterListWithin, Parser.parameterListWithin]
      apply tracks_reported
      refine (tracks_expectName _).bind fun parameter => ?_
      refine Tracks.choose (asks_acceptMark .comma) ?_ (tracks_pure [parameter])
      exact (ih (count + 1)).map _

theorem tracks_parameters : Tracks parameters Parser.parameters := by
  rw [parameters, Parser.parameters]
  refine (tracks_check _).bind fun closes => ?_
  cases closes with
  | true => exact tracks_pure []
  | false => exact .budgeted fun b => tracks_parameterList b 0

theorem tracks_optionalBefore (m : Mark) (cause : ParseError.Cause) :
    Tracks (optionalBefore m cause) (Parser.optionalBefore m cause) := by
  rw [optionalBefore, Parser.optionalBefore]
  intro r c h
  rcases nextKind_cases (·.isMark m) c.ahead with ⟨t, ts, hahead, ht⟩ | hmissed
  · -- The mark is looked at once more, and then read.
    have hcheck := gives_check (·.isMark m) h
    rw [hahead, List.head?_cons, Option.any_some, ht] at hcheck
    have hmark : c.isAtMark m = true := by
      rw [isAtMark_eq, hahead, List.head?_cons, Option.any_some, ht]
    have hread : (Parser.acceptMark m >>= fun b => if b = true then
          (pure none : Parser (Option Expr))
        else Parser.expression >>= fun e => Parser.expectMark m cause >>= fun _ => pure (some e)) c =
        (Parser.expectMark m cause >>= fun _ => pure none : Parser (Option Expr)) c := by
      have hexpect : Parser.expectMark m cause c = .ok c.peek c.advance := by
        rw [Parser.expectMark, if_pos hmark]
      rw [(asks_acceptMark m).finds _ hahead ht, Parser.bind_of_ok hexpect]
      rfl
    exact .after hcheck hread fun r₁ h₁ => ((tracks_expectMark m cause).map _) r₁ c h₁
  · refine .after (gives_check_false (·.isMark m) h hmissed)
      ((asks_acceptMark m).misses _ hmissed) fun r₁ h₁ => ?_
    exact (tracks_expression.bind fun e => (tracks_expectMark m cause).map _) r₁ c h₁

theorem tracks_variableDeclaration : Tracks variableDeclaration Parser.variableDeclaration := by
  rw [variableDeclaration, Parser.variableDeclaration]
  refine (tracks_expectName _).bind fun name => Tracks.choose (asks_acceptMark .equal) ?_ ?_
  · exact tracks_expression.bind fun e => (tracks_expectMark _ _).map _
  · exact (tracks_expectMark _ _).map _

theorem tracks_expressionStatement : Tracks expressionStatement Parser.expressionStatement := by
  rw [expressionStatement, Parser.expressionStatement]
  exact tracks_expression.bind fun e => (tracks_expectMark _ _).map _

theorem tracks_printStatement : Tracks printStatement Parser.printStatement := by
  rw [printStatement, Parser.printStatement]
  exact tracks_expression.bind fun e => (tracks_expectMark _ _).map _

/-- A return statement is its keyword and an expression that may be missing. -/
theorem returnStatement_eq (keyword : Name) :
    Parser.returnStatement keyword =
      Parser.optionalBefore .semicolon .returnEnd >>= fun e? => pure (.ret keyword e?) := by
  rw [Parser.returnStatement, Parser.optionalBefore, bind_assoc]
  congr 1
  funext b
  cases b with
  | true => rfl
  | false => simp only [Bool.false_eq_true, if_false, bind_assoc, pure_bind]

theorem tracks_returnStatement (keyword : Name) :
    Tracks (returnStatement keyword) (Parser.returnStatement keyword) := by
  rw [returnStatement, returnStatement_eq]
  exact (tracks_optionalBefore _ _).map _

theorem tracks_forInitial : Tracks forInitial Parser.forInitial := by
  rw [forInitial, Parser.forInitial]
  refine Tracks.choose (asks_acceptMark .semicolon) (tracks_pure none) ?_
  refine Tracks.choose (asks_acceptKeyword .varWord) ?_ ?_
  · exact tracks_variableDeclaration.map _
  · exact tracks_expressionStatement.map _

theorem tracks_superclassClause : Tracks superclassClause Parser.superclassClause := by
  rw [superclassClause, Parser.superclassClause]
  refine Tracks.choose (asks_acceptMark .less) ?_ (tracks_pure none)
  exact (tracks_expectName _).map _

theorem tracks_atBlockEnd : Tracks atBlockEnd Parser.atBlockEnd := by
  intro r c h
  refine .of_gives rfl ?_
  have hcheck := gives_check (·.isMark .rightBrace) h
  rw [← isAtMark_eq] at hcheck
  refine hcheck.bind fun r₁ (h₁ : r₁.Shows c) => ?_
  cases c.isAtMark .rightBrace with
  | true => exact gives_pure h₁
  | false => exact gives_isAtEnd h₁ (h₁.access _)

/-- The statement parsers with a budget. -/
structure StatementTracks (b : Nat) : Prop where
  declaration : Tracks (declarationWithin b) (Parser.declarationWithin b)
  declarationOrFail : Tracks (declarationOrFail b) (Parser.declarationOrFail b)
  classDecl : Tracks (classWithin b) (Parser.classWithin b)
  methods : Tracks (methodsWithin b) (Parser.methodsWithin b)
  function : ∀ kind : FunctionKind, Tracks (functionWithin b kind) (Parser.functionWithin b kind)
  statement : Tracks (statementWithin b) (Parser.statementWithin b)
  block : Tracks (blockWithin b) (Parser.blockWithin b)
  declarations : Tracks (declarationsWithin b) (Parser.declarationsWithin b)

theorem tracks_statement {b : Nat} (ih : StatementTracks b) :
    Tracks (statementWithin (b + 1)) (Parser.statementWithin (b + 1)) := by
  rw [statementWithin, Parser.statementWithin]
  intro r c h
  refine .of_run rfl (Parser.bind_of_ok rfl) ?_
  refine .choose (asks_acceptKeyword .forWord) h (fun r₁ _ _ _ _ h₁ => ?_) fun r₁ h₁ => ?_
  · exact ((tracks_expectMark _ _).bind fun _ => tracks_forInitial.bind fun initial =>
      (tracks_optionalBefore _ _).bind fun condition =>
        (tracks_optionalBefore _ _).bind fun increment => ih.statement.map _) r₁ _ h₁
  refine .choose (asks_acceptKeyword .ifWord) h₁ (fun r₂ _ _ _ _ h₂ => ?_) fun r₂ h₂ => ?_
  · refine ((tracks_expectMark _ _).bind fun _ => tracks_expression.bind fun condition =>
      (tracks_expectMark _ _).bind fun _ => ih.statement.bind fun yes => ?_) r₂ _ h₂
    exact Tracks.choose (asks_acceptKeyword .elseWord) (ih.statement.map _) (tracks_pure _)
  refine .choose (asks_acceptKeyword .printWord) h₂
    (fun r₃ _ _ _ _ h₃ => tracks_printStatement r₃ _ h₃) fun r₃ h₃ => ?_
  refine .chooseToken (asks_acceptKeyword .returnWord) h₃ (fun r₄ t ts hahead _ h₄ => ?_)
    fun r₄ h₄ => ?_
  · rw [peek_of_ahead hahead]
    exact tracks_returnStatement t.toName r₄ _ h₄
  refine .choose (asks_acceptKeyword .whileWord) h₄ (fun r₅ _ _ _ _ h₅ => ?_) fun r₅ h₅ => ?_
  · exact ((tracks_expectMark _ _).bind fun _ => tracks_expression.bind fun condition =>
      (tracks_expectMark _ _).bind fun _ => ih.statement.map _) r₅ _ h₅
  exact Tracks.choose (asks_acceptMark .leftBrace) (ih.block.map _) tracks_expressionStatement
    r₅ c h₅

theorem statementTracks (b : Nat) : StatementTracks b := by
  induction b with
  | zero => constructor <;> intros <;> exact tracks_exhaust
  | succ b ih =>
      constructor
      case declaration => exact ih.declarationOrFail.recovering
      case declarationOrFail =>
        rw [declarationOrFail, Parser.declarationOrFail]
        refine Tracks.choose (asks_acceptKeyword .classWord) ih.classDecl ?_
        refine Tracks.choose (asks_acceptKeyword .funWord) ((ih.function .function).map _) ?_
        exact Tracks.choose (asks_acceptKeyword .varWord) tracks_variableDeclaration ih.statement
      case classDecl =>
        rw [classWithin, Parser.classWithin]
        exact (tracks_expectName _).bind fun name =>
          tracks_superclassClause.bind fun superclass => (tracks_expectMark _ _).bind fun _ =>
            ih.methods.bind fun methods => (tracks_expectMark _ _).map _
      case methods =>
        rw [methodsWithin, Parser.methodsWithin]
        refine tracks_atBlockEnd.bind fun ends => ?_
        cases ends with
        | true => exact tracks_pure []
        | false => exact (ih.function .method).bind fun f => ih.methods.map _
      case function =>
        intro kind
        rw [functionWithin, Parser.functionWithin]
        exact (tracks_expectName _).bind fun name => (tracks_expectMark _ _).bind fun _ =>
          tracks_parameters.bind fun parameters => (tracks_expectMark _ _).bind fun _ =>
            (tracks_expectMark _ _).bind fun _ => ih.block.map _
      case statement => exact tracks_statement ih
      case block =>
        rw [blockWithin, Parser.blockWithin]
        exact ih.declarations.bind fun body => (tracks_expectMark _ _).map _
      case declarations =>
        rw [declarationsWithin, Parser.declarationsWithin]
        refine tracks_atBlockEnd.bind fun ends => ?_
        cases ends with
        | true => exact tracks_pure []
        | false => exact ih.declaration.bind fun first? => ih.declarations.map _

theorem tracks_declaration : Tracks declaration Parser.declaration :=
  .budgeted fun b => (statementTracks b).declaration

theorem tracks_program (b : Nat) : Tracks (programWithin b) (Parser.programWithin b) := by
  induction b with
  | zero => exact tracks_exhaust
  | succ b ih =>
      rw [programWithin, Parser.programWithin]
      refine tracks_isAtEnd.bind fun ends => ?_
      cases ends with
      | true => exact tracks_pure []
      | false => exact tracks_declaration.bind fun first? => ih.map _

theorem tracks_wholeExpression : Tracks wholeExpression Parser.wholeExpression := by
  rw [wholeExpression, Parser.wholeExpression]
  refine tracks_expression.bind fun e r c h => ?_
  cases hend : c.isAtEnd with
  | true =>
      have hlook : Gives isAtEnd r true (·.Shows c) := hend ▸ gives_isAtEnd h (h.access _)
      exact .of_gives (by rw [hend]; rfl) (hlook.bind fun r₁ h₁ => gives_pure h₁)
  | false =>
      have hlook : Gives isAtEnd r false (·.Shows c) := hend ▸ gives_isAtEnd h (h.access _)
      exact .after hlook (by rw [hend]; rfl) fun r₁ h₁ => .fail .expressionEnd h₁

end Lox.Slice
