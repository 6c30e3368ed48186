import Lox.Proofs.Grammar.Inversion

set_option autoImplicit false

/-! # Which conditional an `else` belongs to

The grammar lets an `else` belong to any `if` before it that lacks one. Every statement can also be
derived with each `else` belonging to the closest such `if`, which is how a parser that reads an
`else` whenever it sees one has it (`exists_paired`).
-/

namespace Lox.Grammar

/-- Statements in which every `else` belongs to the closest `if` that lacks one. If `lacking` is
true, the statement ends with an `if` that an `else` after it would belong to. -/
inductive Paired : Bool → List Token → Prop
  | simple {s : Symbol} {ts : List Token}
      (hs : s ∈ [Symbol.exprStmt, .printStmt, .returnStmt, .block])
      (h : Derives (.symbol s) ts) : Paired false ts
  | loop {lacking : Bool} {ts us : List Token}
      (hhead : Derives (sequence forHead) ts ∨ Derives (sequence whileHead) ts)
      (hbody : Paired lacking us) : Paired lacking (ts ++ us)
  | withoutElse {lacking : Bool} {ts us : List Token} (hhead : Derives (sequence ifHead) ts)
      (hyes : Paired lacking us) : Paired true (ts ++ us)
  | withElse {lacking : Bool} {ts us vs : List Token} {keyword : Token}
      (hhead : Derives (sequence ifHead) ts) (hyes : Paired false us)
      (hkeyword : keyword.kind = .keyword .elseWord) (hno : Paired lacking vs) :
      Paired lacking (ts ++ (us ++ keyword :: vs))

/-- An `else` after a statement that lacks one goes into it. -/
theorem Paired.attach {lacking : Bool} {ts vs : List Token} {keyword : Token}
    (h : Paired true ts) (hkeyword : keyword.kind = .keyword .elseWord)
    (hno : Paired lacking vs) : ∃ lacking', Paired lacking' (ts ++ keyword :: vs) := by
  generalize hopen : true = lacking' at h
  induction h with
  | simple => cases hopen
  | loop hhead _ ih =>
      obtain ⟨lacking', hbody⟩ := ih hopen
      exact ⟨lacking', by rw [List.append_assoc]; exact .loop hhead hbody⟩
  | @withoutElse within ts us hhead hyes ih =>
      rw [List.append_assoc]
      cases within with
      | true =>
          -- An `if` inside lacks one as well, and is closer.
          obtain ⟨lacking', hyes'⟩ := ih rfl
          exact ⟨true, .withoutElse hhead hyes'⟩
      | false => exact ⟨lacking, .withElse hhead hyes hkeyword hno⟩
  | @withElse within ts us ws word hhead hyes hword _ _ ih =>
      obtain ⟨lacking', hno'⟩ := ih hopen
      have happend : ts ++ (us ++ word :: ws) ++ keyword :: vs =
          ts ++ (us ++ word :: (ws ++ keyword :: vs)) := by simp
      exact ⟨lacking', by rw [happend]; exact .withElse hhead hyes hword hno'⟩

/-- A loop or a conditional starts with a keyword. -/
theorem length_head_pos {ts : List Token} {w : Keyword} {ps : List Phrase}
    (h : Derives (sequence (word w :: ps)) ts) : 0 < ts.length := by
  obtain ⟨t, us, rfl, -⟩ := derives_token_cons_iff.1 h
  exact Nat.succ_pos _

/-- Every statement of the grammar can be derived with each `else` in its closest place. -/
theorem exists_paired {ts : List Token} (h : Derives (.symbol .statement) ts) :
    ∃ lacking, Paired lacking ts := by
  -- The statements inside are shorter.
  generalize hlength : ts.length = n
  induction n using Nat.strongRecOn generalizing ts with
  | ind n ih =>
      subst hlength
      rcases statement_cases h with ⟨s, hs, h⟩ | ⟨us, vs, rfl, hhead, hbody⟩ |
        ⟨us, vs, rfl, hhead, hyes⟩ | ⟨us, vs, keyword, ws, rfl, hhead, hyes, hkeyword, hno⟩
      · exact ⟨false, .simple hs h⟩
      · have hpos : 0 < us.length := hhead.elim length_head_pos length_head_pos
        obtain ⟨lacking, hbody⟩ := ih vs.length (by rw [List.length_append]; omega) hbody rfl
        exact ⟨lacking, .loop hhead hbody⟩
      · have hpos : 0 < us.length := length_head_pos hhead
        obtain ⟨lacking, hyes⟩ := ih vs.length (by rw [List.length_append]; omega) hyes rfl
        exact ⟨true, .withoutElse hhead hyes⟩
      · simp only [List.length_append, List.length_cons] at ih
        obtain ⟨lacking, hyes⟩ := ih vs.length (by omega) hyes rfl
        obtain ⟨lacking', hno⟩ := ih ws.length (by omega) hno rfl
        cases lacking with
        | true =>
            -- The `else` belongs to an `if` inside the first branch.
            obtain ⟨lacking, hyes⟩ := hyes.attach hkeyword hno
            exact ⟨true, .withoutElse hhead hyes⟩
        | false => exact ⟨lacking', .withElse hhead hyes hkeyword hno⟩

end Lox.Grammar
