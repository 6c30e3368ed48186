import Lox.Proofs.Grammar.Rules

set_option autoImplicit false

/-! # Grammars with other rules

What a phrase means depends on what its symbols mean (`Phrase.Means`), so rules are a condition
on the meanings of all symbols at once: whatever the rule of a symbol means, the symbol means too.
The languages of a grammar are the least ones with this property (`Language`), which gives their
induction for nothing. For the rules of `rule` they are what `Derives` describes
(`language_rule_iff`).
-/

namespace Lox.Grammar

/-! ## Meanings -/

/-- Items one after another. -/
inductive Repeats (item : List Token → Prop) : List Token → Prop
  | nil : Repeats item []
  | cons {ts us : List Token} (h : item ts) (hrest : Repeats item us) : Repeats item (ts ++ us)

/-- At least one item and at most so many, with commas between them. -/
inductive Lists (item : List Token → Prop) : Nat → List Token → Prop
  | last {most : Nat} {ts : List Token} (h : item ts) : Lists item (most + 1) ts
  | more {most : Nat} {ts us : List Token} {comma : Token} (h : item ts)
      (hcomma : comma.kind = .mark .comma) (hrest : Lists item most us) :
      Lists item (most + 1) (ts ++ comma :: us)

theorem Repeats.mono {item item' : List Token → Prop} {ts : List Token}
    (hitem : ∀ us, item us → item' us) (h : Repeats item ts) : Repeats item' ts := by
  induction h with
  | nil => exact .nil
  | cons hfirst _ ih => exact .cons (hitem _ hfirst) ih

theorem Repeats.snoc {item : List Token → Prop} {ts us : List Token} (h : Repeats item ts)
    (hlast : item us) : Repeats item (ts ++ us) := by
  induction h with
  | nil =>
      have hone := Repeats.cons hlast .nil
      rwa [List.append_nil] at hone
  | cons hfirst _ ih =>
      rw [List.append_assoc]
      exact .cons hfirst ih

theorem Lists.mono {item item' : List Token → Prop} {most : Nat} {ts : List Token}
    (hitem : ∀ us, item us → item' us) (h : Lists item most ts) : Lists item' most ts := by
  induction h with
  | last hlast => exact .last (hitem _ hlast)
  | more hfirst hcomma _ ih => exact .more (hitem _ hfirst) hcomma ih

/-- The tokens are what a phrase means, when `L` says what the symbols mean. -/
def Phrase.Means (L : Symbol → List Token → Prop) : Phrase → List Token → Prop
  | .empty, ts => ts = []
  | .terminal t, ts => ∃ token, ts = [token] ∧ t.Fits token.kind
  | .symbol s, ts => L s ts
  | .both p q, ts => ∃ us vs, ts = us ++ vs ∧ p.Means L us ∧ q.Means L vs
  | .either p q, ts => p.Means L ts ∨ q.Means L ts
  | .optional p, ts => ts = [] ∨ p.Means L ts
  | .repeated p, ts => Repeats (p.Means L) ts
  | .listed most p, ts => Lists (p.Means L) most ts

theorem Phrase.Means.mono {L L' : Symbol → List Token → Prop} {p : Phrase} {ts : List Token}
    (hL : ∀ s us, L s us → L' s us) (h : p.Means L ts) : p.Means L' ts := by
  induction p generalizing ts with
  | empty => exact h
  | terminal t => exact h
  | symbol s => exact hL s ts h
  | both p q ihp ihq =>
      obtain ⟨us, vs, hts, hp, hq⟩ := h
      exact ⟨us, vs, hts, ihp hp, ihq hq⟩
  | either p q ihp ihq =>
      rcases h with h | h
      · exact .inl (ihp h)
      · exact .inr (ihq h)
  | optional p ih =>
      rcases h with h | h
      · exact .inl h
      · exact .inr (ih h)
  | repeated p ih => exact Repeats.mono (fun _ => ih) h
  | listed most p ih => exact Lists.mono (fun _ => ih) h

section Sequences

variable {L : Symbol → List Token → Prop} {p : Phrase} {ps : List Phrase} {t : Terminal}
  {ts : List Token}

theorem means_token_cons_iff :
    (sequence (.terminal t :: ps)).Means L ts ↔
      ∃ token us, ts = token :: us ∧ t.Fits token.kind ∧ (sequence ps).Means L us := by
  constructor
  · rintro ⟨_, us, rfl, ⟨token, rfl, ht⟩, hrest⟩
    exact ⟨token, us, rfl, ht, hrest⟩
  · rintro ⟨token, us, rfl, ht, hrest⟩
    exact ⟨[token], us, rfl, ⟨token, rfl, ht⟩, hrest⟩

theorem means_single_iff : (sequence [p]).Means L ts ↔ p.Means L ts := by
  constructor
  · rintro ⟨us, vs, rfl, hus, rfl⟩
    rwa [List.append_nil]
  · intro h
    exact ⟨ts, [], (List.append_nil ts).symm, h, rfl⟩

theorem means_token_iff :
    (sequence [.terminal t]).Means L ts ↔ ∃ token, ts = [token] ∧ t.Fits token.kind :=
  means_single_iff

end Sequences

/-! ## Languages -/

/-- What the rule of every symbol means, the symbol means too. -/
def Closed (rules : Symbol → Phrase) (L : Symbol → List Token → Prop) : Prop :=
  ∀ s ts, (rules s).Means L ts → L s ts

/-- The language of a symbol: the tokens that it has to mean by the rules. -/
def Language (rules : Symbol → Phrase) (s : Symbol) (ts : List Token) : Prop :=
  ∀ L, Closed rules L → L s ts

variable {rules : Symbol → Phrase} {s : Symbol} {ts : List Token}

theorem Language.intro (h : (rules s).Means (Language rules) ts) : Language rules s ts := by
  intro L hL
  exact hL s ts (h.mono fun s us hus => hus L hL)

theorem Language.cases (h : Language rules s ts) : (rules s).Means (Language rules) ts := by
  refine h (fun s ts => (rules s).Means (Language rules) ts) fun s us hus => ?_
  exact hus.mono fun s vs => Language.intro

theorem means_derives_iff {p : Phrase} :
    p.Means (fun s => Derives (.symbol s)) ts ↔ Derives p ts := by
  induction p generalizing ts with
  | empty => exact derives_empty_iff.symm
  | terminal t => exact derives_terminal_iff.symm
  | symbol s => exact Iff.rfl
  | both p q ihp ihq => simp only [Phrase.Means, ihp, ihq, derives_both_iff]
  | either p q ihp ihq => simp only [Phrase.Means, ihp, ihq, derives_either_iff]
  | optional p ih => simp only [Phrase.Means, ih, derives_optional_iff]
  | repeated p ih =>
      constructor
      · intro h
        induction h with
        | nil => exact .done
        | cons hfirst _ ihrest => exact .again (ih.1 hfirst) ihrest
      · intro h
        generalize hphrase : Phrase.repeated p = q at h
        induction h with
        | done =>
            cases hphrase
            exact Repeats.nil
        | again hfirst _ _ ihrest =>
            cases hphrase
            exact Repeats.cons (ih.2 hfirst) (ihrest rfl)
        | _ => cases hphrase
  | listed most p ih =>
      constructor
      · intro h
        induction h with
        | last hlast => exact .last (ih.1 hlast)
        | more hfirst hcomma _ ihrest => exact .more (ih.1 hfirst) hcomma ihrest
      · intro h
        generalize hphrase : Phrase.listed most p = q at h
        induction h generalizing most with
        | last hlast =>
            cases hphrase
            exact Lists.last (ih.2 hlast)
        | more hfirst hcomma _ _ ihrest =>
            cases hphrase
            exact Lists.more (ih.2 hfirst) hcomma (ihrest _ rfl)
        | _ => cases hphrase

/-- The languages of the rules are what the symbols derive. -/
theorem language_rule_iff : Language rule s ts ↔ Derives (.symbol s) ts := by
  constructor
  · intro h
    exact h (fun s => Derives (.symbol s)) fun s us hus => .symbol (means_derives_iff.1 hus)
  · intro h L hL
    -- A derivation of any phrase is one of its meanings, if the symbols mean enough.
    have hmeans : ∀ (p : Phrase) (us : List Token), Derives p us → p.Means L us := by
      intro p us h
      induction h with
      | empty => exact rfl
      | terminal h => exact ⟨_, rfl, h⟩
      | symbol _ ih => exact hL _ _ ih
      | both _ _ ihp ihq => exact ⟨_, _, rfl, ihp, ihq⟩
      | left _ ih => exact .inl ih
      | right _ ih => exact .inr ih
      | absent => exact .inl rfl
      | present _ ih => exact .inr ih
      | done => exact Repeats.nil
      | again _ _ ihfirst ihrest => exact Repeats.cons ihfirst ihrest
      | last _ ih => exact Lists.last ih
      | more _ hcomma _ ihfirst ihrest => exact Lists.more ihfirst hcomma ihrest
    exact hmeans _ ts h

end Lox.Grammar
