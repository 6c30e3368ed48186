import Lox.Proofs.Machine.Calls
import Mathlib.Data.Set.Card

set_option autoImplicit false

/-! # Call expressions that are being executed

A call expression is being executed from the moment at which its callee starts until its result is
there (`Config.openCalls`). The frames of calls stand for exactly these call expressions, the
latest one on top (`Config.Opens`), so there are as many of them as there are calls in progress.
-/

namespace Lox

/-- A call that goes on to the body of its callee keeps the environment of the caller. -/
theorem State.frames_call {st : State} {s : Setting} {callee : Value} {arguments : List Value}
    {line : Nat} {rest : List (Frame EnvId)} {body : List Stmt}
    (h : (st.call s callee arguments line rest).control = .execAll body) :
    ∃ yield, (st.call s callee arguments line rest).frames = .call st.env yield :: rest := by
  have hcalls := st.calls_call s callee arguments line rest
  generalize st.call s callee arguments line rest = c at hcalls h ⊢
  cases hcalls with
  | function | initialized => exact ⟨_, rfl⟩
  | _ => cases h

namespace Config

/-- The call expressions that are being executed at a moment of a run, each as the earlier moment
at which its callee started: the result of the expression has not come since. -/
def openCalls (s : Setting) (c : Config) (steps : Nat) : Set Nat :=
  {m | m < steps ∧ (c.run s m).StartsCallee s ∧
    ∀ n, m < n → n ≤ steps → ¬ (c.run s n).IsBack (c.run s m).frames.tail}

variable {s : Setting} {c : Config}

theorem mem_openCalls_succ {m steps : Nat} :
    m ∈ c.openCalls s (steps + 1) ↔
      (m ∈ c.openCalls s steps ∨ m = steps ∧ (c.run s m).StartsCallee s) ∧
        ¬ (c.run s (steps + 1)).IsBack (c.run s m).frames.tail := by
  constructor
  · rintro ⟨hlt, hstarts, hopen⟩
    refine ⟨?_, hopen (steps + 1) hlt (Nat.le_refl _)⟩
    rcases Nat.lt_succ_iff_lt_or_eq.1 hlt with hlt | rfl
    · exact .inl ⟨hlt, hstarts, fun n hn hle => hopen n hn (Nat.le_succ_of_le hle)⟩
    · exact .inr ⟨rfl, hstarts⟩
  · rintro ⟨⟨hlt, hstarts, hopen⟩ | ⟨rfl, hstarts⟩, hlast⟩
    · refine ⟨Nat.lt_succ_of_lt hlt, hstarts, fun n hn hle => ?_⟩
      rcases Nat.le_succ_iff.1 hle with hle | rfl
      · exact hopen n hn hle
      · exact hlast
    · refine ⟨Nat.lt_succ_self m, hstarts, fun n hn hle => ?_⟩
      obtain rfl : n = m + 1 := Nat.le_antisymm hle hn
      exact hlast

/-- The frames of calls, from the top, are those of the call expressions that started at these
moments: below each is what waited for the call expression. -/
inductive Opens (s : Setting) (c : Config) : List (Frame EnvId) → List Nat → Prop
  | none {frames : List (Frame EnvId)} (h : ∀ f ∈ frames, f.isCall = false) :
      Opens s c frames []
  | call {above : List (Frame EnvId)} {caller : EnvId} {yield : Yield EnvId} {m : Nat}
      {ms : List Nat} (h : ∀ f ∈ above, f.isCall = false)
      (hrest : Opens s c (c.run s m).frames.tail ms) :
      Opens s c (above ++ .call caller yield :: (c.run s m).frames.tail) (m :: ms)

namespace Opens

variable {frames : List (Frame EnvId)} {f : Frame EnvId} {ms : List Nat} {m : Nat}

theorem push (h : Opens s c frames ms) (hf : f.isCall = false) : Opens s c (f :: frames) ms := by
  cases h with
  | none h => exact .none (List.forall_mem_cons.2 ⟨hf, h⟩)
  | @call above caller yield m ms h hrest =>
      rw [← List.cons_append]
      exact .call (List.forall_mem_cons.2 ⟨hf, h⟩) hrest

theorem drop (h : Opens s c (f :: frames) ms) (hf : f.isCall = false) :
    Opens s c frames ms := by
  generalize hall : f :: frames = all at h
  cases h with
  | none h =>
      subst hall
      exact .none (List.forall_mem_cons.1 h).2
  | @call above caller yield m ms h hrest =>
      cases above with
      | nil =>
          cases hall
          cases hf
      | cons g above =>
          cases hall
          exact .call (List.forall_mem_cons.1 h).2 hrest

theorem pushCall {caller : EnvId} {yield : Yield EnvId}
    (h : Opens s c (c.run s m).frames.tail ms) :
    Opens s c (.call caller yield :: (c.run s m).frames.tail) (m :: ms) := by
  rw [← List.nil_append (_ :: _)]
  exact .call (fun _ h => nomatch h) h

theorem pushAll {come : List (Frame EnvId)} (h : Opens s c frames ms)
    (hcome : ∀ f ∈ come, f.isPlain = true) : Opens s c (come ++ frames) ms := by
  induction come with
  | nil => exact h
  | cons f come ih =>
      obtain ⟨hf, hcome⟩ := List.forall_mem_cons.1 hcome
      exact (ih hcome).push (Frame.isCall_of_isPlain hf)

theorem dropAll {gone : List (Frame EnvId)} (h : Opens s c (gone ++ frames) ms)
    (hgone : ∀ f ∈ gone, f.isPlain = true) : Opens s c frames ms := by
  induction gone with
  | nil => exact h
  | cons f gone ih =>
      obtain ⟨hf, hgone⟩ := List.forall_mem_cons.1 hgone
      exact ih (h.drop (Frame.isCall_of_isPlain hf)) hgone

/-- The frame on top of a call that has ended is that of the latest call expression. -/
theorem dropCall {caller : EnvId} {yield : Yield EnvId}
    (h : Opens s c (.call caller yield :: frames) ms) :
    ∃ m rest, ms = m :: rest ∧ frames = (c.run s m).frames.tail ∧ Opens s c frames rest := by
  generalize hall : Frame.call caller yield :: frames = all at h
  cases h with
  | none h =>
      subst hall
      exact absurd (List.forall_mem_cons.1 h).1 (fun heq => nomatch heq)
  | @call above caller' yield' m ms h hrest =>
      cases above with
      | nil =>
          cases hall
          exact ⟨m, ms, rfl, rfl, hrest⟩
      | cons g above =>
          cases hall
          exact absurd (List.forall_mem_cons.1 h).1 (fun heq => nomatch heq)

theorem countP_eq (h : Opens s c frames ms) : frames.countP Frame.isCall = ms.length := by
  induction h with
  | none h =>
      rw [List.length_nil, List.countP_eq_zero]
      intro f hf
      rw [h f hf]
      exact Bool.false_ne_true
  | @call above caller yield m ms h hrest ih =>
      have habove : above.countP Frame.isCall = 0 := by
        rw [List.countP_eq_zero]
        intro f hf
        rw [h f hf]
        exact Bool.false_ne_true
      rw [List.countP_append, habove, List.countP_cons_of_pos rfl, ih, List.length_cons,
        Nat.zero_add]

/-- What waited for one of the call expressions is further down. -/
theorem length_lt (h : Opens s c frames ms) (hm : m ∈ ms) :
    (c.run s m).frames.tail.length < frames.length := by
  induction h with
  | none h => cases hm
  | @call above caller yield m' ms h hrest ih =>
      rw [List.length_append, List.length_cons]
      rcases List.mem_cons.1 hm with rfl | hm
      · omega
      · have := ih hm
        omega

theorem not_isBack {c' : Config} (h : Opens s c c'.frames ms) (hm : m ∈ ms) :
    ¬ c'.IsBack (c.run s m).frames.tail := by
  intro hback
  have hlt := h.length_lt hm
  rw [hback.1] at hlt
  exact Nat.lt_irrefl _ hlt

end Opens

theorem StartsCallee.frames_eq (h : c.StartsCallee s) :
    (∃ f, f.isPlain = true ∧ c.frames = f :: c.frames.tail) ∧
      ∃ yield, (c.step s).frames = .call c.state.env yield :: c.frames.tail := by
  obtain ⟨hpending, body, hbody⟩ := h
  obtain ⟨control, frames, st⟩ := c
  unfold pendingCall? at hpending
  split at hpending
  · rename_i heq
    cases heq
    exact ⟨⟨_, rfl, rfl⟩, State.frames_call hbody⟩
  · rename_i heq
    cases heq
    exact ⟨⟨_, rfl, rfl⟩, State.frames_call hbody⟩
  · cases hpending

/-- These are the call expressions that are being executed, each once, and the frames are theirs. -/
structure ListsOpen (s : Setting) (c : Config) (steps : Nat) (ms : List Nat) : Prop where
  opens : Opens s c (c.run s steps).frames ms
  nodup : ms.Nodup
  mem_iff : ∀ m, m ∈ c.openCalls s steps ↔ m ∈ ms

namespace ListsOpen

variable {steps m : Nat} {ms : List Nat}

theorem zero (hc : c.callsInProgress = 0) : ListsOpen s c 0 [] := by
  refine ⟨.none fun f hf => ?_, List.nodup_nil, fun m => ⟨fun h => absurd h.1 ?_, ?_⟩⟩
  · rw [callsInProgress, List.countP_eq_zero] at hc
    exact Bool.eq_false_iff.2 (hc f hf)
  · exact Nat.not_lt_zero m
  · exact fun h => absurd h List.not_mem_nil

/-- One more call expression is being executed from now on. -/
theorem starts (h : ListsOpen s c steps ms) (hstarts : (c.run s steps).StartsCallee s) :
    ListsOpen s c (steps + 1) (steps :: ms) := by
  obtain ⟨hopens, hnodup, hmem⟩ := h
  obtain ⟨⟨f, hf, hbefore⟩, yield, hafter⟩ := hstarts.frames_eq
  rw [hbefore] at hopens
  have hopens' : Opens s c (c.run s (steps + 1)).frames (steps :: ms) := by
    rw [run_succ_eq_step, hafter]
    exact (hopens.drop (Frame.isCall_of_isPlain hf)).pushCall
  have hnew : steps ∉ ms := fun h => Nat.lt_irrefl _ ((hmem steps).2 h).1
  refine ⟨hopens', List.nodup_cons.2 ⟨hnew, hnodup⟩, fun m => ?_⟩
  rw [mem_openCalls_succ, hmem, List.mem_cons]
  constructor
  · rintro ⟨hm | ⟨rfl, -⟩, -⟩
    · exact .inr hm
    · exact .inl rfl
  · intro hm
    refine ⟨?_, hopens'.not_isBack (List.mem_cons.2 hm)⟩
    rcases hm with rfl | hm
    · exact .inr ⟨rfl, hstarts⟩
    · exact .inl hm

/-- If the frames stand for the same call expressions as before, none has ended. -/
theorem goesOn (h : ListsOpen s c steps ms) (hstarts : ¬ (c.run s steps).StartsCallee s)
    (hopens : Opens s c (c.run s (steps + 1)).frames ms) : ListsOpen s c (steps + 1) ms := by
  refine ⟨hopens, h.nodup, fun m => ?_⟩
  rw [mem_openCalls_succ, h.mem_iff]
  constructor
  · rintro ⟨hm | ⟨rfl, hm⟩, -⟩
    · exact hm
    · exact absurd hm hstarts
  · exact fun hm => ⟨.inl hm, hopens.not_isBack hm⟩

/-- The call expression that started last has ended. -/
theorem ends (h : ListsOpen s c steps (m :: ms)) (hstarts : ¬ (c.run s steps).StartsCallee s)
    (hback : (c.run s (steps + 1)).IsBack (c.run s m).frames.tail)
    (hopens : Opens s c (c.run s (steps + 1)).frames ms) : ListsOpen s c (steps + 1) ms := by
  refine ⟨hopens, (List.nodup_cons.1 h.nodup).2, fun k => ?_⟩
  rw [mem_openCalls_succ, h.mem_iff, List.mem_cons]
  constructor
  · rintro ⟨(rfl | hk) | ⟨rfl, hk⟩, hopen⟩
    · exact absurd hback hopen
    · exact hk
    · exact absurd hk hstarts
  · exact fun hk => ⟨.inl (.inr hk), hopens.not_isBack hk⟩

theorem step (h : ListsOpen s c steps ms) : ∃ ms', ListsOpen s c (steps + 1) ms' := by
  by_cases hstarts : (c.run s steps).StartsCallee s
  · exact ⟨_, h.starts hstarts⟩
  have hopens := h.opens
  have hturn := step_turn s (c.run s steps)
  rw [← run_succ_eq_step] at hturn
  cases hturn with
  | plain gone come rest hgone hcome hbefore hafter hplace =>
      refine ⟨ms, h.goesOn hstarts ?_⟩
      rw [hbefore] at hopens
      rw [hafter]
      exact (hopens.dropAll hgone).pushAll hcome
  | block hafter hcalls =>
      refine ⟨ms, h.goesOn hstarts ?_⟩
      rw [hafter]
      exact hopens.push rfl
  | body f rest yield hf hbefore hafter hpending hbody hroom hcalls =>
      rw [run_succ_eq_step] at hbody
      exact absurd ⟨hpending, hbody⟩ hstarts
  | leave f rest hbefore hafter hresult hplace =>
      rw [hbefore] at hopens
      cases hf : f.isCall with
      | false =>
          refine ⟨ms, h.goesOn hstarts ?_⟩
          rw [hafter]
          exact hopens.drop hf
      | true =>
          cases f with
          | call caller yield =>
              obtain ⟨m, ms, rfl, hrest, hopens'⟩ := hopens.dropCall
              rw [← hafter] at hopens'
              exact ⟨ms, h.ends hstarts ⟨hafter.trans hrest, hresult⟩ hopens'⟩
          | _ => cases hf

end ListsOpen

/-- At every moment of a run in which no call was in progress at first, the frames of calls are
those of the call expressions that are being executed. -/
theorem exists_listsOpen (hc : c.callsInProgress = 0) (steps : Nat) :
    ∃ ms, ListsOpen s c steps ms := by
  induction steps with
  | zero => exact ⟨[], .zero hc⟩
  | succ steps ih =>
      obtain ⟨ms, h⟩ := ih
      exact h.step

/-- There are as many calls in progress as call expressions that are being executed. -/
theorem callsInProgress_eq_ncard (hc : c.callsInProgress = 0) (steps : Nat) :
    (c.run s steps).callsInProgress = (c.openCalls s steps).ncard := by
  obtain ⟨ms, hopens, hnodup, hmem⟩ := exists_listsOpen (s := s) hc steps
  have hset : c.openCalls s steps = (ms.toFinset : Set Nat) := by
    ext m
    rw [hmem]
    exact List.mem_toFinset.symm
  rw [callsInProgress, hopens.countP_eq, hset, Set.ncard_coe_finset,
    List.toFinset_card_of_nodup hnodup]

end Config

end Lox
