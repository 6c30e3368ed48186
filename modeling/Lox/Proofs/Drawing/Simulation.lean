import Lox.Proofs.Drawing.Offsets
import Lox.Proofs.Drawing.Session
import Lox.Proofs.Renumbering.Composition
import Lox.Proofs.Session.Read

set_option autoImplicit false

/-! # Identities in place of offsets

A session that draws identities is the session of offsets renumbered: an offset at which a reference
was read goes to the identity that was drawn for it, and every other one to 0, which is no key
(`Drawing.Session.Numbers`). So both show the same for all lines (`Drawing.Session.runAll_eq`).
-/

namespace Lox

/-! ## Numbers for one more source -/

namespace Renumbering

/-- Goes on from a bound with the identities in place of the offsets. All other offsets from the
bound on go to 0. -/
def extend (r : Renumbering) (bound : Nat) (offsets ids : List Nat) : Renumbering where
  line := id
  start i := if i < bound then r.start i else ids[offsets.idxOf i]?.getD 0

variable (r : Renumbering) {bound : Nat} {offsets ids : List Nat}

theorem extend_start_of_lt {i : Nat} (h : i < bound) :
    (r.extend bound offsets ids).start i = r.start i :=
  if_pos h

theorem extend_start_of_le {i : Nat} (h : bound ≤ i) :
    (r.extend bound offsets ids).start i = ids[offsets.idxOf i]?.getD 0 :=
  if_neg (Nat.not_lt_of_le h)

theorem extend_start_of_not_mem (hlength : ids.length = offsets.length) {i : Nat} (h : bound ≤ i)
    (hi : i ∉ offsets) : (r.extend bound offsets ids).start i = 0 := by
  rw [extend_start_of_le r h, List.idxOf_eq_length hi, List.getElem?_eq_none (Nat.le_of_eq hlength)]
  rfl

theorem map_extend_start (hlength : ids.length = offsets.length) (hnodup : offsets.Nodup)
    (hbound : ∀ i ∈ offsets, bound ≤ i) :
    offsets.map (r.extend bound offsets ids).start = ids := by
  refine List.ext_getElem (by rw [List.length_map, hlength]) fun j hj hj' => ?_
  rw [List.length_map] at hj
  rw [List.getElem_map, extend_start_of_le r (hbound _ (List.getElem_mem hj)),
    hnodup.idxOf_getElem j hj, List.getElem?_eq_getElem hj']
  rfl

/-- Where an offset goes: below the bound as before, to one of the identities, or to 0. -/
theorem extend_start_cases (hlength : ids.length = offsets.length) (hnodup : offsets.Nodup)
    (hbound : ∀ i ∈ offsets, bound ≤ i) (i : Nat) :
    (i < bound ∧ (r.extend bound offsets ids).start i = r.start i) ∨
      (i ∈ offsets ∧ (r.extend bound offsets ids).start i ∈ ids) ∨
      bound ≤ i ∧ (r.extend bound offsets ids).start i = 0 := by
  by_cases hi : i < bound
  · exact .inl ⟨hi, extend_start_of_lt r hi⟩
  · have hi := Nat.le_of_not_lt hi
    by_cases hmem : i ∈ offsets
    · refine .inr (.inl ⟨hmem, ?_⟩)
      have hmap := List.mem_map_of_mem (f := (r.extend bound offsets ids).start) hmem
      rwa [map_extend_start r hlength hnodup hbound] at hmap
    · exact .inr (.inr ⟨hi, extend_start_of_not_mem r hlength hi hmem⟩)

end Renumbering

/-- A state without references from a bound on is the same for renumberings that agree below the
bound, and somewhere else. -/
theorem State.Below.renumber_congr {st : State} {bound : Nat} (h : st.Below bound)
    {r r' : Renumbering} (hline : r'.line = r.line) (hbelow : ∀ i < bound, r'.start i = r.start i)
    {j : Nat} (hj : bound ≤ j) (hagree : r'.start j = r.start j) :
    st.renumber r' "" = st.renumber r "" := by
  -- Nothing is changed by moving what is not there to where both renumberings agree.
  obtain ⟨q, hkeeps, hsame⟩ : ∃ q : Renumbering, q.Keeps bound ∧ q.andThen r' = q.andThen r := by
    refine ⟨⟨id, fun i => if i < bound then i else j⟩, ⟨fun _ => rfl, fun i hi => if_pos hi,
      fun i hi => ?_⟩, ?_⟩
    · show bound ≤ if i < bound then i else j
      rwa [if_neg (Nat.not_lt_of_le hi)]
    · have hstarts : ∀ i, r'.start (if i < bound then i else j) =
          r.start (if i < bound then i else j) := fun i => by
        by_cases hi : i < bound
        · rw [if_pos hi, hbelow i hi]
        · rw [if_neg hi, hagree]
      simp only [Renumbering.andThen, hline, Function.comp_def, hstarts]
  have hq := h q hkeeps
  calc st.renumber r' ""
      = (st.renumber q "").renumber r' "" := by rw [hq]
    _ = (st.renumber q "").renumber r "" := by
        rw [State.renumber_renumber, hsame, ← State.renumber_renumber]
    _ = st.renumber r "" := by rw [hq]

namespace Program

variable {source : String} {offset : Nat} {p p' : Program}

/-- A program with identities is the program with offsets renumbered. -/
theorem eq_map_renumber (h : (ofText source offset).parsed = .ok p)
    (herase : p'.map Stmt.erase = p.map (Stmt.renumber .bare)) (r : Renumbering) :
    p'.ids.length = p.ids.length ∧
      p' = p.map (Stmt.renumber (r.extend offset p.ids p'.ids)) := by
  have hlength : p'.ids.length = p.ids.length := by
    have hreferences := congrArg (List.length ∘ Stmt.referencesAll) herase
    rw [← Stmt.eraseAll_eq_map, ← Stmt.renumberAll_eq_map] at hreferences
    simp only [Function.comp_apply, Stmt.referencesAll_erase, Stmt.referencesAll_renumber,
      List.length_map] at hreferences
    simpa [ids, Reference.ids, references] using hreferences
  refine ⟨hlength, ?_⟩
  have htakes : (r.extend offset p.ids p'.ids).Takes (Stmt.referencesAll p)
      (Stmt.referencesAll p') (Stmt.bareNamesAll p) := by
    refine ⟨fun _ => rfl, ?_, fun n hn => ?_⟩
    · exact (Renumbering.map_extend_start r hlength (distinctOffsets_of_ofText h) fun i hi =>
        (place_of_mem_names h (.inl hi)).1).symm
    · have hplace := place_of_mem_names h (.inr (List.mem_map_of_mem hn))
      exact Renumbering.extend_start_of_not_mem r hlength hplace.1 (not_mem_ids_of_bareNames h hn)
  rw [← Stmt.renumberAll_eq_map]
  refine Stmt.renumberAll_of_erase p p' ?_ htakes
  rw [Stmt.eraseAll_eq_map, Stmt.renumberAll_eq_map, herase]

end Program

namespace Drawing

/-- A source is read with identities as it is read at an offset: with the same errors, and as the
same program but for the numbers. -/
theorem ofText_cases (source : String) (offset drawn : Nat) :
    (ofText source drawn).errors = (Program.ofText source offset).errors ∧
      (ofText source drawn).lexErrors.isEmpty =
        (Program.ofText source offset).lexErrors.isEmpty ∧
      ((∃ e e', (Program.ofText source offset).parsed = .error e ∧
        (ofText source drawn).parsed = .error e') ∨
      ∃ p p' : Program, (Program.ofText source offset).parsed = .ok p ∧
        (ofText source drawn).parsed = .ok p' ∧
        p'.map Stmt.erase = p.map (Stmt.renumber .bare)) := by
  -- A source at an offset is the source at the start, moved.
  have hline : ∀ i, (Renumbering.mk id (· + offset)).line i = i := fun _ => rfl
  have hstart : ∀ i, 0 ≤ i → i ≤ 0 + source.length →
      (Renumbering.mk id (· + offset)).start i = i + offset := fun _ _ _ => rfl
  obtain ⟨hlex, hparsed⟩ := Program.ofText_moved hline hstart
  have herrors := Program.errors_moved hline hstart
  rw [Nat.zero_add] at hlex hparsed herrors
  refine ⟨?_, ?_, ?_⟩
  · rw [herrors, Reading.errors, Reading.errors]
    rcases parsed_cases source drawn with ⟨errors, h, h'⟩ | ⟨p, p', h, h', -⟩
    · rw [h, h']
      rfl
    · rw [h, h']
      rfl
  · rw [hlex, List.isEmpty_map]
    rfl
  · rw [hparsed]
    rcases parsed_cases source drawn with ⟨errors, h, h'⟩ | ⟨p, p', h, h', herase⟩
    · rw [h, h']
      exact .inl ⟨_, _, rfl, rfl⟩
    · rw [h, h']
      refine .inr ⟨_, p', rfl, rfl, ?_⟩
      rw [herase, Program.renumber_renumber]
      rfl

namespace Session

/-- The second session draws identities, and is the first one renumbered. -/
structure Numbers (r : Renumbering) (main : Lox.Session) (session : Session) : Prop where
  line : ∀ i, r.line i = i
  state : session.state = main.state.renumber r ""
  bindings : ∀ i : Nat, session.bindings[r.start i]? = main.bindings[i]?
  /-- Identities were drawn by this session or before. -/
  drawn : ∀ i, r.start i ≤ session.drawn
  /-- What is not read yet has no identity. -/
  unread : ∀ i, main.offset ≤ i → r.start i = 0
  below : session.bindings.Below (session.drawn + 1)

theorem numbers_start (drawn : Nat) :
    Numbers ⟨id, fun _ => 0⟩ Lox.Session.start (start drawn) where
  line _ := rfl
  state := (State.renumber_start _).symm
  bindings _ := by
    show (∅ : BindingTable)[_]? = (∅ : BindingTable)[_]?
    rw [Std.TreeMap.getElem?_emptyc, Std.TreeMap.getElem?_emptyc]
  drawn _ := Nat.zero_le _
  unread _ _ := rfl
  below := BindingTable.below_empty _

variable {r : Renumbering} {main : Lox.Session} {session : Session}

/-- The table says the same of a source's references as before: nothing. -/
theorem Numbers.bindings_extend (h : Numbers r main session) (hread : main.HoldsRead)
    {offsets ids : List Nat} (hlength : ids.length = offsets.length) (hnodup : offsets.Nodup)
    (hbound : ∀ i ∈ offsets, main.offset ≤ i) (hids : ∀ i ∈ ids, session.drawn < i) (i : Nat) :
    session.bindings[(r.extend main.offset offsets ids).start i]? = main.bindings[i]? := by
  rcases r.extend_start_cases hlength hnodup hbound i with ⟨hi, heq⟩ | ⟨hi, hmem⟩ | ⟨hi, heq⟩
  · rw [heq, h.bindings i]
  · rw [hread.bindings i (hbound i hi), h.below _ (hids _ hmem)]
  · rw [heq, ← h.unread i hi, h.bindings i]

/-- No other offset goes to the identity of a reference that was read. -/
theorem Numbers.injective_extend (h : Numbers r main session) {offsets ids : List Nat}
    (hlength : ids.length = offsets.length) (hnodup : offsets.Nodup) (hnodup' : ids.Nodup)
    (hbound : ∀ i ∈ offsets, main.offset ≤ i) (hids : ∀ i ∈ ids, session.drawn < i) {i j : Nat}
    (hi : i ∈ offsets)
    (heq : (r.extend main.offset offsets ids).start i =
      (r.extend main.offset offsets ids).start j) : i = j := by
  have hmap := r.map_extend_start hlength hnodup hbound
  have hlt : session.drawn < (r.extend main.offset offsets ids).start i := by
    refine hids _ ?_
    have hmem := List.mem_map_of_mem (f := (r.extend main.offset offsets ids).start) hi
    rwa [hmap] at hmem
  rcases r.extend_start_cases hlength hnodup hbound j with ⟨-, hj⟩ | ⟨hj, -⟩ | ⟨-, hj⟩
  · have hle := h.drawn j
    omega
  · rw [← hmap] at hnodup'
    exact List.inj_on_of_nodup_map hnodup' hi hj heq
  · omega

/-- Both sessions accept a source, or reject it with the same errors. The identities in the program
that is accepted go on the renumbering. -/
theorem Numbers.accept (h : Numbers r main session) (hread : main.HoldsRead) (source : String) :
    (∃ errors, main.accept source = .error errors ∧ session.accept source = .error errors) ∨
      ∃ p p' t t', main.accept source = .ok (p, t) ∧ session.accept source = .ok (p', t') ∧
        p'.ids.length = p.ids.length ∧
        p' = p.map (Stmt.renumber (r.extend main.offset p.ids p'.ids)) ∧
        ∀ i : Nat, t'[(r.extend main.offset p.ids p'.ids).start i]? = t[i]? := by
  obtain ⟨herrors, hlex, ⟨e, e', hp, hp'⟩ | ⟨p, p', hp, hp', herase⟩⟩ :=
    ofText_cases source main.offset session.drawn
  · left
    refine ⟨(Program.ofText source main.offset).errors, ?_, ?_⟩
    · rw [Lox.Session.accept, Reading.accept, hp]
    · rw [Session.accept, Reading.accept, hp', herrors]
  · obtain ⟨hlength, hsame⟩ := Program.eq_map_renumber hp herase r
    have hnodup : p.ids.Nodup := Program.distinctOffsets_of_ofText hp
    have hbound : ∀ i ∈ p.ids, main.offset ≤ i := fun i hi =>
      (Program.place_of_mem_names hp (.inl hi)).1
    obtain ⟨hnodup', hdrawn⟩ := ids_kept source session.drawn
    rw [kept_of_parsed hp'] at hnodup' hdrawn
    have hids : ∀ i ∈ p'.ids, session.drawn < i := fun i hi => (hdrawn i hi).1
    have hinj : ∀ entry ∈ p.findings.bindings, ∀ j,
        (r.extend main.offset p.ids p'.ids).start entry.1 =
          (r.extend main.offset p.ids p'.ids).start j → entry.1 = j := fun entry hentry j heq =>
      h.injective_extend hlength hnodup hnodup' hbound hids
        (p.keys_subperm.subset (List.mem_map_of_mem hentry)) heq
    rcases Reading.accept_renumber (fun _ => rfl)
        (h.bindings_extend hread hlength hnodup hbound hids) herrors hlex
        (.inr ⟨p, hp, hsame ▸ hp', hinj⟩) with
      ⟨errors, haccept, haccept'⟩ | ⟨q, t, t', haccept, haccept', ht⟩
    · exact .inl ⟨errors, haccept, haccept'⟩
    · obtain ⟨-, hq, -⟩ := Reading.accept_eq_ok_iff.1 haccept
      obtain rfl : p = q := Except.ok.inj (hp.symm.trans hq)
      rw [← hsame] at haccept'
      exact .inr ⟨p, p', t, t', haccept, haccept', hlength, hsame, ht⟩

theorem run_cases (session : Session) (clock : Nat → Float) (steps : Nat) (source : String) :
    (∃ errors, session.accept source = .error errors ∧
      session.run clock steps source =
        (⟨"", .rejected errors⟩, { session with drawn := drawnAfter source session.drawn })) ∨
      ∃ p t, session.accept source = .ok (p, t) ∧
        session.run clock steps source =
          (.ofConfig (session.runProgram clock steps p t),
            ⟨t, (session.runProgram clock steps p t).state, drawnAfter source session.drawn⟩) := by
  rw [run]
  cases session.accept source with
  | error errors => exact .inl ⟨errors, rfl, rfl⟩
  | ok accepted => exact .inr ⟨accepted.1, accepted.2, rfl, rfl⟩

/-! ### Going on after a source -/

/-- What comes behind a source that was read has no identity yet. -/
theorem extend_start_of_offsetAfter_le (r : Renumbering) {source : String} {p : Program}
    {ids : List Nat} (hp : (Program.ofText source main.offset).parsed = .ok p)
    (hlength : ids.length = p.ids.length) {i : Nat} (hi : main.offsetAfter source ≤ i) :
    (r.extend main.offset p.ids ids).start i = 0 := by
  have hoffset := Nat.le_trans (main.offset_le_offsetAfter source) hi
  refine r.extend_start_of_not_mem hlength hoffset fun hmem => ?_
  have hlt := (Program.place_of_mem_names hp (.inl hmem)).2
  rw [Lox.Session.offsetAfter] at hi
  omega

/-- No identity was drawn later than the last one. -/
theorem Numbers.extend_start_le (h : Numbers r main session) {offsets ids : List Nat}
    (hlength : ids.length = offsets.length) (hnodup : offsets.Nodup)
    (hbound : ∀ i ∈ offsets, main.offset ≤ i) {drawn : Nat} (hle : session.drawn ≤ drawn)
    (hids : ∀ i ∈ ids, i ≤ drawn) (i : Nat) :
    (r.extend main.offset offsets ids).start i ≤ drawn := by
  rcases r.extend_start_cases hlength hnodup hbound i with ⟨-, heq⟩ | ⟨-, hmem⟩ | ⟨-, heq⟩
  · rw [heq]
    exact Nat.le_trans (h.drawn i) hle
  · exact hids _ hmem
  · rw [heq]
    exact Nat.zero_le _

/-- Nothing in the state has an offset that is not read yet, so the state is as before. -/
theorem Numbers.state_extend (h : Numbers r main session) (hread : main.HoldsRead)
    {offsets ids : List Nat} {behind : Nat} (hbehind : main.offset ≤ behind)
    (hunread : (r.extend main.offset offsets ids).start behind = 0) :
    session.state = main.state.renumber (r.extend main.offset offsets ids) "" := by
  refine h.state.trans (hread.state.renumber_congr (funext fun i => (h.line i).symm)
    (fun i hi => r.extend_start_of_lt hi) hbehind ?_).symm
  rw [hunread, h.unread _ hbehind]

/-- A source that is rejected leaves the renumbering as it is. -/
theorem Numbers.reject (h : Numbers r main session) (source : String) :
    Numbers r { main with offset := main.offsetAfter source }
      { session with drawn := drawnAfter source session.drawn } where
  line := h.line
  state := h.state
  bindings := h.bindings
  drawn i := Nat.le_trans (h.drawn i) (drawn_le_drawnAfter source session.drawn)
  unread i hi := h.unread i (Nat.le_trans (main.offset_le_offsetAfter source) hi)
  below := h.below.mono (Nat.succ_le_succ (drawn_le_drawnAfter source session.drawn))

/-- Both sessions show the same for a source, and go on alike. -/
theorem Numbers.run (h : Numbers r main session) (hread : main.HoldsRead) (clock : Nat → Float)
    (steps : Nat) (source : String) :
    (session.run clock steps source).1 = (main.run clock steps source).1 ∧
      ∃ r', Numbers r' (main.run clock steps source).2 (session.run clock steps source).2 := by
  rcases h.accept hread source with ⟨errors, haccept, haccept'⟩ |
    ⟨p, p', t, t', haccept, haccept', hlength, hsame, ht⟩
  · rw [Lox.Session.run, Session.run, haccept, haccept']
    exact ⟨rfl, r, h.reject source⟩
  · obtain ⟨-, hp, -⟩ := Lox.Session.accept_eq_ok_iff.1 haccept
    obtain ⟨-, hp', hbind'⟩ := Reading.accept_eq_ok_iff.1 haccept'
    obtain ⟨-, hids⟩ := ids_kept source session.drawn
    rw [kept_of_parsed hp'] at hids
    have hdrawn := drawn_le_drawnAfter source session.drawn
    have hunread : ∀ i, main.offsetAfter source ≤ i →
        (r.extend main.offset p.ids p'.ids).start i = 0 := fun i =>
      extend_start_of_offsetAfter_le r hp hlength
    have hstate := h.state_extend hread (main.offset_le_offsetAfter source)
      (hunread _ (Nat.le_refl _))
    have hstart := h.extend_start_le hlength (Program.distinctOffsets_of_ofText hp)
      (fun i hi => (Program.place_of_mem_names hp (.inl hi)).1) hdrawn fun i hi => (hids i hi).2
    have hline : ∀ i, (r.extend main.offset p.ids p'.ids).line i = i := fun _ => rfl
    generalize r.extend main.offset p.ids p'.ids = r' at *
    have hagrees : Setting.Agrees r' ⟨t, clock⟩ ⟨t', clock⟩ := ⟨ht, rfl⟩
    have hlast : session.runProgram clock steps p' t' =
        (main.runProgram clock steps p t).renumber r' "" := by
      rw [runProgram, Lox.Session.runProgram, Config.run_renumber hagrees,
        Config.ofProgram_renumber, ← hsame, hstate]
      rfl
    have hreport : Report.ofConfig (session.runProgram clock steps p' t') =
        Report.ofConfig (main.runProgram clock steps p t) := by
      rw [hlast, Report.ofConfig_renumber, Ending.renumber_eq hline, String.empty_append]
    have hbelow : t'.Below (drawnAfter source session.drawn + 1) := by
      obtain ⟨-, rfl⟩ := Program.bind_eq_ok_iff.1 hbind'
      refine (h.below.mono (Nat.succ_le_succ hdrawn)).extend fun entry hentry => ?_
      have hmem := p'.keys_subperm.subset (List.mem_map_of_mem hentry)
      exact Nat.lt_succ_of_le (hids _ hmem).2
    rw [Lox.Session.run, Session.run, haccept, haccept']
    exact ⟨hreport, r', hline, congrArg Config.state hlast, ht, hstart, hunread, hbelow⟩

theorem Numbers.afterAll (h : Numbers r main session) (hread : main.HoldsRead)
    (clock : Nat → Float) (steps : Nat) (lines : List String) :
    ∃ r', Numbers r' (main.afterAll clock steps lines) (session.afterAll clock steps lines) := by
  induction lines generalizing r main session with
  | nil => exact ⟨r, h⟩
  | cons line lines ih =>
      obtain ⟨-, r', h'⟩ := h.run hread clock steps line
      exact ih h' (hread.run clock steps line)

theorem Numbers.runAll (h : Numbers r main session) (hread : main.HoldsRead)
    (clock : Nat → Float) (steps : Nat) (lines : List String) :
    session.runAll clock steps lines = main.runAll clock steps lines := by
  induction lines generalizing r main session with
  | nil => rfl
  | cons line lines ih =>
      obtain ⟨hreport, r', h'⟩ := h.run hread clock steps line
      rw [Lox.Session.runAll_cons, ← hreport, ← ih h' (hread.run clock steps line)]
      rfl

/-- Sessions with identities and with offsets show the same for all lines. -/
theorem runAll_eq (drawn : Nat) (clock : Nat → Float) (steps : Nat) (lines : List String) :
    (start drawn).runAll clock steps lines = Lox.Session.start.runAll clock steps lines :=
  (numbers_start drawn).runAll Lox.Session.holdsRead_start clock steps lines

end Session

end Drawing

end Lox
