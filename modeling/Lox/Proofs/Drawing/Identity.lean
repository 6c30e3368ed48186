import Lox.Proofs.Binding.Bound
import Lox.Proofs.Drawing.Simulation

set_option autoImplicit false

/-! # Identities in a session

The references in all trees of a session have different identities, also in the trees of lines that
are rejected, since each was drawn when its node was made and trees are not copied. So the table of
a session only grows: no entry is overwritten, and what an earlier line left behind is resolved as
before.
-/

namespace Lox

/-- The function is in the heap, by itself or as a method. -/
def Heap.Holds {ε : Type} (h : Heap ε) (f : Closure ε) : Prop :=
  f ∈ h.functions ∨ ∃ cls ∈ h.classes, ∃ name, (name, f) ∈ cls.methods

/-- A renumbered store holds renumbered functions. -/
theorem Store.exists_of_holds_renumber {r : Renumbering} {st : Store} {f : Closure EnvId}
    (h : (st.renumber r).Holds f) : ∃ g : Closure EnvId, g.renumber r = f := by
  rcases h with hf | ⟨cls, hcls, name, hmethod⟩
  · obtain ⟨g, -, rfl⟩ := Array.mem_map.1 hf
    exact ⟨g, rfl⟩
  · obtain ⟨c, -, rfl⟩ := Array.mem_map.1 hcls
    obtain ⟨m, -, hm⟩ := List.mem_map.1 hmethod
    exact ⟨m.2, congrArg Prod.snd hm⟩

namespace Drawing

/-! ## Trees that are made of trees -/

/-- An assignment refers to what its sides refer to, but for the variable that it is made of: there
it has a new identity. -/
theorem ids_assignTo {target value e : Expr} {equals : Token} {d d' : Drawer}
    (h : assignTo target value equals d = .ok e d') :
    (d'.drawn = d.drawn ∧ (Reference.ids e.references).Subperm
      (Reference.ids target.references ++ Reference.ids value.references)) ∨
    d'.drawn = d.drawn + 1 ∧
      Reference.ids e.references = d'.drawn :: Reference.ids value.references := by
  unfold assignTo at h
  split at h
  · cases h
    exact .inr ⟨rfl, rfl⟩
  · cases h
    left
    rw [Reference.ids, Reference.ids, Reference.ids, ← List.map_append]
    exact ⟨rfl, List.Subperm.refl _⟩
  · cases h
    exact .inl ⟨rfl, (List.sublist_append_left _ _).subperm⟩

namespace Session

variable {session : Session} {clock : Nat → Float} {steps : Nat}

theorem drawn_run (source : String) :
    (session.run clock steps source).2.drawn = drawnAfter source session.drawn := by
  rcases session.run_cases clock steps source with ⟨_, -, hrun⟩ | ⟨_, _, -, hrun⟩ <;> rw [hrun]

theorem afterAll_append (session : Session) (lines more : List String) :
    session.afterAll clock steps (lines ++ more) =
      (session.afterAll clock steps lines).afterAll clock steps more := by
  induction lines generalizing session with
  | nil => rfl
  | cons line lines ih => exact ih _

theorem trees_append (session : Session) (lines more : List String) :
    session.trees clock steps (lines ++ more) =
      session.trees clock steps lines ++
        (session.afterAll clock steps lines).trees clock steps more := by
  induction lines generalizing session with
  | nil => rfl
  | cons line lines ih => exact congrArg _ (ih _)

theorem exists_kept_of_mem_trees {lines : List String} {p : Program}
    (h : p ∈ session.trees clock steps lines) : ∃ source drawn, kept source drawn = p := by
  induction lines generalizing session with
  | nil => cases h
  | cons line lines ih =>
      rcases List.mem_cons.1 h with rfl | h
      · exact ⟨_, _, rfl⟩
      · exact ih h

/-- Identities are never drawn twice, as the counter is not set back. -/
theorem lt_of_mem_ids_trees {lines : List String} {i : Nat}
    (h : i ∈ (session.trees clock steps lines).flatMap Program.ids) : session.drawn < i := by
  induction lines generalizing session with
  | nil => cases h
  | cons line lines ih =>
      rw [trees, List.flatMap_cons, List.mem_append] at h
      rcases h with h | h
      · exact ((ids_kept _ _).2 i h).1
      · have hlt := ih h
        rw [drawn_run] at hlt
        exact Nat.lt_of_le_of_lt (drawn_le_drawnAfter _ _) hlt

/-- No two references of a session have one identity. -/
theorem nodup_ids_trees (session : Session) (lines : List String) :
    ((session.trees clock steps lines).flatMap Program.ids).Nodup := by
  induction lines generalizing session with
  | nil => exact .nil
  | cons line lines ih =>
      rw [trees, List.flatMap_cons, List.nodup_append']
      refine ⟨(ids_kept _ _).1, ih _, fun i hline hlines => ?_⟩
      -- Later lines go on from where the counter is.
      have hle := ((ids_kept _ _).2 i hline).2
      have hlt := lt_of_mem_ids_trees hlines
      rw [drawn_run] at hlt
      omega

section Accepted

variable {source : String} {p : Program} {t : BindingTable}

theorem kept_of_accept (haccept : session.accept source = .ok (p, t)) :
    kept source session.drawn = p :=
  kept_of_parsed (Reading.accept_eq_ok_iff.1 haccept).2.1

/-- The keys of the entries for a line are identities that were drawn for it. -/
theorem lt_of_mem_keys (haccept : session.accept source = .ok (p, t)) {k : Nat} (hk : k ∈ p.keys) :
    session.drawn < k := by
  have hid := p.keys_subperm.subset hk
  rw [← kept_of_accept haccept] at hid
  exact ((ids_kept _ _).2 k hid).1

theorem getElem?_of_mem_bindings (haccept : session.accept source = .ok (p, t))
    {entry : Nat × Nat} (hentry : entry ∈ p.findings.bindings) : t[entry.1]? = some entry.2 := by
  obtain ⟨-, rfl⟩ := Program.bind_eq_ok_iff.1 (Reading.accept_eq_ok_iff.1 haccept).2.2
  have hnodup := nodup_keys_kept source session.drawn
  rw [kept_of_accept haccept] at hnodup
  have hhops : (session.bindings.extend p.findings.bindings).hops? ⟨"", 0, entry.1⟩ =
    some entry.2 := BindingTable.hops?_extend_of_mem hnodup hentry
  exact hhops

theorem getElem?_of_not_mem_keys (haccept : session.accept source = .ok (p, t)) {k : Nat}
    (hk : k ∉ p.keys) : t[k]? = session.bindings[k]? := by
  obtain ⟨-, rfl⟩ := Program.bind_eq_ok_iff.1 (Reading.accept_eq_ok_iff.1 haccept).2.2
  exact BindingTable.getElem?_extend_of_not_mem hk

end Accepted

/-- What the table says of identities that were drawn is what it goes on saying. -/
theorem getElem?_afterAll {k : Nat} (hk : k ≤ session.drawn) (lines : List String) :
    (session.afterAll clock steps lines).bindings[k]? = session.bindings[k]? := by
  induction lines generalizing session with
  | nil => rfl
  | cons line lines ih =>
      have hdrawn := drawn_le_drawnAfter line session.drawn
      rw [Session.afterAll, ih (by rw [drawn_run]; omega)]
      rcases session.run_cases clock steps line with ⟨_, -, hrun⟩ | ⟨p, t, haccept, hrun⟩
      · rw [hrun]
      · rw [hrun]
        exact getElem?_of_not_mem_keys haccept fun hkey =>
          Nat.not_lt_of_le hk (lt_of_mem_keys haccept hkey)

/-- The code that a session holds has identities that were drawn. -/
theorem Numbers.le_of_holds {r : Renumbering} {main : Lox.Session} (h : Numbers r main session)
    {f : Closure EnvId} (hf : session.state.store.Holds f) {ref : Reference}
    (href : ref ∈ f.decl.references) : ref.name.start ≤ session.drawn := by
  have hstore : session.state.store = main.state.store.renumber r := congrArg State.store h.state
  rw [hstore] at hf
  obtain ⟨g, rfl⟩ := Store.exists_of_holds_renumber hf
  rw [Closure.renumber_decl, Function.references_renumber] at href
  obtain ⟨q, -, rfl⟩ := List.mem_map.1 href
  exact h.drawn q.name.start

end Session

/-- No two references have one identity. The parser draws them from the counter of the process, as
it reads, and otherwise does what the parser with offsets does: a source has the same errors, or is
the same tree with other numbers in its references, and a session shows the same for all lines.
However many identities were drawn before, in all the trees of a session together, those of lines
that do not parse or resolve included, identities differ, and resolving a tree records entries under
its own identities only, at most one for each. So resolving a line overwrites no entry of the
session's table, and the code that earlier lines left in the store has the same bindings after any
further lines. What an expression or a declaration gives has identities that it has drawn itself,
and one that fails keeps what it has drawn, so nothing that is dropped shares an identity with what
is read later. The loop that a `for` stands for has the references of its parts once each, and an
assignment those of its sides, with a new identity in place of that of its variable. -/
theorem identities_differ (drawn : Nat) (clock : Nat → Float) (steps : Nat) :
    (∀ lines,
      (Session.start drawn).runAll clock steps lines =
        Lox.Session.start.runAll clock steps lines ∧
      (((Session.start drawn).trees clock steps lines).flatMap Program.ids).Nodup ∧
      (∀ i ∈ ((Session.start drawn).trees clock steps lines).flatMap Program.ids, drawn < i) ∧
      ∀ p ∈ (Session.start drawn).trees clock steps lines, p.keys.Nodup ∧ p.keys.Subperm p.ids) ∧
    (∀ source before offset,
      (ofText source before).errors = (Program.ofText source offset).errors ∧
      ∀ p', (ofText source before).parsed = .ok p' →
        kept source before = p' ∧ ∃ p, (Program.ofText source offset).parsed = .ok p ∧
          p'.map Stmt.erase = p.map (Stmt.renumber .bare)) ∧
    (∀ lines source p t,
      ((Session.start drawn).afterAll clock steps lines).accept source = .ok (p, t) →
      p ∈ (Session.start drawn).trees clock steps (lines ++ [source]) ∧
      (∀ entry ∈ p.findings.bindings, t[entry.1]? = some entry.2 ∧
        ((Session.start drawn).afterAll clock steps lines).bindings[entry.1]? = none) ∧
      ∀ k ∉ p.keys, t[k]? = ((Session.start drawn).afterAll clock steps lines).bindings[k]?) ∧
    (∀ lines more f, ((Session.start drawn).afterAll clock steps lines).state.store.Holds f →
      ∀ r ∈ f.decl.references,
        ((Session.start drawn).afterAll clock steps (lines ++ more)).bindings.hops? r.name =
          ((Session.start drawn).afterAll clock steps lines).bindings.hops? r.name) ∧
    (∀ (budget : Nat) (d d' : Drawer),
      (∀ e, expressionWithin budget d = .ok e d' → (Reference.ids e.references).Nodup ∧
        ∀ i ∈ Reference.ids e.references, d.drawn < i ∧ i ≤ d'.drawn) ∧
      (∀ s, declarationOrFail budget d = .ok s d' → (Reference.ids s.references).Nodup ∧
        ∀ i ∈ Reference.ids s.references, d.drawn < i ∧ i ≤ d'.drawn) ∧
      ∀ failure, expressionWithin budget d = .error failure d' ∨
        declarationOrFail budget d = .error failure d' → d.drawn ≤ d'.drawn) ∧
    (∀ (initial : Option Stmt) (condition increment : Option Expr) (body : Stmt),
      (Stmt.forLoop initial condition increment body).references.Perm
        ((initial.map Stmt.references).getD [] ++ (Expr.referencesOf? condition ++
          (Expr.referencesOf? increment ++ body.references)))) ∧
    ∀ (target value : Expr) (equals : Token) (d d' : Drawer) (e : Expr),
      assignTo target value equals d = .ok e d' →
      (d'.drawn = d.drawn ∧ (Reference.ids e.references).Subperm
        (Reference.ids target.references ++ Reference.ids value.references)) ∨
      d'.drawn = d.drawn + 1 ∧
        Reference.ids e.references = d'.drawn :: Reference.ids value.references := by
  refine ⟨fun lines => ⟨Session.runAll_eq drawn clock steps lines, Session.nodup_ids_trees _ lines,
      fun i hi => Session.lt_of_mem_ids_trees hi, fun p hp => ?_⟩,
    fun source before offset => ?_,
    fun lines source p t haccept => ⟨?_, fun entry hentry => ⟨?_, ?_⟩, fun k hk => ?_⟩,
    fun lines more f hf r hr => ?_,
    fun budget d d' => ⟨fun e hrun => ?_, fun s hrun => ?_, fun failure hrun => ?_⟩,
    fun initial condition increment body => ?_, fun _ _ _ _ _ _ hrun => ids_assignTo hrun⟩
  · obtain ⟨source, drawn, rfl⟩ := Session.exists_kept_of_mem_trees hp
    exact ⟨nodup_keys_kept source drawn, Program.keys_subperm _⟩
  · obtain ⟨herrors, -, hparsed⟩ := ofText_cases source offset before
    refine ⟨herrors, fun p' hp' => ⟨kept_of_parsed hp', ?_⟩⟩
    rcases hparsed with ⟨e, e', -, herror⟩ | ⟨p, q, hp, hq, herase⟩
    · rw [herror] at hp'
      cases hp'
    · cases hp'.symm.trans hq
      exact ⟨p, hp, herase⟩
  · rw [Session.trees_append, Session.trees, Session.kept_of_accept haccept]
    simp
  · exact Session.getElem?_of_mem_bindings haccept hentry
  · obtain ⟨r, hnumbers⟩ := (Session.numbers_start drawn).afterAll Lox.Session.holdsRead_start
      clock steps lines
    exact hnumbers.below _ (Session.lt_of_mem_keys haccept (List.mem_map_of_mem hentry))
  · exact Session.getElem?_of_not_mem_keys haccept hk
  · obtain ⟨q, hnumbers⟩ := (Session.numbers_start drawn).afterAll Lox.Session.holdsRead_start
      clock steps lines
    rw [Session.afterAll_append]
    exact Session.getElem?_afterAll (hnumbers.le_of_holds hf hr) more
  · exact Follows.ids (fun k => (expressionFollows k budget).expression) hrun
  · exact Follows.ids (fun k => (statementFollows k budget).declarationOrFail) hrun
  · rcases hrun with hrun | hrun
    · exact (expressionFollows 0 budget).expression.drawn_le_of_error hrun
    · exact (statementFollows 0 budget).declarationOrFail.drawn_le_of_error hrun
  · have hperm := Grammar.perm_references_forLoop initial condition increment body
    cases initial <;> cases condition <;> cases increment <;> exact hperm

/-- A closure is made and a variable is assigned to; then one line does not parse, after it has
drawn an identity, and another one does not resolve. -/
def closureLines : List String :=
  ["fun make(x) \x7b fun get() \x7b return x; \x7d return get; \x7d", "var g; g = make(1);",
    "print y; w + ; print z;", "\x7b var a = 1; print this; print a; \x7d"]

/-- A line with an entry of its own that calls the closure. -/
def closureCall : String := "\x7b var a = 2; print a + g(); \x7d"

/-- The session after the lines. -/
def closureSession : Session := (Session.start 0).afterAll Float.ofNat 100 closureLines

theorem closureSession_checks :
    (((Session.start 0).trees Float.ofNat 100 closureLines).map Program.ids ==
        [[1, 2], [5, 4], [6, 8], [9, 10]] &&
      (closureSession.accept closureCall).toOption.any
        (fun accepted => accepted.1.findings.bindings == [(11, 0)]) &&
      closureSession.state.store.functions.any fun f => f.decl.references.any fun r =>
        closureSession.bindings.hops? r.name == some 1) = true := by
  decide +kernel

/-- The session goes on as `identities_differ` says: the call gets an entry of its own, and the
closure keeps its binding. -/
theorem identities_differ_closure :
    ∃ p t f r,
      ((Session.start 0).trees Float.ofNat 100 closureLines).map Program.ids =
        [[1, 2], [5, 4], [6, 8], [9, 10]] ∧
      closureSession.accept closureCall = .ok (p, t) ∧ p.findings.bindings = [(11, 0)] ∧
      t[11]? = some 0 ∧ closureSession.bindings[11]? = none ∧
      closureSession.state.store.Holds f ∧ r ∈ f.decl.references ∧
      closureSession.bindings.hops? r.name = some 1 ∧
      ((Session.start 0).afterAll Float.ofNat 100 (closureLines ++ [closureCall])).bindings.hops?
        r.name = some 1 := by
  have hchecks := closureSession_checks
  rw [Bool.and_eq_true, Bool.and_eq_true] at hchecks
  obtain ⟨⟨htrees, haccepts⟩, hheld⟩ := hchecks
  obtain ⟨p, t, haccept, hentries⟩ := Reading.exists_of_accept _ _ _ haccepts
  have hentries : p.findings.bindings = [(11, 0)] := eq_of_beq hentries
  obtain ⟨f, hf, href⟩ := Array.any_eq_true'.1 hheld
  obtain ⟨r, hr, hhops⟩ := List.any_eq_true.1 href
  have hhops := eq_of_beq hhops
  obtain ⟨-, -, haccepted, hcode, -⟩ := identities_differ 0 Float.ofNat 100
  obtain ⟨-, hnew, -⟩ := haccepted closureLines closureCall p t haccept
  obtain ⟨htable, hbefore⟩ := hnew (11, 0) (by rw [hentries]; exact List.mem_cons_self)
  refine ⟨p, t, f, r, eq_of_beq htrees, haccept, hentries, htable, hbefore, .inl hf, hr, hhops, ?_⟩
  rw [hcode closureLines [closureCall] f (.inl hf) r hr]
  exact hhops

end Drawing

end Lox
