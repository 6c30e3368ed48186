import Lox.Proofs.Binding.Bound
import Lox.Proofs.Objects.Reached
import Lox.Proofs.Store.Links

set_option autoImplicit false

/-! # Links end

Values, functions, instances and environments may refer to each other in circles: a variable may
hold a function that is closed over the environment of this very variable, and an instance may be
its own field. The links from an environment to the one around it, and from a class to its
superclass, never do: each leads to something older. So in every reachable state, also after an
error, all walks along them end, those along environments in the global one
(`Config.Reached.links_end`).
-/

namespace Lox

/-! ## Links that stay -/

namespace Store

variable {st st' : Store}

theorem Sound.enclosing?_global (h : st.Sound) : st.enclosing? globalEnv = none := by
  cases houter : st.enclosing? globalEnv with
  | none => rfl
  | some outer => exact absurd (h.enclosing globalEnv outer houter) (Nat.not_lt_zero outer)

/-- A walk outward ends in the global environment. -/
theorem Sound.getLast?_walk (h : st.Sound) {e : EnvId} {path : List EnvId}
    (hwalk : Walk st.enclosing? e path) (he : e < st.environments.size) :
    path.getLast? = some globalEnv := by
  obtain ⟨a, ha, hnone⟩ := hwalk.next_getLast
  have hle := (hwalk.pairwise h.enclosing).2 a (List.mem_of_getLast? ha)
  rw [ha, h.outermost a (Nat.lt_of_le_of_lt hle he) hnone]

theorem Sound.superclass_lt (h : st.Sound) (cls above : ClassId)
    (hsuper : st.superclass? cls = some above) : above < cls := by
  obtain ⟨c, hc, habove⟩ := Option.bind_eq_some_iff.1 hsuper
  exact (h.classes cls c hc).superclass above habove

/-- An environment that is there keeps its link, and goes on having none if it has none. -/
theorem Grows.enclosing?_eq (h : st.Grows st') (hst : st.Sound) (hst' : st'.Sound) {e : EnvId}
    (he : e < st.environments.size) : st'.enclosing? e = st.enclosing? e := by
  cases houter : st.enclosing? e with
  | some outer => exact h.enclosing e outer houter
  | none =>
      rw [hst.outermost e he houter]
      exact hst'.enclosing?_global

/-- A class that is there keeps its superclass. -/
theorem Grows.superclass?_eq (h : st.Grows st') {cls : ClassId} (hcls : cls < st.classes.size) :
    st'.superclass? cls = st.superclass? cls := by
  have hget := Array.getElem?_eq_getElem hcls
  rw [Heap.superclass?, Heap.superclass?, hget, h.classes cls _ hget]

end Store

/-! ## Environments that are referred to -/

/-- The environments that a frame goes back to, or looks for `this` in. -/
def Frame.environments : Frame EnvId → List EnvId
  | .scope outer => [outer]
  | .call caller (.receiver e) => [caller, e]
  | .call caller _ => [caller]
  | _ => []

/-- The environments that there are: every one in the store, the current one, those that blocks and
calls go back to, and those that functions, bound methods among them, and the methods of classes are
closed over. -/
inductive Config.Mentions (c : Config) : EnvId → Prop
  | stored {e : EnvId} (h : e < c.state.store.environments.size) : Mentions c e
  | current : Mentions c c.state.env
  | waiting {e : EnvId} (f : Frame EnvId) (hf : f ∈ c.frames) (h : e ∈ f.environments) :
      Mentions c e
  | function (f : FunctionId) (closure : Closure EnvId)
      (h : c.state.store.functions[f]? = some closure) : Mentions c closure.env
  | method (cls : ClassId) (o : ClassObject EnvId) (h : c.state.store.classes[cls]? = some o)
      (name : String) (m : Closure EnvId) (hm : (name, m) ∈ o.methods) : Mentions c m.env

theorem Frame.Sound.lt_size {st : Store} {f : Frame EnvId} (h : f.Sound st) {e : EnvId}
    (he : e ∈ f.environments) : e < st.environments.size := by
  cases f with
  | scope outer =>
      obtain rfl := List.mem_singleton.1 he
      exact h
  | call caller yield =>
      cases yield with
      | receiver env =>
          rcases List.mem_cons.1 he with rfl | he
          · exact h.1
          · obtain rfl := List.mem_singleton.1 he
            exact h.2
      | result | made =>
          obtain rfl := List.mem_singleton.1 he
          exact h.1
  | _ => cases he

/-- No environment that is referred to is missing. -/
theorem Config.Sound.lt_size {base : Store} {c : Config} (h : c.Sound base) {e : EnvId}
    (he : c.Mentions e) : e < c.state.store.environments.size := by
  obtain @⟨control, fs, st, hst, hcontrol⟩ := h
  cases he with
  | stored h => exact h
  | current => exact hst.env
  | waiting f hf he => exact (hst.frames f hf).lt_size he
  | function f closure hclosure => exact (hst.store.sound.functions f closure hclosure).env
  | method cls o ho name m hm => exact ((hst.store.sound.classes cls o ho).methods _ hm).1.env

namespace Config.Reached

variable {past : List Config} {c : Config}

/-- The environments and the classes in every reachable state. From each environment that anything
refers to, the links outward lead through ever older environments to the global one, and from each
class the links to superclasses lead through ever older classes to one that has none. The walks were
the same at each earlier point at which their first place was there. Reading and assigning
variables, going so many links out and finding methods come to an end, because they look for the
first match on such a walk. -/
theorem links_end (h : Reached past c) :
    (∀ e, c.Mentions e → ∃ path : List EnvId, Walk c.state.store.enclosing? e path ∧
      path.Pairwise (· > ·) ∧ path.getLast? = some globalEnv ∧
      (∀ earlier ∈ past, e < earlier.state.store.environments.size →
        Walk earlier.state.store.enclosing? e path) ∧
      (∀ name, c.state.store.get? e name = path.findSome? (c.state.store.lookupIn? · name)) ∧
      (∀ name v, c.state.store.assign? e name v =
        (path.find? fun a => (c.state.store.lookupIn? a name).isSome).map
          (c.state.store.define · name v)) ∧
      ∀ hops, c.state.store.ancestor? e hops = path[hops]?) ∧
    ∀ cls : ClassId, ∃ path : List ClassId, Walk c.state.store.superclass? cls path ∧
      path.Pairwise (· > ·) ∧
      (∀ earlier ∈ past, cls < earlier.state.store.classes.size →
        Walk earlier.state.store.superclass? cls path) ∧
      ∀ name, c.state.store.method? cls name =
        path.findSome? (c.state.store.ownMethod? · name) := by
  have hst := h.sound.store
  refine ⟨fun e he => ?_, fun cls => ?_⟩
  · obtain ⟨path, hwalk⟩ := exists_walk hst.enclosing e
    refine ⟨path, hwalk, (hwalk.pairwise hst.enclosing).1,
      hst.getLast?_walk hwalk (h.sound.lt_size he), fun earlier hearlier hthere => ?_,
      Store.get?_eq_findSome? hwalk hst.enclosing, Store.assign?_eq_map hwalk hst.enclosing,
      Store.ancestor?_eq_getElem? hwalk⟩
    obtain ⟨_, hreached⟩ := h.exists_of_mem hearlier
    exact hwalk.congr hst.enclosing
      (fun a ha => ((h.grows hearlier).enclosing?_eq hreached.sound.store hst ha).symm) hthere
  · obtain ⟨path, hwalk⟩ := exists_walk hst.superclass_lt cls
    refine ⟨path, hwalk, (hwalk.pairwise hst.superclass_lt).1, fun earlier hearlier hthere => ?_,
      Heap.method?_eq_findSome? hwalk hst.superclass_lt⟩
    exact hwalk.congr hst.superclass_lt
      (fun a ha => ((h.grows hearlier).superclass?_eq ha).symm) hthere

/-- A block fails in which an instance is its own field and has a bound method and a function as
others, the function being closed over the environment that holds both. The walk from there is one
link long, as is that from the class of the instance. -/
theorem links_end_circular :
    ∃ p t past c, Session.start.accept ("class A \x7b m() \x7b \x7d \x7d class B < A \x7b \x7d " ++
        "\x7b var b = B(); b.own = b; b.bound = b.m; fun f() \x7b \x7d b.f = f; nil(); \x7d") =
          .ok (p, t) ∧
      c = Session.start.runProgram Float.ofNat 100 p t ∧ Reached past c ∧
      (∃ error, c.control = .failing error) ∧
      c.state.store.lookupIn? 2 "f" = some (.functionRef 1) ∧
      c.state.store.field? 0 "own" = some (.instanceRef 0) ∧
      (∃ closure, c.state.store.functions[1]? = some closure ∧ closure.env = 2 ∧
        c.Mentions closure.env) ∧
      Walk c.state.store.enclosing? 2 [2, 0] ∧ Walk c.state.store.superclass? 1 [1, 0] ∧
      c.state.store.ancestor? 2 1 = some globalEnv ∧
      c.state.store.method? 1 "m" = c.state.store.ownMethod? 0 "m" := by
  obtain ⟨p, t, haccept, hcheck⟩ := Session.exists_of_accept .start
    ("class A \x7b m() \x7b \x7d \x7d class B < A \x7b \x7d " ++
      "\x7b var b = B(); b.own = b; b.bound = b.m; fun f() \x7b \x7d b.f = f; nil(); \x7d")
    (fun pt =>
      let c := Session.start.runProgram Float.ofNat 100 pt.1 pt.2
      let st := c.state.store
      ((c.outcome?.any fun result => !result.isOk) &&
        ((st.lookupIn? 2 "f").any (Value.equals (.functionRef 1)) &&
          (st.field? 0 "own").any (Value.equals (.instanceRef 0)))) &&
        ((((st.functions[1]?).any fun closure => closure.env == 2) &&
            (st.enclosing? 2 == some 0 && st.superclass? 1 == some 0)) &&
          (st.superclass? 0 == none && (st.ownMethod? 1 "m").isNone)))
    (by decide +kernel)
  simp only [Bool.and_eq_true, beq_iff_eq] at hcheck
  obtain ⟨⟨hfailing, hf, hown⟩, ⟨hclosure, houter, habove⟩, hroot, hnone⟩ := hcheck
  have hstart : (Session.start.afterAll Float.ofNat 0 []).accept _ = .ok (p, t) := haccept
  obtain ⟨past, hreached⟩ := Session.exists_reached Float.ofNat 0 hstart 100
  replace hreached : Reached past (Session.start.runProgram Float.ofNat 100 p t) := hreached
  generalize hc : Session.start.runProgram Float.ofNat 100 p t = c at *
  obtain ⟨closure, hclosure, henv⟩ := (Option.any_eq_true _ _).1 hclosure
  rw [beq_iff_eq] at henv
  have hmentions : c.Mentions closure.env := .function 1 closure hclosure
  obtain ⟨henvironments, hclasses⟩ := hreached.links_end
  obtain ⟨path, hwalk, -, -, -, -, -, hancestor⟩ := henvironments closure.env hmentions
  obtain ⟨classPath, hclassWalk, -, -, hmethod⟩ := hclasses 1
  have hglobal := hreached.sound.store.enclosing?_global
  have houtward : Walk c.state.store.enclosing? 2 [2, 0] := .link houter (.last hglobal)
  have hupward : Walk c.state.store.superclass? 1 [1, 0] := .link habove (.last hroot)
  rw [henv] at hwalk hancestor
  obtain rfl := hwalk.unique houtward
  obtain rfl := hclassWalk.unique hupward
  have hmethod : c.state.store.method? 1 "m" = c.state.store.ownMethod? 0 "m" := by
    have hm := hmethod "m"
    rw [List.findSome?_cons, Option.isNone_iff_eq_none.1 hnone] at hm
    simpa using hm
  refine ⟨p, t, past, c, haccept, hc.symm, hreached, ?_, ?_, ?_,
    ⟨closure, hclosure, henv, hmentions⟩, houtward, hupward, hancestor 1, hmethod⟩
  · obtain ⟨result, houtcome, herror⟩ := (Option.any_eq_true _ _).1 hfailing
    unfold outcome? at houtcome
    split at houtcome <;> cases houtcome
    · cases herror
    · cases herror
    · exact ⟨_, rfl⟩
  · obtain ⟨v, hv, hequals⟩ := (Option.any_eq_true _ _).1 hf
    cases v with
    | functionRef g =>
        obtain rfl : 1 = g := beq_iff_eq.1 hequals
        exact hv
    | _ => cases hequals
  · obtain ⟨v, hv, hequals⟩ := (Option.any_eq_true _ _).1 hown
    cases v with
    | instanceRef i =>
        obtain rfl : 0 = i := beq_iff_eq.1 hequals
        exact hv
    | _ => cases hequals

end Config.Reached

end Lox
