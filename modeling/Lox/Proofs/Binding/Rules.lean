import Lox.Proofs.Binding.Place
import Lox.Proofs.Binding.Scopes

set_option autoImplicit false

/-! # Resolving finds the breaches of the static rules

A place breaks at most one rule, and which one can be computed (`Place.error?`). The errors that a
walk with scopes and a context finds are those of the places, in any order of the two
(`Program.errors_perm`).

The walk knows what is around a place through its context and its scopes. What it needs of them is
said by `Around` between statements and by `Inside` within an expression; only an initializer makes
the two differ.
-/

namespace Lox

namespace Enclosures

/-- The innermost function, as a context. -/
def functionContext (around : Enclosures) : FunctionContext :=
  match around.find? (·.isFunction) with
  | some (.function true name _) =>
    if name == Function.initializerName then .initializer else .method
  | some (.function false _ _) => .function
  | _ => .none

/-- The innermost class, as a context. -/
def classContext (around : Enclosures) : ClassContext :=
  match around.find? (·.isClass) with
  | some (.classBody hasSuperclass) => if hasSuperclass then .subclass else .plain
  | _ => .none

/-- The innermost scope declares the name. -/
def declares (around : Enclosures) (name : String) : Bool :=
  match around.scope? with
  | some declared => declared.contains name
  | none => false

/-- A name may not be read in the initializer of the new local variable that it names. -/
def isOwnInitializer (name : String) : Enclosures → Bool
  | [] => false
  | .initializer own :: outer =>
    (own == name && (scope? outer).isSome && !declares outer name) || isOwnInitializer name outer
  | _ :: outer => isOwnInitializer name outer

end Enclosures

/-- The error at a place. -/
def Place.error? (place : Place) : Option ResolveError :=
  match place.item with
  | .declaration name =>
    if place.around.declares name.text then some ⟨.redeclaration, name⟩ else none
  | .read name =>
    if place.around.isOwnInitializer name.text then some ⟨.ownInitializer, name⟩ else none
  | .assign _ => none
  | .ret keyword hasValue =>
    if place.around.functionContext = .none then some ⟨.topLevelReturn, keyword⟩
    else if place.around.functionContext = .initializer && hasValue then
      some ⟨.initializerReturn, keyword⟩
    else none
  | .this keyword =>
    if place.around.classContext = .none then some ⟨.thisOutsideClass, keyword⟩ else none
  | .super keyword =>
    if place.around.classContext = .none then some ⟨.superOutsideClass, keyword⟩
    else if place.around.classContext = .plain then some ⟨.superWithoutSuperclass, keyword⟩
    else none
  | .superclass className name =>
    if name.text == className.text then some ⟨.ownSuperclass, name⟩ else none

/-! ## Computing what a place breaks -/

namespace Enclosures

variable {around : Enclosures} {name : String}

theorem declares_iff :
    around.declares name = true ↔ ∃ declared, around.scope? = some declared ∧ name ∈ declared := by
  rw [declares]
  cases around.scope? with
  | none => simp
  | some declared => simp

theorem functionContext_eq_none_iff :
    around.functionContext = .none ↔ ∀ e ∈ around, e.isFunction = false := by
  rw [functionContext]
  cases hfind : around.find? (·.isFunction) with
  | none =>
      have hall := List.find?_eq_none.1 hfind
      simpa using hall
  | some e =>
      obtain ⟨he, inner, outer, rfl, -⟩ := List.find?_eq_some_iff_append.1 hfind
      -- Both sides are false: there is a function, and every function gives a context.
      have hnot : ¬ ∀ e' ∈ inner ++ e :: outer, e'.isFunction = false := by
        intro hall
        rw [hall e (by simp)] at he
        cases he
      refine iff_of_false ?_ hnot
      cases e with
      | function isMethod f declared =>
          cases isMethod
          · exact FunctionContext.noConfusion
          · dsimp only
            split <;> exact FunctionContext.noConfusion
      | _ => cases he

theorem functionContext_eq_initializer_iff :
    around.functionContext = .initializer ↔
      ∃ inner declared outer, around = inner ++ .function true "init" declared :: outer ∧
        ∀ e ∈ inner, e.isFunction = false := by
  constructor
  · intro h
    rw [functionContext] at h
    cases hfind : around.find? (·.isFunction) with
    | none =>
        rw [hfind] at h
        cases h
    | some e =>
        rw [hfind] at h
        obtain ⟨he, inner, outer, rfl, hinner⟩ := List.find?_eq_some_iff_append.1 hfind
        cases e with
        | function isMethod f declared =>
            cases isMethod
            · cases h
            · dsimp only at h
              split at h
              · rename_i hname
                rw [beq_iff_eq] at hname
                subst hname
                exact ⟨inner, declared, outer, rfl, fun e he => by simpa using hinner e he⟩
              · cases h
        | _ => cases he
  · rintro ⟨inner, declared, outer, rfl, hinner⟩
    have hfind : (inner ++ .function true "init" declared :: outer).find? (·.isFunction) =
        some (.function true "init" declared) :=
      List.find?_eq_some_iff_append.2
        ⟨rfl, inner, outer, rfl, fun e he => by rw [hinner e he]; rfl⟩
    rw [functionContext, hfind]
    rfl

theorem classContext_eq_none_iff :
    around.classContext = .none ↔ ∀ e ∈ around, e.isClass = false := by
  rw [classContext]
  cases hfind : around.find? (·.isClass) with
  | none =>
      have hall := List.find?_eq_none.1 hfind
      simpa using hall
  | some e =>
      obtain ⟨he, inner, outer, rfl, -⟩ := List.find?_eq_some_iff_append.1 hfind
      have hnot : ¬ ∀ e' ∈ inner ++ e :: outer, e'.isClass = false := by
        intro hall
        rw [hall e (by simp)] at he
        cases he
      refine iff_of_false ?_ hnot
      cases e with
      | classBody hasSuperclass => cases hasSuperclass <;> exact ClassContext.noConfusion
      | _ => cases he

theorem classContext_eq_plain_iff :
    around.classContext = .plain ↔
      ∃ inner outer, around = inner ++ .classBody false :: outer ∧
        ∀ e ∈ inner, e.isClass = false := by
  constructor
  · intro h
    rw [classContext] at h
    cases hfind : around.find? (·.isClass) with
    | none =>
        rw [hfind] at h
        cases h
    | some e =>
        rw [hfind] at h
        obtain ⟨he, inner, outer, rfl, hinner⟩ := List.find?_eq_some_iff_append.1 hfind
        cases e with
        | classBody hasSuperclass =>
            cases hasSuperclass
            · exact ⟨inner, outer, rfl, fun e he => by simpa using hinner e he⟩
            · cases h
        | _ => cases he
  · rintro ⟨inner, outer, rfl, hinner⟩
    have hfind : (inner ++ .classBody false :: outer).find? (·.isClass) =
        some (.classBody false) :=
      List.find?_eq_some_iff_append.2
        ⟨rfl, inner, outer, rfl, fun e he => by rw [hinner e he]; rfl⟩
    rw [classContext, hfind]
    rfl

theorem isOwnInitializer_iff :
    around.isOwnInitializer name = true ↔
      ∃ inner outer declared, around = inner ++ .initializer name :: outer ∧
        scope? outer = some declared ∧ name ∉ declared := by
  induction around with
  | nil => simp [isOwnInitializer]
  | cons e outer ih =>
      constructor
      · intro h
        have hhere : isOwnInitializer name outer = true →
            ∃ inner outer' declared, e :: outer = inner ++ .initializer name :: outer' ∧
              scope? outer' = some declared ∧ name ∉ declared := by
          intro h
          obtain ⟨inner, outer', declared, rfl, hscope, hnew⟩ := ih.1 h
          exact ⟨e :: inner, outer', declared, rfl, hscope, hnew⟩
        cases e with
        | initializer own =>
            simp only [isOwnInitializer, Bool.or_eq_true, Bool.and_eq_true, beq_iff_eq] at h
            rcases h with ⟨⟨rfl, hlocal⟩, hnew⟩ | h
            · -- This is the initializer, and its variable is local and new.
              obtain ⟨declared, hscope⟩ := Option.isSome_iff_exists.1 hlocal
              refine ⟨[], outer, declared, rfl, hscope, ?_⟩
              simpa [declares, hscope] using hnew
            · exact hhere h
        | _ => exact hhere h
      · rintro ⟨inner, outer', declared, heq, hscope, hnew⟩
        cases inner with
        | nil =>
            cases heq
            simp [isOwnInitializer, declares, hscope, hnew]
        | cons e' inner =>
            cases heq
            have h := ih.2 ⟨inner, outer', declared, rfl, hscope, hnew⟩
            cases e with
            | initializer own => rw [isOwnInitializer, h, Bool.or_true]
            | _ => exact h

end Enclosures

/-- The error at a place is the rule that it breaks. -/
theorem Place.error?_eq_some_iff {place : Place} {e : ResolveError} :
    place.error? = some e ↔ place.Breaks e := by
  obtain ⟨item, around⟩ := place
  constructor
  · intro h
    cases item with
    | declaration name =>
        simp only [error?, Option.ite_none_right_eq_some, Option.some.injEq] at h
        obtain ⟨hdeclares, rfl⟩ := h
        obtain ⟨declared, hscope, hname⟩ := Enclosures.declares_iff.1 hdeclares
        exact .redeclaration hscope hname
    | read name =>
        simp only [error?, Option.ite_none_right_eq_some, Option.some.injEq] at h
        obtain ⟨hown, rfl⟩ := h
        obtain ⟨inner, outer, declared, rfl, hscope, hname⟩ :=
          Enclosures.isOwnInitializer_iff.1 hown
        exact .ownInitializer hscope hname
    | assign name => cases h
    | ret keyword hasValue =>
        simp only [error?] at h
        split at h
        · rename_i hnone
          cases h
          exact .topLevelReturn (Enclosures.functionContext_eq_none_iff.1 hnone)
        · split at h
          · rename_i hinit
            cases h
            simp only [Bool.and_eq_true, decide_eq_true_eq] at hinit
            obtain ⟨hinit, rfl⟩ := hinit
            obtain ⟨inner, declared, outer, rfl, hinner⟩ :=
              Enclosures.functionContext_eq_initializer_iff.1 hinit
            exact .initializerReturn hinner
          · cases h
    | this keyword =>
        simp only [error?, Option.ite_none_right_eq_some, Option.some.injEq] at h
        obtain ⟨hnone, rfl⟩ := h
        exact .thisOutsideClass (Enclosures.classContext_eq_none_iff.1 hnone)
    | super keyword =>
        simp only [error?] at h
        split at h
        · rename_i hnone
          cases h
          exact .superOutsideClass (Enclosures.classContext_eq_none_iff.1 hnone)
        · simp only [Option.ite_none_right_eq_some, Option.some.injEq] at h
          obtain ⟨hplain, rfl⟩ := h
          obtain ⟨inner, outer, rfl, hinner⟩ := Enclosures.classContext_eq_plain_iff.1 hplain
          exact .superWithoutSuperclass hinner
    | superclass className name =>
        simp only [error?, beq_iff_eq, Option.ite_none_right_eq_some, Option.some.injEq] at h
        obtain ⟨hname, rfl⟩ := h
        exact .ownSuperclass hname
  · intro h
    cases h with
    | redeclaration hscope h =>
        exact if_pos (Enclosures.declares_iff.2 ⟨_, hscope, h⟩)
    | ownInitializer hscope h =>
        exact if_pos (Enclosures.isOwnInitializer_iff.2 ⟨_, _, _, rfl, hscope, h⟩)
    | topLevelReturn h =>
        exact if_pos (Enclosures.functionContext_eq_none_iff.2 h)
    | @initializerReturn keyword inner outer declared h =>
        have hinit := Enclosures.functionContext_eq_initializer_iff.2
          ⟨inner, declared, outer, rfl, h⟩
        simp [error?, hinit]
    | thisOutsideClass h => exact if_pos (Enclosures.classContext_eq_none_iff.2 h)
    | superOutsideClass h => exact if_pos (Enclosures.classContext_eq_none_iff.2 h)
    | @superWithoutSuperclass keyword inner outer h =>
        have hplain := Enclosures.classContext_eq_plain_iff.2 ⟨inner, outer, rfl, h⟩
        simp [error?, hplain]
    | ownSuperclass h => exact if_pos (by simp [h])

/-! ## What the walk knows -/

/-- The context tells what is around, and no initializer is. -/
structure Enclosures.Around (around : Enclosures) (ctx : Context) : Prop where
  inFunction : ctx.inFunction = around.functionContext
  inClass : ctx.inClass = around.classContext
  noInitializer : ∀ name, around.isOwnInitializer name = false

/-- The context and the scopes tell what is around a statement. -/
structure Enclosures.Between (around : Enclosures) (ctx : Context) (scopes : Scopes) : Prop
    extends around.Around ctx where
  isLocal : scopes.isEmpty = around.scope?.isNone
  redeclares : ∀ name, scopes.redeclares name = around.declares name
  settled : scopes.Settled

/-- The context and the scopes tell what is around an expression. -/
structure Enclosures.Inside (around : Enclosures) (ctx : Context) (scopes : Scopes) : Prop where
  inFunction : ctx.inFunction = around.functionContext
  inClass : ctx.inClass = around.classContext
  pending : ∀ name, scopes.isPending name = around.isOwnInitializer name

namespace Enclosures

variable {around : Enclosures} {ctx : Context} {scopes : Scopes}

theorem between_top : Between [] .top [] :=
  ⟨⟨rfl, rfl, fun _ => rfl⟩, rfl, fun _ => rfl, fun _ => rfl⟩

theorem Between.inside (h : around.Between ctx scopes) : around.Inside ctx scopes :=
  ⟨h.inFunction, h.inClass, fun name => by rw [h.settled, h.noInitializer]⟩

/-- Declaring changes no enclosure but the innermost scope. -/
theorem declare_cases (around : Enclosures) (name : String) :
    (around.declare name = around ∧ around.scope? = none) ∨
    (∃ declared outer, around = .block declared :: outer ∧
      around.declare name = .block (name :: declared) :: outer) ∨
    ∃ isMethod f declared outer, around = .function isMethod f declared :: outer ∧
      around.declare name = .function isMethod f (name :: declared) :: outer := by
  cases around with
  | nil => exact .inl ⟨rfl, rfl⟩
  | cons e outer =>
      cases e with
      | block declared => exact .inr (.inl ⟨declared, outer, rfl, rfl⟩)
      | function isMethod f declared => exact .inr (.inr ⟨isMethod, f, declared, outer, rfl, rfl⟩)
      | _ => exact .inl ⟨rfl, rfl⟩

theorem Around.declare (h : around.Around ctx) (name : String) :
    (around.declare name).Around ctx := by
  rcases around.declare_cases name with ⟨heq, -⟩ | ⟨declared, outer, rfl, heq⟩ |
    ⟨isMethod, f, declared, outer, rfl, heq⟩
  · rwa [heq]
  · rw [heq]
    exact ⟨h.inFunction, h.inClass, h.noInitializer⟩
  · rw [heq]
    cases isMethod <;> exact ⟨h.inFunction, h.inClass, h.noInitializer⟩

theorem scope?_declare (around : Enclosures) (name : String) :
    (around.declare name).scope? = around.scope?.map (name :: ·) := by
  rcases around.declare_cases name with ⟨heq, hscope⟩ | ⟨declared, outer, rfl, heq⟩ |
    ⟨isMethod, f, declared, outer, rfl, heq⟩
  · rw [heq, hscope]
    rfl
  · rw [heq]
    rfl
  · rw [heq]
    rfl

theorem declares_declare (around : Enclosures) (own name : String) :
    (around.declare own).declares name =
      (around.scope?.isSome && (name == own || around.declares name)) := by
  rw [declares, declares, scope?_declare]
  cases around.scope? with
  | none => rfl
  | some declared =>
      show (own :: declared).contains name = (true && (name == own || declared.contains name))
      rw [List.contains_cons, Bool.true_and]

/-- A declaration that may be read at once. -/
theorem Between.define (h : around.Between ctx scopes) (name : String) :
    (around.declare name).Between ctx (scopes.define name) := by
  refine ⟨h.toAround.declare name, ?_, fun n => ?_, h.settled.define name⟩
  · rw [scope?_declare, Option.isNone_map, ← h.isLocal, Scopes.isEmpty_define]
  · rw [declares_declare, Scopes.redeclares_define, h.redeclares, h.isLocal, Option.not_isNone]

/-- After a variable declaration. -/
theorem Between.variable (h : around.Between ctx scopes) (name : String) :
    (around.declare name).Between ctx ((scopes.declare name).define name) := by
  have hdefine := h.define name
  refine ⟨hdefine.toAround, ?_, fun n => ?_, h.settled.declare_define name⟩
  · rw [← hdefine.isLocal, Scopes.isEmpty_define, Scopes.isEmpty_declare, Scopes.isEmpty_define]
  · rw [Scopes.redeclares_declare_define, hdefine.redeclares]

/-- The initializer of a variable. -/
theorem Between.initializer (h : around.Between ctx scopes) (name : String) :
    Inside (.initializer name :: around) ctx (scopes.declare name) := by
  refine ⟨h.inFunction, h.inClass, fun n => ?_⟩
  rw [isOwnInitializer, h.noInitializer, Bool.or_false, ← h.redeclares n, ← Option.not_isNone,
    ← h.isLocal]
  cases hnew : scopes.redeclares name with
  | false =>
      -- The new name is what is pending in the initializer, unless it is global.
      rw [Scopes.isPending_declare h.settled hnew]
      by_cases hn : name = n
      · subst hn
        simp [hnew]
      · rw [beq_false_of_ne hn, beq_false_of_ne (Ne.symm hn), Bool.and_false, Bool.false_and,
          Bool.false_and]
  | true =>
      -- A name that the scope has already can be read, though declaring it again is an error.
      have hdeclare : scopes.declare name = scopes := by
        cases scopes with
        | nil => rfl
        | cons s outer => exact if_pos hnew
      rw [hdeclare, h.settled n]
      by_cases hn : name = n
      · subst hn
        simp [hnew]
      · simp [hn]

theorem Around.block (h : around.Around ctx) (scopes : Scopes) :
    Between (.block [] :: around) ctx ([] :: scopes) :=
  ⟨⟨h.inFunction, h.inClass, h.noInitializer⟩, rfl, fun _ => rfl, fun _ => rfl⟩

theorem Around.function (h : around.Around ctx) (scopes : Scopes) (name : String) :
    Between (.function false name [] :: around) { ctx with inFunction := .function }
      ([] :: scopes) :=
  ⟨⟨rfl, h.inClass, h.noInitializer⟩, rfl, fun _ => rfl, fun _ => rfl⟩

theorem Around.method (h : around.Around ctx) (scopes : Scopes) (f : Function) :
    Between (.function true f.name.text [] :: around) (ctx.ofMethod f) ([] :: scopes) :=
  ⟨⟨rfl, h.inClass, h.noInitializer⟩, rfl, fun _ => rfl, fun _ => rfl⟩

theorem Around.classBody (h : around.Around ctx) (hasSuperclass : Bool) :
    Around (.classBody hasSuperclass :: around)
      { ctx with inClass := if hasSuperclass then .subclass else .plain } :=
  ⟨h.inFunction, rfl, h.noInitializer⟩

theorem Between.defineAll (h : around.Between ctx scopes) (names : List Name) :
    (around.declareAll names).Between ctx (scopes.defineAll names) := by
  induction names generalizing around scopes with
  | nil => exact h
  | cons name names ih => exact ih (h.define name.text)

/-- From a statement to the next. -/
theorem Between.next (h : around.Between ctx scopes) (s : Stmt) :
    (s.aroundNext around).Between ctx (s.scopesAfter scopes) := by
  cases s with
  | var name initial => exact h.variable name.text
  | function f => exact h.define f.name.text
  | classDecl name superclass methods => exact h.define name.text
  | _ => exact h

end Enclosures

/-! ## The walk -/

namespace Findings

@[simp] theorem errors_errorIf (condition : Bool) (cause : ResolveError.Cause) (name : Name) :
    (errorIf condition cause name).errors = if condition then [⟨cause, name⟩] else [] := by
  cases condition <;> rfl

@[simp] theorem errors_reference (scopes : Scopes) (name : Name) :
    (reference scopes name).errors = [] := by
  rw [reference]
  cases scopes.hops? name.text <;> rfl

@[simp] theorem errors_read (scopes : Scopes) (name : Name) :
    (read scopes name).errors =
      if scopes.isPending name.text then [⟨.ownInitializer, name⟩] else [] := by
  simp [read]

@[simp] theorem errors_declaration (scopes : Scopes) (name : Name) :
    (declaration scopes name).errors =
      if scopes.redeclares name.text then [⟨.redeclaration, name⟩] else [] := by
  simp [declaration]

end Findings

/-- The errors at places. -/
def Place.errors (places : List Place) : List ResolveError := places.filterMap Place.error?

namespace Place

variable {around : Enclosures} {ctx : Context} {scopes : Scopes}

@[simp] theorem errors_nil : errors [] = [] := rfl

@[simp] theorem errors_append (ps qs : List Place) : errors (ps ++ qs) = errors ps ++ errors qs :=
  List.filterMap_append

theorem errors_cons (p : Place) (ps : List Place) : errors (p :: ps) = errors [p] ++ errors ps :=
  errors_append [p] ps

theorem errors_read (h : around.Inside ctx scopes) (name : Name) :
    errors [⟨.read name, around⟩] = (Findings.read scopes name).errors := by
  rw [Findings.errors_read, h.pending]
  by_cases hown : around.isOwnInitializer name.text <;> simp [errors, error?, hown]

theorem errors_declaration (h : around.Between ctx scopes) (name : Name) :
    errors [⟨.declaration name, around⟩] = (Findings.declaration scopes name).errors := by
  rw [Findings.errors_declaration, h.redeclares]
  by_cases hdeclares : around.declares name.text <;> simp [errors, error?, hdeclares]

theorem errors_declarations (h : around.Between ctx scopes) (names : List Name) :
    errors (declarations around names) = (Findings.declarations scopes names).errors := by
  induction names generalizing around scopes with
  | nil => rfl
  | cons name names ih =>
      rw [declarations, errors_cons, errors_declaration h, ih (h.define name.text)]
      rfl

theorem errors_superclass (h : around.Between ctx scopes) (className : Name)
    (name : Option Name) :
    errors (superclass around className name) =
      (Findings.superclass scopes className name).errors := by
  cases name with
  | none => rfl
  | some name =>
      rw [superclass, errors_cons, errors_read h.inside, Findings.superclass,
        Findings.errors_append, Findings.errors_errorIf]
      by_cases hname : name.text == className.text <;> simp [errors, error?, hname]

theorem errors_ret (h : around.Between ctx scopes) (keyword : Name) (hasValue : Bool) :
    errors [⟨.ret keyword hasValue, around⟩] =
      (Findings.errorIf (ctx.inFunction = .none) .topLevelReturn keyword ++
        Findings.errorIf (ctx.inFunction = .initializer && hasValue) .initializerReturn
          keyword).errors := by
  rw [h.inFunction]
  cases hfunction : around.functionContext <;> cases hasValue <;>
    simp [errors, error?, hfunction]

theorem errors_this (h : around.Inside ctx scopes) (keyword : Name) :
    errors [⟨.this keyword, around⟩] = ((Expr.this keyword).findings ctx scopes).errors := by
  simp only [Expr.findings, h.inClass]
  cases hclass : around.classContext <;> simp [errors, error?, hclass, Findings.error]

theorem errors_super (h : around.Inside ctx scopes) (keyword method : Name) :
    errors [⟨.super keyword, around⟩] =
      ((Expr.super keyword method).findings ctx scopes).errors := by
  simp only [Expr.findings, h.inClass]
  cases hclass : around.classContext <;> simp [errors, error?, hclass]

end Place

section Walk

variable {around : Enclosures} {ctx : Context} {scopes : Scopes}

open Place

mutual

/-- The errors in an expression. An assigned property is walked after the value. -/
theorem Expr.errors_perm (h : around.Inside ctx scopes) :
    (e : Expr) → (e.findings ctx scopes).errors.Perm (errors (e.places around))
  | .literal _ => .nil
  | .grouping inner => Expr.errors_perm h inner
  | .unary _ _ operand => Expr.errors_perm h operand
  | .binary _ _ left right | .logical _ left right => by
      simp only [Expr.findings, Expr.places, Findings.errors_append, errors_append]
      exact (Expr.errors_perm h left).append (Expr.errors_perm h right)
  | .variable name => by
      rw [Expr.places, errors_read h]
      exact .refl _
  | .assign name value => by
      rw [Expr.places, errors_cons]
      simp only [Expr.findings, Findings.errors_append, Findings.errors_reference,
        List.append_nil]
      exact Expr.errors_perm h value
  | .call callee arguments _ => by
      simp only [Expr.findings, Expr.places, Findings.errors_append, errors_append]
      exact (Expr.errors_perm h callee).append (Expr.errorsAll_perm h arguments)
  | .get object _ => Expr.errors_perm h object
  | .set object _ value => by
      -- The walk comes to the value before the object.
      simp only [Expr.findings, Expr.places, Findings.errors_append, errors_append]
      exact List.perm_append_comm.trans
        ((Expr.errors_perm h object).append (Expr.errors_perm h value))
  | .this keyword => by
      rw [Expr.places, errors_this h]
  | .super keyword method => by
      rw [Expr.places, errors_super h keyword method]

theorem Expr.errorsAll_perm (h : around.Inside ctx scopes) :
    (es : List Expr) →
      (Expr.findingsAll ctx scopes es).errors.Perm (errors (Expr.placesAll around es))
  | [] => .nil
  | e :: es => by
      simp only [Expr.findingsAll, Expr.placesAll, Findings.errors_append, errors_append]
      exact (Expr.errors_perm h e).append (Expr.errorsAll_perm h es)

end

theorem Expr.errorsOf?_perm (h : around.Inside ctx scopes) (e : Option Expr) :
    (Expr.findingsOf? ctx scopes e).errors.Perm (errors (Expr.placesOf? around e)) := by
  cases e with
  | none => exact .nil
  | some e => exact e.errors_perm h

mutual

/-- The errors in a statement. -/
theorem Stmt.errors_perm {around : Enclosures} {ctx : Context} {scopes : Scopes}
    (h : around.Between ctx scopes) :
    (s : Stmt) → (s.findings ctx scopes).errors.Perm (errors (s.places around))
  | .expression e | .print e => e.errors_perm h.inside
  | .var name initial => by
      rw [Stmt.places, errors_cons, errors_declaration h, Stmt.findings, Findings.errors_append]
      exact (Expr.errorsOf?_perm (h.initializer name.text) initial).append_left _
  | .block body => Stmt.errorsAll_perm (h.toAround.block scopes) body
  | .branch condition yes none => by
      simp only [Stmt.findings, Stmt.places, Findings.errors_append, errors_append]
      exact (condition.errors_perm h.inside).append (Stmt.errors_perm h yes)
  | .branch condition yes (some no) => by
      simp only [Stmt.findings, Stmt.places, Findings.errors_append, errors_append]
      exact ((condition.errors_perm h.inside).append (Stmt.errors_perm h yes)).append
        (Stmt.errors_perm h no)
  | .loop condition body => by
      simp only [Stmt.findings, Stmt.places, Findings.errors_append, errors_append]
      exact (condition.errors_perm h.inside).append (Stmt.errors_perm h body)
  | .function f => by
      rw [Stmt.places, errors_cons, errors_declaration h, Stmt.findings, Findings.errors_append]
      exact (Function.errors_perm f ((h.define f.name.text).toAround.function _ _)).append_left _
  | .ret keyword value => by
      rw [Stmt.places, errors_cons, errors_ret h, Stmt.findings, Findings.errors_append]
      exact (Expr.errorsOf?_perm h.inside value).append_left _
  | .classDecl name above methods => by
      have hafter := h.define name.text
      simp only [Stmt.places, Stmt.findings, Findings.errors_append, errors_append]
      rw [errors_cons, errors_declaration h, errors_superclass hafter]
      exact (Function.errorsAll_perm (hafter.toAround.classBody above.isSome) _
        methods).append_left _

theorem Stmt.errorsAll_perm {around : Enclosures} {ctx : Context} {scopes : Scopes}
    (h : around.Between ctx scopes) :
    (ss : List Stmt) →
      (Stmt.findingsAll ctx scopes ss).errors.Perm (errors (Stmt.placesAll around ss))
  | [] => .nil
  | s :: ss => by
      simp only [Stmt.findingsAll, Stmt.placesAll, Findings.errors_append, errors_append]
      exact (Stmt.errors_perm h s).append (Stmt.errorsAll_perm (h.next s) ss)

/-- The errors in the parameters and the body of a function. -/
theorem Function.errors_perm {around : Enclosures} {ctx : Context} {scopes : Scopes}
    {isMethod : Bool} :
    (f : Function) →
      Enclosures.Between (.function isMethod f.name.text [] :: around) ctx ([] :: scopes) →
      (f.findings ctx scopes).errors.Perm (errors (f.places isMethod around))
  | .mk name parameters body, h => by
      rw [Function.name] at h
      simp only [Function.findings, Function.places, Findings.errors_append, errors_append]
      rw [errors_declarations h]
      exact (Stmt.errorsAll_perm (h.defineAll parameters) body).append_left _

theorem Function.errorsAll_perm {around : Enclosures} {ctx : Context}
    (h : around.Around ctx) (scopes : Scopes) :
    (fs : List Function) →
      (Function.findingsAll ctx scopes fs).errors.Perm (errors (Function.placesAll around fs))
  | [] => .nil
  | f :: fs => by
      simp only [Function.findingsAll, Function.placesAll, Findings.errors_append, errors_append]
      exact (Function.errors_perm f (h.method scopes f)).append
        (Function.errorsAll_perm h scopes fs)

end

end Walk

namespace Program

/-- The errors of a program are those of its places. -/
theorem errors_perm (p : Program) : p.findings.errors.Perm (Place.errors p.places) :=
  Stmt.errorsAll_perm Enclosures.between_top p

/-- A walk finds errors exactly if a place breaks a rule. -/
theorem errors_eq_nil_iff (p : Program) :
    p.findings.errors = [] ↔ ∀ place ∈ p.places, ∀ e, ¬ place.Breaks e := by
  have hperm := p.errors_perm
  constructor
  · intro hnil place hplace e hbreaks
    rw [hnil] at hperm
    -- What the place breaks would be one of the errors.
    have hmem : e ∈ Place.errors p.places :=
      List.mem_filterMap.2 ⟨place, hplace, Place.error?_eq_some_iff.2 hbreaks⟩
    rw [hperm.symm.eq_nil] at hmem
    cases hmem
  · intro hall
    have hnil : Place.errors p.places = [] := by
      refine List.filterMap_eq_nil_iff.2 fun place hplace => ?_
      cases herror : place.error? with
      | none => rfl
      | some e => exact absurd (Place.error?_eq_some_iff.1 herror) (hall place hplace e)
    rw [hnil] at hperm
    exact hperm.eq_nil

/-- Resolving finds one error for each place that breaks a rule and no others, and gives a table
exactly if there is no such place. -/
theorem bind_iff_rules (p : Program) (t : BindingTable) :
    ((∃ t', p.bind t = .ok t') ↔ ∀ place ∈ p.places, ∀ e, ¬ place.Breaks e) ∧
      (∀ errors, p.bind t = .error errors → errors.Perm (p.places.filterMap Place.error?)) ∧
      ∀ (place : Place) (e : ResolveError), place.error? = some e ↔ place.Breaks e := by
  refine ⟨?_, ?_, fun place e => Place.error?_eq_some_iff⟩
  · rw [← p.errors_eq_nil_iff, bind]
    cases p.findings.errors <;> simp
  · intro errors h
    rw [bind] at h
    split at h
    · cases h
    · cases h
      exact p.errors_perm

/-- A class that breaks three rules, each at its own place. -/
example :
    (Place.errors (Program.places
      [.classDecl ⟨"A", 1, 6⟩ (some ⟨"A", 1, 10⟩)
        [.mk ⟨"init", 2, 14⟩ [⟨"x", 2, 19⟩, ⟨"x", 2, 22⟩]
          [.ret ⟨"return", 2, 27⟩ (some (.this ⟨"this", 2, 34⟩))]]])).map (·.cause) =
      [.ownSuperclass, .redeclaration, .initializerReturn] := by
  decide

end Program

end Lox
