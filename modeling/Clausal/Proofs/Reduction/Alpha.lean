import Clausal.Proofs.Nameless.Substitution
import Clausal.Proofs.Reduction.Step

/-!
# Steps do not see the names of bound variables

A step chooses names of binders, asks which variables are free, looks at the shapes of arguments
and steps some of them. None of this depends on how a bound variable is called: terms that are
equal up to the names of bound variables have the same steps, up to those names.

## Main results

* `Term.Alpha.betaStep?`, `DeltaRule.respond_alike`: beta steps and the answers of the delta rules
  are the same up to names;
* `Term.Alpha.step?`: so are the steps with any delta rules;
* `Term.step?_wellDefined`: reduction is one of terms up to names, and frees no variable.
-/

namespace Clausal

/-! ## Terms that are equal up to names -/

/-- Filling a body does not see stems. -/
theorem Nameless.bare_subst (t : Nameless) (σ : Nat → Nameless) :
    (t.subst σ).bare = t.bare.subst fun i => (σ i).bare := by
  induction t generalizing σ with
  | abs stem body ih =>
    have hunder : (fun i => (under σ i).bare) = under fun i => (σ i).bare := by
      funext i
      cases i with
      | zero => rfl
      | succ i => exact bare_shift (σ i)
    rw [subst, bare, ih, hunder, bare, subst]
  | app func arg ihf iha => rw [subst, bare, ihf, iha, bare, subst]
  | bound _ | free _ | const _ => rfl

theorem Nameless.bare_instantiate (body arg : Nameless) :
    (body.instantiate arg).bare = body.bare.instantiate arg.bare := by
  have hcons : (fun i => (cons arg bound i).bare) = cons arg.bare bound := by
    funext i
    cases i <;> rfl
  rw [instantiate, bare_subst, hcons]
  rfl

namespace Term.Alpha

variable {t u : Term} {args args' : List Term}

theorem eq_var {name : String} (h : Alpha (.var name) u) : u = .var name :=
  eq_var_of_read .free (Nameless.eq_free_of_bare (h.bare_read .free).symm)

theorem eq_const {c : Constant} (h : Alpha (.const c) u) : u = .const c :=
  eq_const_of_read .free (Nameless.eq_const_of_bare (h.bare_read .free).symm)

/-- What is equal to an abstraction is one, with a body that is read the same below its binder. -/
theorem exists_abs {param : String} {body : Term} (h : Alpha (.abs param body) u) :
    ∃ param' body', u = .abs param' body' ∧ (body.read (Environment.bind param .free)).bare
      = (body'.read (Environment.bind param' .free)).bare := by
  obtain ⟨stem', body₀, hu, hbare⟩ := Nameless.exists_abs_of_bare (h.bare_read .free).symm
  obtain ⟨param', body', rfl, rfl⟩ := exists_abs_of_read .free hu
  exact ⟨param', body', rfl, hbare.symm⟩

theorem exists_app {func arg : Term} (h : Alpha (.app func arg) u) :
    ∃ func' arg', u = .app func' arg' ∧ Alpha func func' ∧ Alpha arg arg' := by
  obtain ⟨func₀, arg₀, hu, hfunc, harg⟩ := Nameless.exists_app_of_bare (h.bare_read .free).symm
  obtain ⟨func', arg', rfl, rfl, rfl⟩ := exists_app_of_read .free hu
  exact ⟨func', arg', rfl, alpha_iff.2 hfunc.symm, alpha_iff.2 harg.symm⟩

/-- The heads are equal up to names, and so are the arguments one by one. -/
theorem spine (h : Alpha t u) : Alpha t.head u.head ∧ List.Forall₂ Alpha t.args u.args := by
  induction t generalizing u with
  | app func arg ih _ =>
    obtain ⟨func', arg', rfl, hfunc, harg⟩ := h.exists_app
    obtain ⟨hhead, hargs⟩ := ih hfunc
    exact ⟨hhead, List.rel_append hargs (.cons harg .nil)⟩
  | var name =>
    obtain rfl := h.eq_var
    exact ⟨.refl _, .nil⟩
  | const c =>
    obtain rfl := h.eq_const
    exact ⟨.refl _, .nil⟩
  | abs param body =>
    obtain ⟨param', body', rfl, -⟩ := h.exists_abs
    exact ⟨h, .nil⟩

theorem applyAll (h : Alpha t u) (hargs : List.Forall₂ Alpha args args') :
    Alpha (t.applyAll args) (u.applyAll args') := by
  induction hargs generalizing t u with
  | nil => exact h
  | cons harg _ ih => exact ih (.app h harg)

/-- The closed terms are the same. -/
theorem isClosed_eq (h : Alpha t u) : t.isClosed = u.isClosed := by
  rw [Bool.eq_iff_iff, ← Environment.Leaves.free.closed_read_iff,
    ← Environment.Leaves.free.closed_read_iff]
  unfold Nameless.Closed
  rw [← Nameless.closedAt_bare, h.bare_read .free, Nameless.closedAt_bare]

/-- A body gets an argument for its variable, however the variable is called. -/
theorem beta {param param' : String} {body body' arg arg' : Term}
    (hbody : (body.read (Environment.bind param .free)).bare
      = (body'.read (Environment.bind param' .free)).bare) (harg : Alpha arg arg') :
    Alpha (body.subst param arg) (body'.subst param' arg') := by
  rw [alpha_iff] at harg ⊢
  simp only [deBruijn, nameless, read_subst, ← instantiate_read, Nameless.bare_instantiate] at *
  rw [hbody, harg]

end Term.Alpha

open Term (Alpha)

/-! ## Shapes and answers -/

/-- Shapes with parts that are equal up to names. -/
inductive Shape.Alike : Shape → Shape → Prop
  | literal (value : Literal) : Alike (literal value) (literal value)
  | tuple (size : Nat) {parts parts' : List Term} (h : List.Forall₂ Alpha parts parts') :
      Alike (tuple size parts) (tuple size parts')
  | data (name : String) {parts parts' : List Term} (h : List.Forall₂ Alpha parts parts') :
      Alike (data name parts) (data name parts')
  | function : Alike function function
  | pending : Alike pending pending

/-- Answers with results that are equal up to names. -/
inductive Outcome.Alike : Outcome → Outcome → Prop
  | reduced {t t' : Term} (h : Alpha t t') : Alike (reduced t) (reduced t')
  | declined : Alike declined declined
  | needsArgument (index : Nat) : Alike (needsArgument index) (needsArgument index)

theorem Outcome.Alike.refl (outcome : Outcome) : outcome.Alike outcome := by
  cases outcome with
  | reduced t => exact .reduced (.refl t)
  | declined => exact .declined
  | needsArgument i => exact .needsArgument i

variable {args args' : List Term}

theorem Constant.shape_alike (c : Constant) (h : List.Forall₂ Alpha args args') :
    (c.shape args).Alike (c.shape args') := by
  have hlength := h.length_eq
  cases c with
  | literal value =>
    cases h with
    | nil => exact .literal value
    | cons _ _ => exact .pending
  | constructor name => exact .data name h
  | primitive p =>
    cases p with
    | tuple size =>
      rw [shape, shape, hlength]
      split
      · exact .tuple size h
      · split
        · exact .function
        · exact .pending
    | bot => exact .pending
    | _ =>
      simp only [shape, Primitive.arity?, hlength]
      split
      · exact .function
      · exact .pending

theorem Term.Alpha.shape {t u : Term} (h : Alpha t u) : t.shape.Alike u.shape := by
  obtain ⟨hhead, hargs⟩ := h.spine
  rw [Term.shape, Term.shape]
  -- the head decides, and is of the same kind in both
  cases htop : t.head with
  | const c =>
    rw [htop] at hhead
    rw [hhead.eq_const]
    exact c.shape_alike hargs
  | abs param body =>
    rw [htop] at hhead
    obtain ⟨param', body', hother, -⟩ := hhead.exists_abs
    rw [hother]
    generalize t.args = args, u.args = args' at hargs ⊢
    cases hargs with
    | nil => exact .function
    | cons _ _ => exact .pending
  | var name =>
    rw [htop] at hhead
    rw [hhead.eq_var]
    exact .pending
  | app func arg => exact absurd htop (t.head_ne_app func arg)

theorem withLiteral_alike {answer answer' : Literal → Outcome}
    (h : List.Forall₂ Alpha args args') (index : Nat)
    (hanswer : ∀ value, (answer value).Alike (answer' value)) :
    (withLiteral args index answer).Alike (withLiteral args' index answer') := by
  have harg := getElem?_rel h index
  rw [withLiteral, withLiteral]
  generalize args[index]? = found, args'[index]? = found' at harg ⊢
  cases harg with
  | none => exact .declined
  | @some arg arg' harg =>
    have hshape := harg.shape
    rw [Option.map_some, Option.map_some]
    generalize arg.shape = shape, arg'.shape = shape' at hshape ⊢
    cases hshape with
    | literal value => exact hanswer value
    | tuple _ _ | data _ _ | function => exact .declined
    | pending => exact .needsArgument index

namespace DeltaRule

variable {shape shape' : Shape}

theorem applyBinary_alike (op : Operator) (h : List.Forall₂ Alpha args args') :
    (applyBinary op args).Alike (applyBinary op args') := by
  refine withLiteral_alike h 0 fun left => ?_
  split
  · exact .refl _
  · exact withLiteral_alike h 1 fun right => .refl _

/-- A component is selected from components that are equal up to names. -/
theorem inspectTuple_alike (c : Constant) (h : shape.Alike shape') :
    (inspectTuple c shape).Alike (inspectTuple c shape') := by
  cases h with
  | literal _ | function | pending => exact .refl _
  | data name _ =>
    cases c with
    | primitive p => cases p <;> exact .refl _
    | literal _ | constructor _ => exact .declined
  | @tuple found parts parts' hparts =>
    cases c with
    | literal _ | constructor _ => exact .declined
    | primitive p =>
      cases p with
      | select size index =>
        cases index with
        | zero => exact .declined
        | succ index =>
          have hpart := getElem?_rel hparts index
          rw [inspectTuple, inspectTuple]
          split
          · generalize parts[index]? = part, parts'[index]? = part' at hpart ⊢
            cases hpart with
            | none => exact .declined
            | some hpart => exact .reduced hpart
          · exact .declined
      | _ => exact .refl _

theorem fieldsTerm_alpha (h : List.Forall₂ Alpha args args') :
    Alpha (fieldsTerm args) (fieldsTerm args') := by
  have hlength := h.length_eq
  cases h with
  | nil => exact .refl _
  | cons hfirst hrest =>
    cases hrest with
    | nil => exact hfirst
    | cons hsecond hrest =>
      rw [fieldsTerm, fieldsTerm, hlength]
      · exact Alpha.applyAll (.refl _) (.cons hfirst (.cons hsecond hrest))
      · simp
      · simp

/-- The fields of data are packed from fields that are equal up to names. -/
theorem inspectData_alike (c : Constant) (h : shape.Alike shape') :
    (inspectData c shape).Alike (inspectData c shape') := by
  cases h with
  | literal _ | function | pending => exact .refl _
  | tuple size _ =>
    cases c with
    | primitive p => cases p <;> exact .refl _
    | literal _ | constructor _ => exact .declined
  | data name hparts =>
    cases c with
    | literal _ | constructor _ => exact .declined
    | primitive p =>
      cases p with
      | argOf expected =>
        rw [inspectData, inspectData]
        split
        · exact .reduced (fieldsTerm_alpha hparts)
        · exact .declined
      | _ => exact .refl _

theorem inspectLiteral_alike (c : Constant) (h : shape.Alike shape') :
    (inspectLiteral c shape).Alike (inspectLiteral c shape') := by
  cases h with
  | literal _ | function | pending => exact .refl _
  | tuple _ _ | data _ _ =>
    cases c with
    | primitive p => cases p <;> exact .refl _
    | literal _ | constructor _ => exact .declined

/-- The answer of a rule to the arguments that it consumes is the same up to names. -/
theorem apply_alike (rule : DeltaRule) (c : Constant) (h : List.Forall₂ Alpha args args') :
    (rule.apply c args).Alike (rule.apply c args') := by
  cases rule with
  | binaryOperators =>
    cases c with
    | primitive p =>
      cases p with
      | operator op => exact applyBinary_alike op h
      | _ => exact .declined
    | literal _ | constructor _ => exact .declined
  | unaryOperators =>
    cases c with
    | primitive p =>
      cases p with
      | operator op => exact withLiteral_alike h 0 fun operand => .refl _
      | _ => exact .declined
    | literal _ | constructor _ => exact .declined
  | branch => exact withLiteral_alike h 0 fun condition => .refl _
  | fixpoint =>
    cases h with
    | nil => exact .declined
    | cons harg _ => exact .reduced (.app harg (.app (.refl _) harg))
  | tupleIntrospection =>
    cases h with
    | nil => exact .declined
    | cons harg _ => exact inspectTuple_alike c harg.shape
  | constructorIntrospection =>
    cases h with
    | nil => exact .declined
    | cons harg _ => exact inspectData_alike c harg.shape
  | literalDiscriminators =>
    cases h with
    | nil => exact .declined
    | cons harg _ => exact inspectLiteral_alike c harg.shape

theorem all_isClosed_eq (h : List.Forall₂ Alpha args args') :
    args.all Term.isClosed = args'.all Term.isClosed := by
  induction h with
  | nil => rfl
  | cons harg _ ih => rw [List.all_cons, List.all_cons, harg.isClosed_eq, ih]

/-- The answer of a rule is the same up to names. -/
theorem respond_alike (rule : DeltaRule) (c : Constant) (h : List.Forall₂ Alpha args args') :
    (rule.respond c args).Alike (rule.respond c args') := by
  have htake := List.forall₂_take rule.arity h
  have hdrop := List.forall₂_drop rule.arity h
  have happly := rule.apply_alike c htake
  rw [respond, respond, h.length_eq, all_isClosed_eq htake]
  split
  · generalize rule.apply c (args.take rule.arity) = outcome,
      rule.apply c (args'.take rule.arity) = outcome' at happly ⊢
    cases happly with
    | reduced ht => exact .reduced (ht.applyAll hdrop)
    | declined => exact .declined
    | needsArgument i => exact .needsArgument i
  · exact .declined

end DeltaRule

/-! ## Steps -/

namespace Term

variable {rules : List DeltaRule} {t t' u : Term}

/-- Beta steps are the same up to names. -/
theorem Alpha.betaStep? (h : Alpha t u) : Option.Rel Alpha t.betaStep? u.betaStep? := by
  induction t generalizing u with
  | app func arg ihf iha =>
    obtain ⟨func', arg', rfl, hfunc, harg⟩ := h.exists_app
    have hstepf := ihf hfunc
    have hstepa := iha harg
    -- a related term has its beta redexes in the same places
    by_cases habs : ∃ param body, func = .abs param body
    · obtain ⟨param, body, rfl⟩ := habs
      obtain ⟨param', body', rfl, hbody⟩ := hfunc.exists_abs
      exact .some (beta hbody harg)
    · have habs' : ¬∃ param body, func' = .abs param body := by
        rintro ⟨param', body', rfl⟩
        obtain ⟨param, body, rfl, -⟩ := hfunc.symm.exists_abs
        exact habs ⟨param, body, rfl⟩
      rw [betaStep?_app habs, betaStep?_app habs']
      generalize func.betaStep? = stepf, func'.betaStep? = stepf' at hstepf ⊢
      generalize arg.betaStep? = stepa, arg'.betaStep? = stepa' at hstepa ⊢
      cases hstepf with
      | some hstep => exact .some (.app hstep harg)
      | none =>
        cases hstepa with
        | some hstep => exact .some (.app hfunc hstep)
        | none => exact .none
  | var name =>
    obtain rfl := h.eq_var
    exact .none
  | const c =>
    obtain rfl := h.eq_const
    exact .none
  | abs param body =>
    obtain ⟨param', body', rfl, -⟩ := h.exists_abs
    exact .none

/-- Without a beta step, the same rules are asked about the same constant. -/
theorem Alpha.step?_of_betaStep?_eq_none (h : Alpha t u) (ht : t.betaStep? = none)
    (hu : u.betaStep? = none)
    (hargs : List.Forall₂ (fun arg arg' => Option.Rel Alpha (arg.step? rules) (arg'.step? rules))
      t.args u.args) : Option.Rel Alpha (t.step? rules) (u.step? rules) := by
  have hhead := h.spine.1
  cases htop : t.head with
  | const c =>
    rw [htop] at hhead
    rw [step?_eq_findSome? ht htop, step?_eq_findSome? hu hhead.eq_const]
    refine findSome?_rel fun rule _ => ?_
    have hanswer := rule.respond_alike c h.spine.2
    generalize rule.respond c t.args = outcome, rule.respond c u.args = outcome' at hanswer ⊢
    cases hanswer with
    | reduced hresult => exact .some hresult
    | declined => exact .none
    | needsArgument i =>
      -- the argument that is asked for steps in both
      have harg := getElem?_rel hargs i
      dsimp only
      generalize t.args[i]? = found, u.args[i]? = found' at harg ⊢
      cases harg with
      | none => exact .none
      | @some arg arg' hstep =>
        rw [Option.bind_some, Option.bind_some]
        generalize arg.step? rules = stepped, arg'.step? rules = stepped' at hstep ⊢
        cases hstep with
        | none => exact .none
        | some hstep => exact .some (.applyAll (.refl _) (forall₂_set_set h.spine.2 i hstep))
  | abs param body =>
    rw [htop] at hhead
    obtain ⟨param', body', hother, -⟩ := hhead.exists_abs
    rw [step?.eq_def, step?.eq_def _ u, ht, hu, htop, hother]
    exact .none
  | var name =>
    rw [htop] at hhead
    rw [step?.eq_def, step?.eq_def _ u, ht, hu, htop, hhead.eq_var]
    exact .none
  | app func arg => exact absurd htop (t.head_ne_app func arg)

/-- Steps are the same up to names, with any delta rules. -/
theorem Alpha.step? (h : Alpha t u) : Option.Rel Alpha (t.step? rules) (u.step? rules) := by
  induction t using size_induction generalizing u with
  | step t ih =>
    have hbeta := h.betaStep?
    cases ht : t.betaStep? with
    | some t' =>
      cases hu : u.betaStep? with
      | some u' =>
        rw [ht, hu] at hbeta
        rwa [step?_of_betaStep? ht, step?_of_betaStep? hu]
      | none =>
        rw [ht, hu] at hbeta
        contradiction
    | none =>
      cases hu : u.betaStep? with
      | some u' =>
        rw [ht, hu] at hbeta
        contradiction
      | none =>
        have hsteps (arg : Term) (harg : arg ∈ t.args) (arg' : Term) (h : Alpha arg arg') :
            Option.Rel Alpha (arg.step? rules) (arg'.step? rules) :=
          ih arg (size_lt_of_mem_args harg) h
        exact h.step?_of_betaStep?_eq_none ht hu
          (((List.forall₂_and_left t.args u.args).2 ⟨hsteps, h.spine.2⟩).imp fun arg arg' hboth =>
            hboth.1 arg' hboth.2)

/-- A run is one of terms up to names. -/
theorem Alpha.exists_steps (h : Alpha t u) (hsteps : Steps rules t t') :
    ∃ u', Steps rules u u' ∧ Alpha t' u' := by
  induction hsteps with
  | refl => exact ⟨u, .refl rules u, h⟩
  | @tail t₁ t₂ _ hstep ih =>
    obtain ⟨u₁, hu₁, halpha⟩ := ih
    have hrel : Option.Rel Alpha (t₁.step? rules) (u₁.step? rules) := halpha.step?
    rw [hstep] at hrel
    generalize hu₂ : u₁.step? rules = stepped at hrel
    cases hrel with
    | some halpha' => exact ⟨_, hu₁.tail hu₂, halpha'⟩

/-- Reduction is well defined up to the names of bound variables: of two terms that are equal up to
them, both have a step or neither, the results are equal up to names again, and so on along every
run. A step frees no variable, so what a closed term reduces to is closed. -/
theorem step?_wellDefined (t : Term) :
    (∀ u, Alpha t u →
        Option.Rel Alpha (t.step? DeltaRule.standard) (u.step? DeltaRule.standard)
          ∧ ∀ t', Steps DeltaRule.standard t t' →
            ∃ u', Steps DeltaRule.standard u u' ∧ Alpha t' u')
      ∧ (∀ t', t.step? DeltaRule.standard = some t' → t'.free ⊆ t.free)
      ∧ (t.isClosed = true → ∀ t', Steps DeltaRule.standard t t' → t'.isClosed = true) :=
  ⟨fun _ h => ⟨h.step?, fun _ => h.exists_steps⟩,
    fun _ h => (contracts_of_step? h).free_subset,
    fun ht _ h => isClosed_of_steps h ht⟩

/-- A function whose binder has the name of the argument that it gets, against one whose binder
does not: the first has to rename its binder, and both step to the same up to names. -/
theorem step?_wellDefined_binder :
    Alpha (.app (.abs "x" (.abs "y" (.var "x"))) (.var "y"))
        (.app (.abs "x" (.abs "z" (.var "x"))) (.var "y"))
      ∧ Option.Rel Alpha
        ((Term.app (.abs "x" (.abs "y" (.var "x"))) (.var "y")).step? DeltaRule.standard)
        ((Term.app (.abs "x" (.abs "z" (.var "x"))) (.var "y")).step? DeltaRule.standard) := by
  have halpha : Alpha (.app (.abs "x" (.abs "y" (.var "x"))) (.var "y"))
      (.app (.abs "x" (.abs "z" (.var "x"))) (.var "y")) := alpha_iff.2 (by decide)
  exact ⟨halpha, ((step?_wellDefined _).1 _ halpha).1⟩

end Term

end Clausal
