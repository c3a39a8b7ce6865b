import Clausal.Proofs.Nameless.Reduction
import Clausal.Proofs.Reduction.Step

/-!
# Contraction anywhere in a term

The steps of the reducer pick one redex. Here any redex may be contracted, also under an
abstraction. Contraction of named terms and of nameless terms agree: what a term contracts to is
read as a contraction of what the term is read as, and the other way round.

## Main results

* `Term.contracts_of_step?`: a step of the reducer is a contraction;
* `Term.Contracts.read`: a contraction is read as one, in every environment;
* `Term.exists_contracts_of_read`: in an environment of leaves, every contraction is read off one;
* `Term.Contracts.free_subset`: a contraction frees no variable.
-/

namespace Clausal

open Relation (ReflTransGen)

namespace Term

variable {env : Environment} {t t' : Term} {c : Constant} {args : List Term}

/-- A contraction of one redex anywhere in a term: an abstraction with an argument, or a constant
with arguments that one of the standard rules reduces. -/
inductive Contracts : Term → Term → Prop
  | beta (param : String) (body arg : Term) :
      Contracts (.app (.abs param body) arg) (body.subst param arg)
  | delta {rule : DeltaRule} {c : Constant} {args : List Term} {t : Term}
      (hrule : rule ∈ DeltaRule.standard) (h : rule.respond c args = .reduced t) :
      Contracts ((Term.const c).applyAll args) t
  | func {func func' : Term} (arg : Term) :
      Contracts func func' → Contracts (.app func arg) (.app func' arg)
  | arg (func : Term) {arg arg' : Term} :
      Contracts arg arg' → Contracts (.app func arg) (.app func arg')
  | abs (param : String) {body body' : Term} :
      Contracts body body' → Contracts (.abs param body) (.abs param body')

/-- Any number of contractions, one after the other. -/
abbrev Reduces : Term → Term → Prop := ReflTransGen Contracts

/-! ## Steps of the reducer -/

theorem contracts_of_betaStep? (h : t.betaStep? = some t') : Contracts t t' := by
  fun_induction betaStep? t generalizing t' with
  | case1 param body arg =>
    rw [← Option.some.inj h]
    exact .beta param body arg
  | case2 func arg _ func' _ ih =>
    rw [← Option.some.inj h]
    exact .func arg (ih ‹_›)
  | case3 func arg _ _ _ ih =>
    obtain ⟨arg', harg, rfl⟩ := Option.map_eq_some_iff.1 h
    exact .arg func (ih harg)
  | case4 => contradiction

theorem Contracts.applyAll (h : Contracts t t') (args : List Term) :
    Contracts (t.applyAll args) (t'.applyAll args) := by
  induction args generalizing t t' with
  | nil => exact h
  | cons arg args ih => exact ih (.func arg h)

/-- A contraction in one of the arguments. -/
theorem Contracts.applyAll_set {arg arg' : Term} (h : Contracts arg arg') (func : Term) {i : Nat}
    (harg : args[i]? = some arg) :
    Contracts (func.applyAll args) (func.applyAll (args.set i arg')) := by
  induction args generalizing func i with
  | nil => contradiction
  | cons first rest ih =>
    cases i with
    | zero =>
      obtain rfl := Option.some.inj harg
      exact (Contracts.arg func h).applyAll rest
    | succ i => exact ih _ harg

/-- A step of the reducer is a contraction. -/
theorem contracts_of_step? (h : t.step? DeltaRule.standard = some t') : Contracts t t' := by
  induction t using size_induction generalizing t' with
  | step t ih =>
    rcases step?_cases h with hbeta | ⟨c, hhead, rule, hrule, hanswer⟩
    · exact contracts_of_betaStep? hbeta
    · have ht : (Term.const c).applyAll t.args = t := hhead ▸ t.applyAll_head_args
      rcases hanswer with hreduced | ⟨i, arg, arg', -, harg, hstep, rfl⟩
      · exact ht ▸ .delta hrule hreduced
      · have hcontracts := ih arg (size_lt_of_mem_args (List.mem_of_getElem? harg)) hstep
        have := hcontracts.applyAll_set (Term.const c) harg
        rwa [ht] at this

/-! ## Reading a redex -/

/-- What is read of an evaluated term is evaluated as far. -/
theorem read_of_shape (ht : t.shape ≠ .pending) :
    (t.read env).kind = t.shape.kind ∧ (t.read env).args = t.args.map (read env) := by
  have hwhole := t.applyAll_head_args
  rw [shape] at ht ⊢
  cases hhead : t.head with
  | const c =>
    rw [hhead] at hwhole
    dsimp only
    rw [← hwhole, read_applyAll, args_applyAll, read, Nameless.kind_const_applyAll,
      Nameless.args_applyAll, Constant.kind_shape, List.length_map]
    exact ⟨rfl, rfl⟩
  | abs param body =>
    rw [hhead] at ht hwhole
    cases hargs : t.args with
    | nil =>
      rw [hargs, applyAll_nil] at hwhole
      rw [← hwhole]
      exact ⟨rfl, rfl⟩
    | cons _ _ =>
      rw [hargs] at ht
      exact absurd rfl ht
  | var _ | app _ _ =>
    rw [hhead] at ht
    exact absurd rfl ht

theorem kind_below_read (t : Term) (env : Environment) :
    Kind.Below t.shape.kind (t.read env).kind := by
  by_cases ht : t.shape = .pending
  · rw [ht]
    exact .inl rfl
  · exact .inr (read_of_shape ht).1.symm

theorem read_fieldsTerm (fields : List Term) (env : Environment) :
    (fieldsTerm fields).read env = Nameless.fieldsTerm (fields.map (read env)) := by
  match fields with
  | [field] => rfl
  | [] => rfl
  | first :: second :: rest =>
    simp only [fieldsTerm, Nameless.fieldsTerm, read_applyAll, List.map_cons, List.length_cons,
      List.length_map]
    rfl

/-- The term of an answer is read as its nameless term. -/
theorem read_term? (answer : Answer) (parts : List Term) (env : Environment) :
    (answer.term? parts).map (read env) = answer.nameless? (parts.map (read env)) := by
  cases answer with
  | literal value => rfl
  | choice first =>
    rw [Answer.term?, Answer.nameless?, Option.map_some, read_eq_nameless]
    cases first <;> decide
  | component index => exact (List.getElem?_map ..).symm
  | fields => exact congrArg some (read_fieldsTerm parts env)

theorem read_head_args (args : List Term) (env : Environment)
    (h : ∀ arg, args.head? = some arg → arg.shape ≠ .pending) :
    (args.map (read env)).head?.elim [] Nameless.args
      = (args.head?.elim [] Term.args).map (read env) := by
  cases args with
  | nil => rfl
  | cons first rest => exact (read_of_shape (h first rfl)).2

/-- An answer of a rule is read as the answer to what the arguments are read as. -/
theorem delta_read_of_answer {answer : Answer} (hclosed : ∀ arg ∈ args, arg.isClosed = true)
    (hanswer : c.answer? (args.map fun arg => arg.shape.kind) = some answer)
    (hterm : answer.term? (args.head?.elim [] Term.args) = some t) :
    Nameless.Delta (((Term.const c).applyAll args).read env) (t.read env) := by
  have hkinds : List.Forall₂ Kind.Below (args.map fun arg => arg.shape.kind)
      ((args.map (read env)).map Nameless.kind) := by
    rw [List.map_map, List.forall₂_map_left_iff, List.forall₂_map_right_iff, List.forall₂_same]
    exact fun arg _ => kind_below_read arg env
  -- the first argument is evaluated, since there is an answer
  have hparts := read_head_args args env fun arg harg hpending => by
    cases args with
    | nil => contradiction
    | cons first rest =>
      obtain rfl := Option.some.inj harg
      rw [List.map_cons, hpending, Shape.kind, Constant.answer?_pending_cons] at hanswer
      contradiction
  rw [read_applyAll]
  refine .of_args ?_ (Constant.answer?_mono hkinds hanswer) ?_
  · intro arg' harg'
    obtain ⟨arg, harg, rfl⟩ := List.mem_map.1 harg'
    exact closed_read (hclosed arg harg) env
  · rw [hparts, ← read_term?, hterm, Option.map_some]

/-- A rule that reduces a constant with its arguments contracts what they are read as. -/
theorem delta_read {rule : DeltaRule} (happlicable : rule.Applicable c args)
    (hlength : args.length = rule.arity) (h : rule.apply c args = .reduced t) :
    Nameless.Delta (((Term.const c).applyAll args).read env) (t.read env) := by
  have hc := DeltaRule.accepts_iff_isAbout.1 happlicable.accepts
  by_cases hfix : rule = .fixpoint
  · subst hfix
    obtain ⟨function, rfl⟩ := List.length_eq_one_iff.1 hlength
    cases hc with
    | fix =>
      rw [← Outcome.reduced.inj h]
      exact .fix (function.read env)
  · obtain ⟨answer, hanswer, hterm⟩ := (DeltaRule.apply_eq_reduced_iff hc hfix hlength).1 h
    refine delta_read_of_answer (fun arg harg => ?_) hanswer hterm
    refine happlicable.closed ?_ arg ?_
    · cases rule with
      | fixpoint => exact absurd rfl hfix
      | _ => rfl
    · rwa [List.take_of_length_le hlength.le]

/-- A contraction is read as one. -/
theorem Contracts.read (h : Contracts t t') (env : Environment) :
    Nameless.Step (t.read env) (t'.read env) := by
  induction h generalizing env with
  | beta param body arg =>
    rw [read_subst, ← instantiate_read]
    exact .beta _ _ _
  | @delta rule c args t hrule h =>
    obtain ⟨happlicable, result, happly, rfl⟩ := DeltaRule.respond_eq_reduced h
    have htake : (args.take rule.arity).length = rule.arity :=
      List.length_take_of_le happlicable.arity_le
    have happlicable' : rule.Applicable c (args.take rule.arity) :=
      ⟨happlicable.accepts, htake.ge, by rw [List.take_take, Nat.min_self]; exact happlicable.closed⟩
    -- the arguments left are applied to both
    have hwhole := (Term.const c).applyAll_append (args.take rule.arity) (args.drop rule.arity)
    rw [List.take_append_drop] at hwhole
    rw [hwhole, read_applyAll _ (args.drop _), read_applyAll result]
    exact (Nameless.Step.delta (delta_read happlicable' htake happly)).applyAll _
  | func arg _ ih => exact .func _ (ih env)
  | arg func _ ih => exact .arg _ (ih env)
  | abs param _ ih => exact .abs _ (ih _)

/-! ## Reading off a redex -/

theorem head_read (h : env.Leaves) (t : Term) : (t.read env).head = t.head.read env := by
  induction t with
  | var name =>
    rcases h.leaf name with ⟨i, hi⟩ | ⟨other, hother⟩
    · simp only [head, read, hi, Nameless.head]
    · simp only [head, read, hother, Nameless.head]
  | app func arg ih _ => exact ih
  | const _ | abs _ _ => rfl

theorem args_read (h : env.Leaves) (t : Term) : (t.read env).args = t.args.map (read env) := by
  induction t with
  | var name =>
    rcases h.leaf name with ⟨i, hi⟩ | ⟨other, hother⟩
    · simp only [args, read, hi, Nameless.args, List.map_nil]
    · simp only [args, read, hother, Nameless.args, List.map_nil]
  | app func arg ih _ => rw [read, Nameless.args, ih, args, List.map_append, List.map_singleton]
  | const _ | abs _ _ => rfl

/-- What is read in leaves is evaluated exactly as far as the term. -/
theorem kind_read (h : env.Leaves) (t : Term) : (t.read env).kind = t.shape.kind := by
  by_cases ht : t.shape = .pending
  · rw [ht, Nameless.kind, head_read h, args_read h]
    rw [shape] at ht
    cases hhead : t.head with
    | const c =>
      rw [hhead] at ht
      dsimp only at ht
      rw [← ht, Constant.kind_shape, read, List.length_map]
    | abs param body =>
      rw [hhead] at ht
      rw [read, List.isEmpty_map]
      dsimp only at ht ⊢
      split at ht
      · contradiction
      · next hargs => exact if_neg hargs
    | var name =>
      rcases h.leaf name with ⟨i, hi⟩ | ⟨other, hother⟩
      · simp only [read, hi, Shape.kind]
      · simp only [read, hother, Shape.kind]
    | app func arg => exact absurd hhead (head_ne_app t func arg)
  · exact (read_of_shape ht).1

/-- A variable is read only from itself. -/
theorem eq_var_of_read (h : env.Leaves) {name : String} (ht : t.read env = env name) :
    t = .var name := by
  cases t with
  | var other => rw [h.injective ht]
  | const _ | abs _ _ | app _ _ =>
    rcases h.leaf name with ⟨i, hi⟩ | ⟨other, hother⟩
    · rw [hi] at ht; contradiction
    · rw [hother] at ht; contradiction

/-- A constant is read only from itself. -/
theorem eq_const_of_read (h : env.Leaves) (ht : t.read env = .const c) : t = .const c := by
  cases t with
  | var name =>
    rcases h.leaf name with ⟨i, hi⟩ | ⟨other, hother⟩
    · rw [read, hi] at ht; contradiction
    · rw [read, hother] at ht; contradiction
  | const c' => exact congrArg Term.const (Nameless.const.inj ht)
  | abs _ _ | app _ _ => contradiction

/-- An abstraction is read only from one. -/
theorem exists_abs_of_read (h : env.Leaves) {stem : String} {body : Nameless}
    (ht : t.read env = .abs stem body) :
    ∃ param body', t = .abs param body' ∧ body = body'.read (env.bind param) := by
  cases t with
  | var name =>
    rcases h.leaf name with ⟨i, hi⟩ | ⟨other, hother⟩
    · rw [read, hi] at ht; contradiction
    · rw [read, hother] at ht; contradiction
  | abs param body' => exact ⟨param, body', rfl, (Nameless.abs.inj ht).2.symm⟩
  | const _ | app _ _ => contradiction

/-- An application is read only from one. -/
theorem exists_app_of_read (h : env.Leaves) {func arg : Nameless}
    (ht : t.read env = .app func arg) :
    ∃ func' arg', t = .app func' arg' ∧ func = func'.read env ∧ arg = arg'.read env := by
  cases t with
  | var name =>
    rcases h.leaf name with ⟨i, hi⟩ | ⟨other, hother⟩
    · rw [read, hi] at ht; contradiction
    · rw [read, hother] at ht; contradiction
  | app func' arg' =>
    exact ⟨func', arg', rfl, (Nameless.app.inj ht).1.symm, (Nameless.app.inj ht).2.symm⟩
  | const _ | abs _ _ => contradiction

/-- A spine that a constant heads is read only from one. -/
theorem eq_applyAll_of_read (h : env.Leaves) {args' : List Nameless}
    (ht : t.read env = (Nameless.const c).applyAll args') :
    t = (Term.const c).applyAll t.args ∧ args' = t.args.map (read env) := by
  have hhead := head_read h t
  have hargs := args_read h t
  rw [ht, Nameless.head_applyAll] at hhead
  rw [ht, Nameless.args_applyAll] at hargs
  refine ⟨?_, hargs⟩
  rw [← eq_const_of_read h hhead.symm, applyAll_head_args]

/-- An answer is that of one of the standard rules. -/
theorem exists_respond_of_answer {answer : Answer} (hclosed : ∀ arg ∈ args, arg.isClosed = true)
    (hanswer : c.answer? (args.map fun arg => arg.shape.kind) = some answer)
    (hterm : answer.term? (args.head?.elim [] Term.args) = some t) :
    ∃ rule ∈ DeltaRule.standard, rule.respond c args = .reduced t := by
  obtain ⟨p, rfl, harity⟩ := Constant.arity_of_answer? hanswer
  rw [List.length_map] at harity
  obtain ⟨rule, hrule, hc⟩ := DeltaRule.exists_mem_standard harity
  obtain ⟨p', hp, harity'⟩ := hc.exists_arity?
  rw [← Constant.primitive.inj hp, harity] at harity'
  have hlength : args.length = rule.arity := Option.some.inj harity'
  have hfix : rule ≠ .fixpoint := by
    rintro rfl
    cases hc
    contradiction
  have happly := (DeltaRule.apply_eq_reduced_iff hc hfix hlength).2 ⟨answer, hanswer, hterm⟩
  refine ⟨rule, hrule, ?_⟩
  have happlicable : rule.Applicable (.primitive p) args :=
    ⟨DeltaRule.accepts_iff_isAbout.2 hc, hlength.ge, fun _ arg harg =>
      hclosed arg (List.mem_of_mem_take harg)⟩
  rw [DeltaRule.respond, if_pos (DeltaRule.applicable_iff.1 happlicable),
    List.take_of_length_le hlength.le, happly, List.drop_of_length_le hlength.le]
  rfl

/-- A delta redex that was read comes from one. -/
theorem exists_contracts_of_delta (h : env.Leaves) {u : Nameless}
    (hdelta : Nameless.Delta (t.read env) u) : ∃ t', Contracts t t' ∧ t'.read env = u := by
  generalize hread : t.read env = redex at hdelta
  cases hdelta with
  | fix function =>
    have hread' : t.read env = (Nameless.const (.primitive .fix)).applyAll [function] := hread
    obtain ⟨ht, hargs⟩ := eq_applyAll_of_read h hread'
    obtain ⟨arg, harg⟩ := List.length_eq_one_iff.1
      ((List.length_map ..).symm.trans (congrArg List.length hargs).symm)
    rw [harg] at ht hargs
    have hrespond : DeltaRule.fixpoint.respond (.primitive .fix) [arg]
        = .reduced (.app arg (.app (.primitive .fix) arg)) := rfl
    rw [ht]
    refine ⟨_, .delta (by decide) hrespond, ?_⟩
    rw [(List.cons.inj hargs).1]
    rfl
  | @answer c init last _ answer closed hanswer hresult =>
    rw [← Nameless.applyAll_concat] at hread
    obtain ⟨ht, hargs⟩ := eq_applyAll_of_read h hread
    rw [hargs] at closed hanswer hresult
    -- kinds and parts are the same before reading, so the rule gives the same answer
    have hkinds : (t.args.map (read env)).map Nameless.kind
        = t.args.map fun arg => arg.shape.kind := by
      rw [List.map_map]
      exact List.map_congr_left fun arg _ => kind_read h arg
    have hparts : (t.args.map (read env)).head?.elim [] Nameless.args
        = (t.args.head?.elim [] Term.args).map (read env) := by
      cases t.args with
      | nil => rfl
      | cons first _ => exact args_read h first
    rw [hkinds] at hanswer
    rw [hparts, ← read_term?] at hresult
    obtain ⟨result, hterm, hresult⟩ := Option.map_eq_some_iff.1 hresult
    have hclosed : ∀ arg ∈ t.args, arg.isClosed = true := fun arg harg =>
      h.closed_read_iff.1 (closed _ (List.mem_map_of_mem harg))
    obtain ⟨rule, hrule, hrespond⟩ := exists_respond_of_answer hclosed hanswer hterm
    exact ⟨result, ht ▸ .delta hrule hrespond, hresult⟩

/-- A contraction of what is read in leaves is read off one. -/
theorem exists_contracts_of_read (h : env.Leaves) {u : Nameless}
    (hstep : Nameless.Step (t.read env) u) : ∃ t', Contracts t t' ∧ t'.read env = u := by
  induction t generalizing env u with
  | var name =>
    rcases h.leaf name with ⟨i, hi⟩ | ⟨other, hother⟩
    · rw [read, hi] at hstep
      exact absurd hstep.exists_app_or_abs (by simp)
    · rw [read, hother] at hstep
      exact absurd hstep.exists_app_or_abs (by simp)
  | const c => exact absurd hstep.exists_app_or_abs (by simp [read])
  | abs param body ih =>
    rw [read] at hstep
    cases hstep with
    | delta hdelta =>
      obtain ⟨_, _, heq⟩ := hdelta.exists_app
      contradiction
    | abs _ hbody =>
      obtain ⟨body', hbody', rfl⟩ := ih (h.bind param) hbody
      exact ⟨_, .abs param hbody', rfl⟩
  | app func arg ihf iha =>
    generalize hread : (Term.app func arg).read env = redex at hstep
    cases hstep with
    | beta stem body arg' =>
      obtain ⟨hfunc, rfl⟩ := Nameless.app.inj hread
      obtain ⟨param, body, rfl, rfl⟩ := exists_abs_of_read h hfunc
      refine ⟨_, .beta param body arg, ?_⟩
      rw [read_subst, ← instantiate_read]
    | delta hdelta => exact exists_contracts_of_delta h (hread ▸ hdelta)
    | func _ hfunc =>
      obtain ⟨rfl, rfl⟩ := Nameless.app.inj hread
      obtain ⟨func', hfunc', rfl⟩ := ihf h hfunc
      exact ⟨_, .func arg hfunc', rfl⟩
    | arg _ harg =>
      obtain ⟨rfl, rfl⟩ := Nameless.app.inj hread
      obtain ⟨arg', harg', rfl⟩ := iha h harg
      exact ⟨_, .arg func harg', rfl⟩
    | abs _ _ => contradiction

theorem Reduces.read (h : Reduces t t') (env : Environment) :
    Nameless.Steps (t.read env) (t'.read env) :=
  h.lift (Term.read env) fun _ _ h => h.read env

/-- Reductions of what is read in leaves are read off reductions. -/
theorem exists_reduces_of_read (h : env.Leaves) {u : Nameless}
    (hsteps : Nameless.Steps (t.read env) u) : ∃ t', Reduces t t' ∧ t'.read env = u := by
  induction hsteps with
  | refl => exact ⟨t, .refl, rfl⟩
  | tail _ hstep ih =>
    obtain ⟨t', hreduces, rfl⟩ := ih
    obtain ⟨t'', hcontracts, rfl⟩ := exists_contracts_of_read h hstep
    exact ⟨t'', hreduces.tail hcontracts, rfl⟩

/-! ## Free variables -/

/-- A contraction frees no variable. -/
theorem Contracts.free_subset (h : Contracts t t') : t'.free ⊆ t.free := by
  intro name hname
  by_contra hnot
  -- with closed terms for all other variables, the redex is closed and the result is not
  let env : Environment := fun other => if other = name then .free name else .const (.primitive .bot)
  have hclosed : (t.read env).ClosedAt 0 := closedAt_read fun other hother => by
    have hne : other ≠ name := fun heq => hnot (heq ▸ hother)
    simp only [env, if_neg hne]
    trivial
  have hresult := closedAt_of_read ((h.read env).par.closedAt hclosed) name hname
  simp only [env] at hresult
  exact hresult

theorem Contracts.isClosed (h : Contracts t t') (ht : t.isClosed = true) : t'.isClosed = true :=
  isClosed_iff.2 fun name hname => isClosed_iff.1 ht name (h.free_subset hname)

theorem isClosed_of_steps (h : Steps DeltaRule.standard t t') (ht : t.isClosed = true) :
    t'.isClosed = true := by
  induction h with
  | refl => exact ht
  | tail _ hstep ih => exact (contracts_of_step? hstep).isClosed ih

end Term

end Clausal
