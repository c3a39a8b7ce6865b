import Clausal.Proofs.Delta.Answer
import Clausal.Proofs.Reduction.Contraction
import Clausal.Proofs.Reduction.Limits

/-!
# Normal forms

Reduction in normal mode makes steps until there is none and goes on with the arguments of the head.
Then the spine is put together again, and it is not looked at again. A rule that requires closed
arguments may have been held back by a variable, though, that an argument loses only when it is
reduced: `not` does not look at `if true true x`, which becomes `true`. So the result may have a
step. It is a normal form just if no rule was held back in this way, as in a closed term.

## Main results

* `Term.isNormal_iff_normalizes`: a term is a normal form just if its reduction makes no step;
* `Term.exists_open_of_respond`: what reduces a spine put together again was held back by an open
  argument;
* `Term.Normalizes.isNormal_iff`: reduction ends in a normal form just if no rule was held back;
* `Term.reduce_isNormal_iff`: so does reduction within a limit, if it ends.
-/

namespace Clausal.Term

variable {rules : List DeltaRule} {rule : DeltaRule} {c : Constant} {t t' u arg result : Term}
  {args ts us : List Term} {n : Nat}

/-! ## Normal forms -/

/-- No step applies to a term, nor to the arguments of its head, nor to the arguments of theirs. -/
inductive IsNormal (rules : List DeltaRule) : Term → Prop
  | intro {t : Term} (hstep : t.step? rules = none)
      (hargs : ∀ arg ∈ t.args, IsNormal rules arg) : IsNormal rules t

theorem IsNormal.step?_eq_none (h : IsNormal rules t) : t.step? rules = none := by
  cases h with
  | intro hstep _ => exact hstep

theorem IsNormal.of_mem_args (h : IsNormal rules t) (harg : arg ∈ t.args) : IsNormal rules arg := by
  cases h with
  | intro _ hargs => exact hargs arg harg

theorem StepsTo.steps (h : StepsTo rules t u n) : Steps rules t u := by
  induction h with
  | stop _ => exact .refl rules _
  | step h _ ih => exact .head h ih

theorem StepsTo.step?_eq_none (h : StepsTo rules t u n) : u.step? rules = none := by
  induction h with
  | stop h => exact h
  | step _ _ ih => exact ih

/-- The terms of a list are reduced one by one. -/
theorem NormalizesAll.forall₂ (h : NormalizesAll rules ts us n) :
    List.Forall₂ (fun t u => ∃ n, Normalizes rules t u n) ts us := by
  induction ts generalizing us n with
  | nil =>
    cases h with
    | nil => exact .nil
  | cons t ts ih =>
    cases h with
    | cons hfirst hrest => exact .cons ⟨_, hfirst⟩ (ih hrest)

theorem NormalizesAll.self (h : ∀ t ∈ ts, Normalizes rules t t 0) :
    NormalizesAll rules ts ts 0 := by
  induction ts with
  | nil => exact .nil
  | cons t ts ih =>
    obtain ⟨hfirst, hrest⟩ := List.forall_mem_cons.1 h
    exact .cons hfirst (ih hrest)

theorem IsNormal.normalizes (h : IsNormal rules t) : Normalizes rules t t 0 := by
  induction h with
  | @intro t hstep _ ih =>
    have hwhole : Normalizes rules t (t.head.applyAll t.args) (0 + 0) :=
      .spine (.stop hstep) (.self ih)
    rwa [applyAll_head_args] at hwhole

mutual

/-- A reduction without steps leaves a normal form as it is. -/
theorem Normalizes.of_zero {rules : List DeltaRule} {t u : Term} {n : Nat}
    (h : Normalizes rules t u n) (hn : n = 0) : u = t ∧ IsNormal rules t := by
  match h with
  | .spine hsteps hargs =>
    obtain ⟨hn, hm⟩ := Nat.add_eq_zero_iff.1 hn
    obtain ⟨rfl, hnormal⟩ := hargs.of_zero hm
    cases hsteps with
    | stop hstep => exact ⟨applyAll_head_args t, .intro hstep hnormal⟩
    | step _ _ => contradiction

theorem NormalizesAll.of_zero {rules : List DeltaRule} {ts us : List Term} {n : Nat}
    (h : NormalizesAll rules ts us n) (hn : n = 0) : us = ts ∧ ∀ t ∈ ts, IsNormal rules t := by
  match h with
  | .nil => exact ⟨rfl, nofun⟩
  | .cons hfirst hrest =>
    obtain ⟨hn, hm⟩ := Nat.add_eq_zero_iff.1 hn
    obtain ⟨rfl, hnormal⟩ := hfirst.of_zero hn
    obtain ⟨rfl, hnormals⟩ := hrest.of_zero hm
    exact ⟨rfl, List.forall_mem_cons.2 ⟨hnormal, hnormals⟩⟩

end

/-- The normal forms are the terms that are reduced without a step. -/
theorem isNormal_iff_normalizes : IsNormal rules t ↔ Normalizes rules t t 0 :=
  ⟨IsNormal.normalizes, fun h => (h.of_zero rfl).2⟩

/-! ## Arguments without a step -/

/-- A term without a step keeps its head and its number of arguments when these are reduced. -/
theorem Normalizes.kind_shape (h : Normalizes rules t u n) (ht : t.step? rules = none) :
    u.shape.kind = t.shape.kind := by
  cases h with
  | spine hsteps hargs =>
    cases hsteps with
    | stop _ =>
      refine kind_shape_eq (head_head_applyAll ..) ?_
      rw [args_head_applyAll, hargs.forall₂.length_eq]
    | step hstep _ =>
      rw [ht] at hstep
      contradiction

/-- Without a beta step, only a pending term changes how far it is evaluated. -/
theorem Normalizes.kind_below (h : Normalizes rules t u n) (hbeta : t.betaStep? = none) :
    Kind.Below t.shape.kind u.shape.kind := by
  by_cases hshape : t.shape = .pending
  · exact .inl (Shape.kind_eq_pending.2 hshape)
  · exact .inr (h.kind_shape (step?_eq_none_of_shape hbeta hshape)).symm

theorem forall₂_kind_below (hbeta : ∀ t ∈ ts, t.betaStep? = none)
    (h : List.Forall₂ (fun t u => ∃ n, Normalizes rules t u n) ts us) :
    List.Forall₂ (fun t u => Kind.Below t.shape.kind u.shape.kind) ts us := by
  have hboth := (List.forall₂_and_left (p := fun t => t.betaStep? = none) _ _).2 ⟨hbeta, h⟩
  exact hboth.imp fun _ _ ⟨hbeta, _, h⟩ => h.kind_below hbeta

/-! ## Rules that are held back -/

/-- A rule that applies to a term without a step declines the arguments, or it asks for one that is
pending and has no step. -/
theorem apply_of_step?_eq_none (ht : t.step? rules = none) (hhead : t.head = .const c)
    (hrule : rule ∈ rules) (happlicable : rule.Applicable c t.args) :
    rule.apply c (t.args.take rule.arity) = .declined
      ∨ ∃ (i : Nat) (arg : Term), rule.apply c (t.args.take rule.arity) = .needsArgument i
        ∧ (t.args.take rule.arity)[i]? = some arg ∧ arg.shape = .pending
        ∧ arg.step? rules = none := by
  have hrespond := (step?_eq_none_cases ht).2 c hhead rule hrule
  rcases rule.respond_cases c t.args with
    ⟨-, hdeclined⟩ | ⟨-, ⟨result, -, hreduced⟩ | ⟨i, happly, hneeds⟩⟩
  · exact .inl (hdeclined happlicable)
  · rw [hreduced] at hrespond
    rcases hrespond with heq | ⟨_, heq, -⟩ <;> contradiction
  · obtain ⟨arg, harg, hshape⟩ :=
      DeltaRule.apply_eq_needsArgument (DeltaRule.accepts_iff_isAbout.1 happlicable.accepts) happly
    refine .inr ⟨i, arg, happly, harg, hshape, ?_⟩
    rcases hrespond with heq | ⟨j, heq, hstuck⟩
    · rw [hneeds] at heq
      contradiction
    · obtain rfl := Outcome.needsArgument.inj (hneeds.symm.trans heq)
      rw [List.getElem?_take] at harg
      split at harg
      · exact hstuck arg harg
      · contradiction

/-- If a rule reduces the head and the reduced arguments of a term without a step, then one of the
arguments that it consumes was open. -/
theorem exists_open_of_respond (ht : t.step? DeltaRule.standard = none)
    (hhead : t.head = .const c) (hrule : rule ∈ DeltaRule.standard)
    (hargs : List.Forall₂ (fun t u => ∃ n, Normalizes DeltaRule.standard t u n) t.args args)
    (h : rule.respond c args = .reduced result) :
    ∃ arg ∈ t.args.take rule.arity, arg.isClosed = false := by
  by_contra hclosed
  simp only [not_exists, not_and, Bool.not_eq_false] at hclosed
  obtain ⟨happlicable', result, happly, -⟩ := DeltaRule.respond_eq_reduced h
  have hlength : rule.arity ≤ t.args.length := hargs.length_eq ▸ happlicable'.arity_le
  have happlicable : rule.Applicable c t.args :=
    ⟨happlicable'.accepts, hlength, fun _ => hclosed⟩
  have hbeta : ∀ arg ∈ t.args.take rule.arity, arg.betaStep? = none := fun arg harg =>
    betaStep?_eq_none_of_mem_args (step?_eq_none_cases ht).1 (List.mem_of_mem_take harg)
  have htake := List.forall₂_take rule.arity hargs
  -- with closed arguments the rule had its say before, and was kept waiting for an argument at most
  have hstuck := apply_of_step?_eq_none ht hhead hrule happlicable
  rcases DeltaRule.apply_of_below (DeltaRule.accepts_iff_isAbout.1 happlicable.accepts)
    (List.length_take_of_le hlength) (forall₂_kind_below hbeta htake) happly with
    ⟨_, hreduced⟩ | ⟨i, arg', hneeds, harg', hevaluated⟩
  · rw [hreduced] at hstuck
    rcases hstuck with heq | ⟨_, _, heq, -⟩ <;> contradiction
  · rw [hneeds] at hstuck
    rcases hstuck with heq | ⟨j, arg, heq, harg, hpending, hstep⟩
    · contradiction
    obtain rfl := Outcome.needsArgument.inj heq
    have hrel := getElem?_rel htake i
    rw [harg, harg'] at hrel
    cases hrel with
    | some hnormalizes =>
      -- that argument has no step either, so it is pending still
      obtain ⟨n, h⟩ := hnormalizes
      have hkind := h.kind_shape hstep
      rw [hpending] at hkind
      exact hevaluated (Shape.kind_eq_pending.1 hkind)

/-- The head and the reduced arguments of a term without a step have none unless a rule reduces them
that was held back. -/
theorem step?_head_applyAll_eq_none (ht : t.step? DeltaRule.standard = none)
    (hargs : List.Forall₂ (fun t u => ∃ n, Normalizes DeltaRule.standard t u n) t.args args)
    (hnormal : ∀ arg ∈ args, arg.step? DeltaRule.standard = none)
    (hrules : ∀ c, t.head = .const c → ∀ rule ∈ DeltaRule.standard,
      (∃ arg ∈ t.args.take rule.arity, arg.isClosed = false) →
        ∀ result, rule.respond c args ≠ .reduced result) :
    (t.head.applyAll args).step? DeltaRule.standard = none := by
  rw [Option.eq_none_iff_forall_ne_some]
  intro u hstep
  rcases step?_cases hstep with hbeta | ⟨c, hhead, rule, hrule, hreduced
    | ⟨i, arg, arg', -, harg, hstep, -⟩⟩
  · have hnone := betaStep?_head_applyAll (step?_eq_none_cases ht).1 hargs.length_eq.symm
      fun arg harg => (step?_eq_none_cases (hnormal arg harg)).1
    rw [hnone] at hbeta
    contradiction
  · rw [head_head_applyAll] at hhead
    rw [args_head_applyAll] at hreduced
    have hopen := exists_open_of_respond ht hhead hrule hargs hreduced
    exact hrules c hhead rule hrule hopen u hreduced
  · rw [args_head_applyAll] at harg
    rw [hnormal arg (List.mem_of_getElem? harg)] at hstep
    contradiction

/-- A rule is held back when a term is reduced: at the head or in an argument, the steps end while
an argument is open that the rule consumes, and it reduces the constant with the arguments once
these are reduced. -/
inductive HeldBack : Term → Prop
  | here {t t' result : Term} {c : Constant} {args : List Term} {n m : Nat} {rule : DeltaRule}
      (hsteps : StepsTo DeltaRule.standard t t' n) (hhead : t'.head = .const c)
      (hargs : NormalizesAll DeltaRule.standard t'.args args m)
      (hrule : rule ∈ DeltaRule.standard)
      (hopen : ∃ arg ∈ t'.args.take rule.arity, arg.isClosed = false)
      (hreduced : rule.respond c args = .reduced result) : HeldBack t
  | arg {t t' arg : Term} {n : Nat} (hsteps : StepsTo DeltaRule.standard t t' n)
      (harg : arg ∈ t'.args) (h : HeldBack arg) : HeldBack t

mutual

theorem Normalizes.isNormal {t u : Term} {n : Nat} (h : Normalizes DeltaRule.standard t u n)
    (hnot : ¬HeldBack t) : IsNormal DeltaRule.standard u := by
  match h with
  | .spine hsteps hargs =>
    -- the arguments are normal forms, so only the spine itself can have a step
    have hnormal := hargs.isNormal fun arg harg hheld => hnot (.arg hsteps harg hheld)
    refine .intro ?_ (by rwa [args_head_applyAll])
    refine step?_head_applyAll_eq_none hsteps.step?_eq_none hargs.forall₂
      (fun arg harg => (hnormal arg harg).step?_eq_none) ?_
    intro c hhead rule hrule hopen result hreduced
    exact hnot (.here hsteps hhead hargs hrule hopen hreduced)

theorem NormalizesAll.isNormal {ts us : List Term} {n : Nat}
    (h : NormalizesAll DeltaRule.standard ts us n) (hnot : ∀ t ∈ ts, ¬HeldBack t) :
    ∀ u ∈ us, IsNormal DeltaRule.standard u := by
  match h with
  | .nil => exact nofun
  | .cons hfirst hrest =>
    obtain ⟨hnot, hnots⟩ := List.forall_mem_cons.1 hnot
    exact List.forall_mem_cons.2 ⟨hfirst.isNormal hnot, hrest.isNormal hnots⟩

end

/-- A rule that was held back reduces the result, or part of it. -/
theorem HeldBack.not_isNormal (hheld : HeldBack t) (h : Normalizes DeltaRule.standard t u n) :
    ¬IsNormal DeltaRule.standard u := by
  intro hnormal
  induction hheld generalizing u n with
  | here hsteps hhead hargs hrule _ hreduced =>
    -- there is one result, and the rule reduces it
    obtain ⟨rfl, -⟩ := h.unique (.spine hsteps hargs)
    have hrespond := (step?_eq_none_cases hnormal.step?_eq_none).2 _
      (by rw [head_head_applyAll, hhead]) _ hrule
    rw [args_head_applyAll, hreduced] at hrespond
    rcases hrespond with heq | ⟨_, heq, -⟩ <;> contradiction
  | arg hsteps harg _ ih =>
    cases h with
    | spine hsteps' hargs =>
      obtain ⟨rfl, -⟩ := hsteps.unique hsteps'
      obtain ⟨arg', harg', n, hnormalizes⟩ := exists_mem_of_forall₂ hargs.forall₂.flip harg
      exact ih hnormalizes (hnormal.of_mem_args (by rwa [args_head_applyAll]))

/-- A reduction that ends does so in a normal form just if no rule was held back. -/
theorem Normalizes.isNormal_iff (h : Normalizes DeltaRule.standard t u n) :
    IsNormal DeltaRule.standard u ↔ ¬HeldBack t :=
  ⟨fun hnormal hheld => hheld.not_isNormal h hnormal, h.isNormal⟩

/-- In a closed term there is no open argument. -/
theorem not_heldBack_of_isClosed (ht : t.isClosed = true) : ¬HeldBack t := by
  intro hheld
  induction hheld with
  | here hsteps _ _ _ hopen _ =>
    obtain ⟨arg, harg, hopen⟩ := hopen
    have hclosed := isClosed_of_mem_args (isClosed_of_steps hsteps.steps ht)
      (List.mem_of_mem_take harg)
    rw [hopen] at hclosed
    contradiction
  | arg hsteps harg _ ih =>
    exact ih (isClosed_of_mem_args (isClosed_of_steps hsteps.steps ht) harg)

/-! ## Results of reduction -/

/-- What reduction returns with a limit for the number of steps or without one. -/
def Returns (rules : List DeltaRule) (mode : ReductionMode) (limit : Option Nat) (t : Term)
    (r : Reduction) : Prop :=
  match limit with
  | some limit => t.reduce rules mode limit = .ok r
  | none => t.EndsIn rules mode r

theorem Returns.endsIn {mode : ReductionMode} {limit : Option Nat} {r : Reduction}
    (h : t.Returns rules mode limit r) : t.EndsIn rules mode r := by
  cases limit with
  | some limit => exact (reduce_eq_ok_iff.1 h).1
  | none => exact h

/-- The normal forms are the terms that reduction returns without a step. -/
theorem returns_self_iff (limit : Option Nat) :
    t.Returns rules .normal limit ⟨t, 0⟩ ↔ IsNormal rules t := by
  rw [isNormal_iff_normalizes]
  refine ⟨Returns.endsIn, fun h => ?_⟩
  cases limit with
  | some limit => exact reduce_eq_ok_iff.2 ⟨h, limit.zero_le⟩
  | none => exact h

/-- If reduction in normal mode returns, then with a normal form, which is returned without a step
when it is reduced again, just if no rule was held back. In a closed term none is. -/
theorem reduce_isNormal_iff {limit : Option Nat} {r : Reduction}
    (h : t.Returns DeltaRule.standard .normal limit r) :
    (IsNormal DeltaRule.standard r.term ↔ ¬HeldBack t)
      ∧ (∀ limit', r.term.Returns DeltaRule.standard .normal limit' ⟨r.term, 0⟩ ↔ ¬HeldBack t)
      ∧ (t.isClosed = true → ¬HeldBack t) := by
  have hnormal : IsNormal DeltaRule.standard r.term ↔ ¬HeldBack t := h.endsIn.isNormal_iff
  exact ⟨hnormal, fun limit' => (returns_self_iff limit').trans hnormal, not_heldBack_of_isClosed⟩

/-- The sum in a closed pair is reduced, and nothing is left to be done. -/
theorem reduce_isNormal_iff_pair :
    let sum := (Term.primitive (.operator .plus)).applyAll [.literal (.int 1), .literal (.int 2)]
    let pair := (Term.primitive (.tuple 2)).applyAll [sum, .abs "x" (.var "x")]
    let result := (Term.primitive (.tuple 2)).applyAll [.literal (.int 3), .abs "x" (.var "x")]
    pair.Returns DeltaRule.standard .normal (some 1) ⟨result, 1⟩
      ∧ result.Returns DeltaRule.standard .normal none ⟨result, 0⟩ := by
  intro sum pair result
  have hstep : sum.step? DeltaRule.standard = some (.literal (.int 3)) := by cbv
  have hliteral : (literal (.int 3)).step? DeltaRule.standard = none := by cbv
  have hidentity : (Term.abs "x" (.var "x")).step? DeltaRule.standard = none := by cbv
  have hpair : pair.step? DeltaRule.standard = none := by cbv
  have hsum : Normalizes DeltaRule.standard sum (.literal (.int 3)) 1 :=
    .spine (.step hstep (.stop hliteral)) .nil
  have hfunction : Normalizes DeltaRule.standard (.abs "x" (.var "x")) (.abs "x" (.var "x")) 0 :=
    .spine (.stop hidentity) .nil
  have hends : pair.EndsIn DeltaRule.standard .normal ⟨result, 1⟩ :=
    Normalizes.spine (.stop hpair) (.cons hsum (.cons hfunction .nil))
  have hreturns : pair.Returns DeltaRule.standard .normal (some 1) ⟨result, 1⟩ :=
    reduce_eq_ok_iff.2 ⟨hends, Nat.le_refl 1⟩
  obtain ⟨-, hagain, hclosed⟩ := reduce_isNormal_iff hreturns
  exact ⟨hreturns, (hagain none).2 (hclosed (by decide))⟩

/-- The variable of a branch that is not selected holds back `not`, which reduces the result. -/
theorem not_isNormal_not_selected :
    let negation := Term.app (.primitive (.operator .not))
    let selection := (Term.primitive .branch).applyAll [truth true, truth true, .var "x"]
    let t := negation selection
    t.Returns DeltaRule.standard .normal none ⟨negation (truth true), 3⟩
      ∧ t.Returns DeltaRule.standard .normal (some 3) ⟨negation (truth true), 3⟩
      ∧ (negation (truth true)).step? DeltaRule.standard = some (truth false)
      ∧ ¬IsNormal DeltaRule.standard (negation (truth true)) := by
  intro negation selection t
  have hheld : t.step? DeltaRule.standard = none := by cbv
  have hselect : selection.step? DeltaRule.standard
      = some (firstOfTwo.applyAll [truth true, .var "x"]) := by cbv
  have hfirst : (firstOfTwo.applyAll [truth true, .var "x"]).step? DeltaRule.standard
      = some (.app (.abs "y" (truth true)) (.var "x")) := by cbv
  have hsecond : (Term.app (.abs "y" (truth true)) (.var "x")).step? DeltaRule.standard
      = some (truth true) := by cbv
  have htruth : (truth true).step? DeltaRule.standard = none := by cbv
  have hselected : Normalizes DeltaRule.standard selection (truth true) 3 :=
    .spine (.step hselect (.step hfirst (.step hsecond (.stop htruth)))) .nil
  have hends : t.EndsIn DeltaRule.standard .normal ⟨negation (truth true), 3⟩ :=
    Normalizes.spine (.stop hheld) (.cons hselected .nil)
  have hagain : (negation (truth true)).step? DeltaRule.standard = some (truth false) := by cbv
  refine ⟨hends, reduce_eq_ok_iff.2 ⟨hends, Nat.le_refl 3⟩, hagain, fun hnormal => ?_⟩
  rw [hnormal.step?_eq_none] at hagain
  contradiction

end Clausal.Term
