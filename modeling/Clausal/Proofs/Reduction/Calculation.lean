import Clausal.Proofs.Reduction.Laziness
import Clausal.Proofs.Reduction.NormalForms

/-!
# Calculations

Operators with two operands, on literals and on the results of one another. The operands are
reduced in their places, the left one first, and the right one only if the left one has become a
literal that does not decide the result alone. Where an operator has no result for its operands,
everything that is still to be calculated stays as it is.

An operator on integers wraps around, a quotient as well as a product, and the two undo each other
all the same: what a quotient times the divisor misses is the remainder, for every divisor but zero.

## Main results

* `Term.StepsTo.operation_left`, `Term.StepsTo.operation_right`: an operand is reduced in its place;
* `Calculation.stepsTo_run`: reduction makes the steps of a calculation, and ends where it does;
* `div_mul_add_mod`: quotient and remainder make up the dividend, also where the quotient wraps;
* `Term.reduce_recombination`: so they do when they are reduced, and a division by zero is left.
-/

namespace Clausal

namespace Term

variable {op : Operator} {l l' r r' u : Term} {n m : Nat}

/-- An operator on two operands. -/
def operation (op : Operator) (left right : Term) : Term :=
  (Term.primitive (.operator op)).applyAll [left, right]

/-! ## Steps of an operation -/

theorem isClosed_operation (op : Operator) (hl : l.isClosed = true) (hr : r.isClosed = true) :
    (operation op l r).isClosed = true := by
  rw [isClosed_iff] at *
  simpa [operation, primitive, free] using fun name => ⟨hl name, hr name⟩

/-- Beta steps of an operation are those of its operands, the left one first. -/
theorem betaStep?_operation (op : Operator) (l r : Term) : (operation op l r).betaStep?
    = ((l.betaStep?.map fun l' => operation op l' r) <|>
      r.betaStep?.map fun r' => operation op l r') := by
  simp only [operation, applyAll_cons, applyAll_nil, primitive, betaStep?]
  cases l.betaStep? <;> rfl

/-- Without beta steps, the rule for operators on two operands decides. -/
theorem step?_operation (hop : op.arity = 2) (hl : l.isClosed = true) (hr : r.isClosed = true)
    (hbeta : (operation op l r).betaStep? = none) :
    (operation op l r).step? DeltaRule.standard = match DeltaRule.applyBinary op [l, r] with
      | .reduced result => some result
      | .declined => none
      | .needsArgument i => [l, r][i]?.bind fun arg =>
        (arg.step? DeltaRule.standard).map fun arg' =>
          (Term.primitive (.operator op)).applyAll ([l, r].set i arg') := by
  have hrule : DeltaRule.binaryOperators ∈ DeltaRule.standard := by decide
  have hargs : (operation op l r).args = [l, r] := rfl
  -- no other rule is about an operator on two operands
  have haccepts (rule : DeltaRule) (hne : rule ≠ .binaryOperators) :
      rule.accepts (.primitive (.operator op)) = false := by
    cases rule with
    | binaryOperators => contradiction
    | unaryOperators => simp [DeltaRule.accepts, hop]
    | _ => rfl
  have hother (rule : DeltaRule) (hne : rule ≠ .binaryOperators) :
      rule.respond (.primitive (.operator op)) [l, r] = .declined := by
    rw [DeltaRule.respond, haccepts rule hne]
    rfl
  have hrespond : DeltaRule.binaryOperators.respond (.primitive (.operator op)) [l, r]
      = DeltaRule.applyBinary op [l, r] := by
    have happly : DeltaRule.binaryOperators.apply (.primitive (.operator op))
        ([l, r].take DeltaRule.binaryOperators.arity) = DeltaRule.applyBinary op [l, r] := rfl
    rw [DeltaRule.respond, if_pos, happly]
    · cases DeltaRule.applyBinary op [l, r] <;> rfl
    · simp [DeltaRule.accepts, DeltaRule.arity, hop, hl, hr]
  rw [step?_eq_of_rule hbeta rfl hrule fun rule _ => hother rule, hargs, hrespond]
  cases DeltaRule.applyBinary op [l, r] <;> rfl

/-- The left operand steps first. -/
theorem step?_operation_left (hop : op.arity = 2) (hl : l.isClosed = true)
    (hr : r.isClosed = true) (hbeta : r.betaStep? = none)
    (hstep : l.step? DeltaRule.standard = some l') :
    (operation op l r).step? DeltaRule.standard = some (operation op l' r) := by
  rcases betaStep?_or_pending hstep with hleft | ⟨hleft, hpending⟩
  · refine step?_of_betaStep? ?_
    rw [betaStep?_operation, hleft]
    rfl
  · have hnormal : (operation op l r).betaStep? = none := by
      rw [betaStep?_operation, hleft, hbeta]
      rfl
    have happly : DeltaRule.applyBinary op [l, r] = .needsArgument 0 := by
      rw [DeltaRule.applyBinary, withLiteral, List.getElem?_cons_zero, Option.map_some, hpending]
    rw [step?_operation hop hl hr hnormal, happly]
    dsimp only
    rw [List.getElem?_cons_zero, Option.bind_some, hstep]
    rfl

/-- What the operator makes of its operands if the left one is a literal. -/
theorem applyBinary_literal (op : Operator) (a : Literal) (r : Term) :
    DeltaRule.applyBinary op [.literal a, r] = match op.shortcut? a with
      | some value => .truth value
      | none => withLiteral [.literal a, r] 1 fun b => match op.evaluate? a b with
        | some result => .reduced (.literal result)
        | none => .declined :=
  rfl

/-- The right operand steps once the left one is a literal that does not decide the result. -/
theorem step?_operation_right {a : Literal} (hop : op.arity = 2) (hshort : op.shortcut? a = none)
    (hr : r.isClosed = true) (hstep : r.step? DeltaRule.standard = some r') :
    (operation op (.literal a) r).step? DeltaRule.standard
      = some (operation op (.literal a) r') := by
  rcases betaStep?_or_pending hstep with hright | ⟨hright, hpending⟩
  · refine step?_of_betaStep? ?_
    rw [betaStep?_operation, hright]
    rfl
  · have hnormal : (operation op (.literal a) r).betaStep? = none := by
      rw [betaStep?_operation, hright]
      rfl
    have happly : DeltaRule.applyBinary op [.literal a, r] = .needsArgument 1 := by
      rw [applyBinary_literal, hshort]
      dsimp only
      rw [withLiteral, List.getElem?_cons_succ, List.getElem?_cons_zero, Option.map_some, hpending]
    rw [step?_operation hop rfl hr hnormal, happly]
    dsimp only
    rw [List.getElem?_cons_succ, List.getElem?_cons_zero, Option.bind_some, hstep]
    rfl

/-- A left operand may decide the result, whatever the right one is. -/
theorem step?_operation_shortcut {a : Literal} {value : Bool} (hop : op.arity = 2)
    (hshort : op.shortcut? a = some value) (hr : r.isClosed = true) (hbeta : r.betaStep? = none) :
    (operation op (.literal a) r).step? DeltaRule.standard = some (.literal (.bool value)) := by
  have hnormal : (operation op (.literal a) r).betaStep? = none := by
    rw [betaStep?_operation, hbeta]
    rfl
  rw [step?_operation hop rfl hr hnormal, applyBinary_literal, hshort]
  rfl

/-- Two literals are evaluated, and stay if there is no result for them. -/
theorem step?_operation_literals {a : Literal} (hop : op.arity = 2)
    (hshort : op.shortcut? a = none) (b : Literal) :
    (operation op (.literal a) (.literal b)).step? DeltaRule.standard
      = (op.evaluate? a b).map .literal := by
  rw [step?_operation hop rfl rfl rfl, applyBinary_literal, hshort]
  cases hevaluate : op.evaluate? a b with
  | some result => simp [withLiteral, Term.literal, shape, head, args, Constant.shape, hevaluate]
  | none => simp [withLiteral, Term.literal, shape, head, args, Constant.shape, hevaluate]

/-- A left operand that is neither a literal nor has a step leaves everything as it is. -/
theorem step?_operation_stuck_left (hop : op.arity = 2) (hl : l.isClosed = true)
    (hr : r.isClosed = true) (hbeta : r.betaStep? = none)
    (hstuck : l.step? DeltaRule.standard = none) (hliteral : ∀ a, l ≠ .literal a) :
    (operation op l r).step? DeltaRule.standard = none := by
  have hnormal : (operation op l r).betaStep? = none := by
    rw [betaStep?_operation, (step?_eq_none_cases hstuck).1, hbeta]
    rfl
  rw [step?_operation hop hl hr hnormal, DeltaRule.applyBinary, withLiteral,
    List.getElem?_cons_zero, Option.map_some]
  cases hshape : l.shape with
  | literal a => exact absurd (eq_of_shape_eq_literal hshape) (hliteral a)
  | pending =>
    dsimp only
    rw [List.getElem?_cons_zero, Option.bind_some, hstuck]
    rfl
  | tuple _ _ | data _ _ | function => rfl

/-- So does a right operand, if its value is needed. -/
theorem step?_operation_stuck_right {a : Literal} (hop : op.arity = 2)
    (hshort : op.shortcut? a = none) (hr : r.isClosed = true)
    (hstuck : r.step? DeltaRule.standard = none) (hliteral : ∀ b, r ≠ .literal b) :
    (operation op (.literal a) r).step? DeltaRule.standard = none := by
  have hnormal : (operation op (.literal a) r).betaStep? = none := by
    rw [betaStep?_operation, (step?_eq_none_cases hstuck).1]
    rfl
  rw [step?_operation hop rfl hr hnormal, applyBinary_literal, hshort]
  dsimp only
  rw [withLiteral, List.getElem?_cons_succ, List.getElem?_cons_zero, Option.map_some]
  cases hshape : r.shape with
  | literal b => exact absurd (eq_of_shape_eq_literal hshape) (hliteral b)
  | pending =>
    dsimp only
    rw [List.getElem?_cons_succ, List.getElem?_cons_zero, Option.bind_some, hstuck]
    rfl
  | tuple _ _ | data _ _ | function => rfl

/-! ## Runs of an operation -/

/-- The left operand is reduced in its place. -/
theorem StepsTo.operation_left (hop : op.arity = 2) (hl : l.isClosed = true)
    (hr : r.isClosed = true) (hbeta : r.betaStep? = none)
    (hleft : StepsTo DeltaRule.standard l l' n)
    (hrest : StepsTo DeltaRule.standard (operation op l' r) u m) :
    StepsTo DeltaRule.standard (operation op l r) u (n + m) := by
  induction hleft with
  | stop _ => rwa [Nat.zero_add]
  | step hstep _ ih =>
    rw [Nat.add_right_comm]
    exact .step (step?_operation_left hop hl hr hbeta hstep)
      (ih ((contracts_of_step? hstep).isClosed hl) hrest)

/-- The right operand is reduced in its place once the left one is a literal. -/
theorem StepsTo.operation_right {a : Literal} (hop : op.arity = 2)
    (hshort : op.shortcut? a = none) (hr : r.isClosed = true)
    (hright : StepsTo DeltaRule.standard r r' n)
    (hrest : StepsTo DeltaRule.standard (operation op (.literal a) r') u m) :
    StepsTo DeltaRule.standard (operation op (.literal a) r) u (n + m) := by
  induction hright with
  | stop _ => rwa [Nat.zero_add]
  | step hstep _ ih =>
    rw [Nat.add_right_comm]
    exact .step (step?_operation_right hop hshort hr hstep)
      (ih ((contracts_of_step? hstep).isClosed hr) hrest)

end Term

open Term (operation StepsTo)

/-! ## Calculations -/

/-- Operators with two operands, on literals and on the results of one another. -/
inductive Calculation
  | literal (value : Literal)
  | binary (op : Operator) (hop : op.arity = 2) (left right : Calculation)

namespace Calculation

/-- The term to reduce. -/
def term : Calculation → Term
  | literal value => .literal value
  | binary op _ left right => operation op left.term right.term

/-- What a calculation ends in. -/
inductive Ending
  /-- The result. -/
  | value (result : Literal)
  /-- An operation without a result, or one for an operand without a result. -/
  | stuck (op : Operator) (left right : Term)

/-- The term that reduction ends in. -/
def Ending.term : Ending → Term
  | value result => .literal result
  | stuck op left right => operation op left right

/-- What a calculation ends in, and after how many steps. -/
def run : Calculation → Ending × Nat
  | literal value => (.value value, 0)
  | binary op _ left right =>
    match left.run with
    | (.stuck op' l r, n) => (.stuck op (operation op' l r) right.term, n)
    | (.value a, n) =>
      match op.shortcut? a with
      | some value => (.value (.bool value), n + 1)
      | none =>
        match right.run with
        | (.stuck op' l r, m) => (.stuck op (.literal a) (operation op' l r), n + m)
        | (.value b, m) =>
          match op.evaluate? a b with
          | some result => (.value result, n + (m + 1))
          | none => (.stuck op (.literal a) (.literal b), n + m)

theorem isClosed_term (c : Calculation) : c.term.isClosed = true := by
  induction c with
  | literal value => rfl
  | binary op _ _ _ ihl ihr => exact Term.isClosed_operation op ihl ihr

theorem betaStep?_term (c : Calculation) : c.term.betaStep? = none := by
  induction c with
  | literal value => rfl
  | binary op _ _ _ ihl ihr =>
    rw [term, Term.betaStep?_operation, ihl, ihr]
    rfl

/-- Reduction makes the steps of a calculation, and ends where it does. -/
theorem stepsTo_run (c : Calculation) :
    StepsTo DeltaRule.standard c.term c.run.1.term c.run.2 := by
  induction c with
  | literal value => exact .stop (Term.step?_literal _ value)
  | binary op hop left right ihl ihr =>
    have hr := right.isClosed_term
    have hbeta := right.betaStep?_term
    have hoperands {u : Term} {m : Nat} (hrest : StepsTo DeltaRule.standard
        (operation op left.run.1.term right.term) u m) :
        StepsTo DeltaRule.standard (operation op left.term right.term) u (left.run.2 + m) :=
      ihl.operation_left hop left.isClosed_term hr hbeta hrest
    have hclosed {c : Calculation} {t : Term} {n : Nat}
        (h : StepsTo DeltaRule.standard c.term t n) : t.isClosed = true :=
      Term.isClosed_of_steps h.steps c.isClosed_term
    have hstuck {op' : Operator} {l r : Term} (a : Literal) : operation op' l r ≠ .literal a :=
      Term.noConfusion
    rw [run, term]
    split
    -- the left operand is stuck, and the right one is left as it is
    · next op' l r n hrun =>
      rw [hrun] at ihl hoperands
      exact hoperands (.stop (Term.step?_operation_stuck_left hop (hclosed ihl) hr hbeta
        ihl.step?_eq_none hstuck))
    · next a n hrun =>
      rw [hrun] at hoperands
      dsimp only [Ending.term] at hoperands
      split
      -- the left operand decides alone
      · next value hshort =>
        exact hoperands (.step (Term.step?_operation_shortcut hop hshort hr hbeta)
          (.stop (Term.step?_literal _ _)))
      · next hshort =>
        split
        -- the right operand is stuck behind a literal
        · next op' l r m hrun' =>
          rw [hrun'] at ihr
          exact hoperands (ihr.operation_right hop hshort hr (.stop
            (Term.step?_operation_stuck_right hop hshort (hclosed ihr) ihr.step?_eq_none hstuck)))
        -- both operands are literals
        · next b m hrun' =>
          rw [hrun'] at ihr
          have hliterals := Term.step?_operation_literals hop hshort b
          split
          · next result hevaluate =>
            rw [hevaluate] at hliterals
            exact hoperands (ihr.operation_right hop hshort hr
              (.step hliterals (.stop (Term.step?_literal _ _))))
          · next hevaluate =>
            rw [hevaluate] at hliterals
            exact hoperands (ihr.operation_right hop hshort hr (.stop hliterals))

/-- Reduction within a limit, if there are not too many steps to make. -/
theorem reduce_term (c : Calculation) (limit : Nat) (h : c.run.2 ≤ limit) :
    c.term.reduce DeltaRule.standard .weak limit = .ok ⟨c.run.1.term, c.run.2⟩ :=
  Term.reduce_eq_ok_iff.2 ⟨c.stepsTo_run, h⟩

end Calculation

/-! ## Quotient and remainder -/

/-- The quotient times the divisor, and the remainder. The quotient of the least integer by `-1`
wraps around, and so does its product with `-1`. -/
theorem div_mul_add_mod (a b : Int64) : a / b * b + a % b = a := by
  have h : a.toInt.tdiv b.toInt * b.toInt + a.toInt.tmod b.toInt = a.toInt := by
    rw [Int.mul_comm, Int.mul_tdiv_add_tmod]
  rw [← Int64.toInt_inj, Int64.toInt_add, Int64.toInt_mul, Int64.toInt_div, Int64.toInt_mod,
    Int.bmod_mul_bmod, Int.bmod_add_bmod, h, Int64.toInt_bmod]

/-- A remainder is smaller than the divisor. -/
theorem natAbs_mod_lt (a : Int64) {b : Int64} (hb : b ≠ 0) :
    (a % b).toInt.natAbs < b.toInt.natAbs := by
  have hpos : 0 < b.toInt.natAbs := Int.natAbs_pos.2 fun h => hb (Int64.toInt_inj.1 h)
  rw [Int64.toInt_mod, Int.natAbs_tmod]
  exact Nat.mod_lt _ hpos

/-- A remainder has the sign of the dividend. -/
theorem mod_eq_zero_or_sign_eq (a b : Int64) : a % b = 0 ∨ (a % b).toInt.sign = a.toInt.sign := by
  rw [← Int64.toInt_inj, Int64.toInt_mod, Int.sign_tmod]
  by_cases h : b.toInt ∣ a.toInt
  · exact .inl (Int.tmod_eq_zero_of_dvd h)
  · exact .inr (if_neg h)

/-- The quotient times the divisor, plus the remainder. -/
def Term.recombination (a b : Int64) : Term :=
  operation .plus
    (operation .mult (operation .div (literal (.int a)) (literal (.int b))) (literal (.int b)))
    (operation .mod (literal (.int a)) (literal (.int b)))

namespace Calculation

/-- The quotient times the divisor, plus the remainder, as a calculation. -/
def recombination (a b : Int64) : Calculation :=
  have quotient := binary .div rfl (literal (.int a)) (literal (.int b))
  have remainder := binary .mod rfl (literal (.int a)) (literal (.int b))
  binary .plus rfl (binary .mult rfl quotient (literal (.int b))) remainder

theorem term_recombination (a b : Int64) : (recombination a b).term = .recombination a b := rfl

theorem run_recombination (a : Int64) {b : Int64} (hb : b ≠ 0) :
    (recombination a b).run = (.value (.int a), 4) := by
  simp [recombination, run, Operator.shortcut?, Operator.evaluate?, Operator.onInts?, hb,
    div_mul_add_mod]

theorem run_recombination_zero (a : Int64) :
    (recombination a 0).run.1.term = .recombination a 0 ∧ (recombination a 0).run.2 = 0 := by
  simp [recombination, run, term, Ending.term, Term.recombination, Operator.shortcut?,
    Operator.evaluate?, Operator.onInts?, Operator.compare?]

end Calculation

namespace Term

/-- A quotient times its divisor, plus the remainder, is reduced to the dividend, also where the
quotient wraps around. The remainder is smaller than the divisor, and is zero or has the sign of the
dividend. For the divisor zero nothing is reduced. -/
theorem reduce_recombination (a b : Int64) :
    (b ≠ 0 →
      (∀ limit, 4 ≤ limit →
        (recombination a b).reduce DeltaRule.standard .weak limit = .ok ⟨literal (.int a), 4⟩)
      ∧ ∃ r : Int64,
        (∀ limit, 1 ≤ limit →
          (operation .mod (literal (.int a)) (literal (.int b))).reduce DeltaRule.standard .weak
            limit = .ok ⟨literal (.int r), 1⟩)
        ∧ r.toInt.natAbs < b.toInt.natAbs ∧ (r = 0 ∨ r.toInt.sign = a.toInt.sign))
    ∧ (b = 0 → ∀ limit,
      (recombination a b).reduce DeltaRule.standard .weak limit = .ok ⟨recombination a b, 0⟩) := by
  refine ⟨fun hb => ⟨fun limit hlimit => ?_, a % b, fun limit hlimit => ?_, natAbs_mod_lt a hb,
    mod_eq_zero_or_sign_eq a b⟩, fun hb limit => ?_⟩
  · have hrun := Calculation.run_recombination a hb
    have hreduce := (Calculation.recombination a b).reduce_term limit (by rwa [hrun])
    rwa [hrun, Calculation.term_recombination] at hreduce
  · let remainder : Calculation := .binary .mod rfl (.literal (.int a)) (.literal (.int b))
    have hrun : remainder.run = (.value (.int (a % b)), 1) := by
      simp [remainder, Calculation.run, Operator.shortcut?, Operator.evaluate?,
        Operator.onInts?, hb]
    have hreduce := remainder.reduce_term limit (by rwa [hrun])
    rwa [hrun] at hreduce
  · subst hb
    obtain ⟨hterm, hsteps⟩ := Calculation.run_recombination_zero a
    have hreduce := (Calculation.recombination a 0).reduce_term limit (hsteps ▸ limit.zero_le)
    rwa [hsteps, hterm, Calculation.term_recombination] at hreduce

/-- The least integer divided by `-1` is itself. -/
theorem reduce_recombination_least :
    let least := Int64.minValue
    least / -1 = least
      ∧ (recombination least (-1)).reduce DeltaRule.standard .weak 4
        = .ok ⟨literal (.int least), 4⟩
      ∧ (recombination least 0).reduce DeltaRule.standard .weak 4
        = .ok ⟨recombination least 0, 0⟩ := by
  intro least
  obtain ⟨hwrapped, -⟩ := reduce_recombination least (-1)
  obtain ⟨-, hzero⟩ := reduce_recombination least 0
  exact ⟨Int64.minValue_div_neg_one, (hwrapped (by decide)).1 4 (by decide), hzero rfl 4⟩

end Term

end Clausal
