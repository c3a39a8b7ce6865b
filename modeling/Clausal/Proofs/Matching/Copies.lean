import Clausal.Proofs.Simplification.FreeVariables

/-!
# Copies of the failure

How often the expansion of a match copies its failure. The expansion is a context: its tests, its
binders and its success do not depend on the failure, which is put as it is into each hole. The
copies are counted beforehand, from the pattern and the scrutinee alone, and their number is that
of the holes.

The expansion follows the scrutinee that it is given, and the count one that may be missing. The
two meet because projections show no components, and a count without a scrutinee is that of a
projection.

## Main results

* `Matching.Context.holes_eq_of_fill_eq`: contexts that are filled to the same have as many holes;
* `Matching.exists_context`: the context that the expansion of a match is;
* `Matching.failureCopies_exact`: it has as many holes as copies are counted.
-/

namespace Clausal

namespace Matching

/-! ## Contexts -/

/-- A match with holes in the places of its failure. -/
inductive Context
  /-- The place of a failure. -/
  | hole
  /-- An expression that is the same with any failure. -/
  | whole (e : Expr)
  /-- A name that is bound to an expression. -/
  | bind (name : String) (scrutinee : Expr) (body : Context)
  /-- A test, with what to do if it succeeds and what to do if it fails. -/
  | test (condition : Expr) (positive negative : Context)

namespace Context

/-- The expression with a failure in every hole. -/
def fill : Context → Expr → Expr
  | hole, failure => failure
  | whole e, _ => e
  | bind name scrutinee body, failure => .app1 (.lam1 name (body.fill failure)) scrutinee
  | test condition positive negative, failure =>
    .cond condition (positive.fill failure) (negative.fill failure)

/-- The number of holes. -/
def holes : Context → Nat
  | hole => 1
  | whole _ => 0
  | bind _ _ body => body.holes
  | test _ positive negative => positive.holes + negative.holes

/-- Without a hole it does not matter what is filled in. -/
theorem fill_of_holes_eq_zero {context : Context} (h : context.holes = 0)
    (failure failure' : Expr) : context.fill failure = context.fill failure' := by
  induction context with
  | hole => contradiction
  | whole e => rfl
  | bind name scrutinee body ih => rw [fill, fill, ih h]
  | test condition positive negative ihp ihn =>
    obtain ⟨hpositive, hnegative⟩ := Nat.add_eq_zero_iff.1 h
    rw [fill, fill, ihp hpositive, ihn hnegative]

/-- The size of a filled context changes with that of the failure, once for each hole. -/
theorem sizeOf_fill (context : Context) (failure failure' : Expr) :
    sizeOf (context.fill failure) + context.holes * sizeOf failure'
      = sizeOf (context.fill failure') + context.holes * sizeOf failure := by
  induction context with
  | hole =>
    rw [fill, fill, holes]
    omega
  | whole e =>
    rw [fill, fill, holes]
    omega
  | bind name scrutinee body ih =>
    simp only [fill, holes, Expr.app1, Expr.lam1, Expr.app.sizeOf_spec, Expr.lam.sizeOf_spec]
    omega
  | test condition positive negative ihp ihn =>
    simp only [fill, holes, Expr.cond.sizeOf_spec, Nat.add_mul]
    omega

/-- Contexts that are filled to the same have as many holes. -/
theorem holes_eq_of_fill_eq {context context' : Context}
    (h : ∀ failure, context.fill failure = context'.fill failure) :
    context.holes = context'.holes := by
  -- two failures of different sizes tell how many holes there are
  have hsize := sizeOf_fill context (.tuple [.bot]) .bot
  have hsize' := sizeOf_fill context' (.tuple [.bot]) .bot
  rw [h, h] at hsize
  simp only [Expr.bot, Expr.tuple.sizeOf_spec, Expr.prim.sizeOf_spec, Primitive.bot.sizeOf_spec,
    List.cons.sizeOf_spec, List.nil.sizeOf_spec] at hsize hsize'
  omega

end Context

/-! ## Counts -/

mutual

/-- Of a scrutinee that shows no components as many copies are counted as of none. -/
theorem failureCopies_of_components?_eq_none (pattern : Pattern) {s : Expr}
    (hs : ∀ count, components? count s = none) :
    failureCopies pattern (some s) = failureCopies pattern none := by
  cases pattern with
  | var _ | wildcard | lit _ | con _ _ => rw [failureCopies, failureCopies]
  | tuple elements =>
    rw [failureCopies, failureCopies, Option.bind_some, hs, Option.bind_none]
    dsimp only
    split
    · exact failureCopiesAll_of_components?_eq_none elements (List.forall_mem_singleton.2 hs)
    · rfl

theorem failureCopiesAll_of_components?_eq_none (patterns : List Pattern) {ss : List Expr}
    (hss : ∀ s ∈ ss, ∀ count, components? count s = none) :
    failureCopiesAll patterns (ss.map some)
      = failureCopiesAll patterns (List.replicate ss.length none) := by
  match patterns, ss with
  | [], _ => rw [failureCopiesAll, failureCopiesAll] <;> exact nofun
  | _ :: _, [] => rfl
  | pattern :: patterns, s :: ss =>
    obtain ⟨hs, hss⟩ := List.forall_mem_cons.1 hss
    rw [List.map_cons, List.length_cons, List.replicate_succ, failureCopiesAll, failureCopiesAll,
      failureCopies_of_components?_eq_none pattern hs,
      failureCopiesAll_of_components?_eq_none patterns hss]

end

/-- The copies that are counted for the parts of a value, none of which shows components. -/
theorem failureCopiesAll_parts (patterns : List Pattern) {s : Expr}
    (hs : patterns.length = 1 → ∀ count, components? count s = none) :
    failureCopiesAll patterns ((parts patterns.length s).map some)
      = failureCopiesAll patterns (List.replicate patterns.length none) := by
  rw [failureCopiesAll_of_components?_eq_none patterns fun part hpart =>
    components?_of_mem_parts hs hpart, length_parts]

/-! ## Expansions -/

/-- Binding a name makes no copy. -/
theorem exists_context_bindName (name : String) (s : Expr) (success : Context) :
    ∃ context : Context, (∀ failure, context.fill failure = bindName name s (success.fill failure))
      ∧ context.holes = success.holes := by
  by_cases hs : s = .var name
  · refine ⟨success, fun failure => ?_, rfl⟩
    rw [hs, bindName, if_pos rfl]
  · refine ⟨.bind name s success, fun failure => ?_, rfl⟩
    rw [Context.fill, bindName.eq_def]
    split
    · next other =>
      have hne : other ≠ name := fun heq => hs (congrArg Expr.var heq)
      rw [if_neg hne]
    · rfl

mutual

/-- The expansion of a match is a context of its failure. It has the holes of its success, and as
many more as copies are counted. -/
theorem exists_context (pattern : Pattern) (s : Expr) (success : Context) :
    ∃ context : Context,
      (∀ failure, context.fill failure = expand pattern s (success.fill failure) failure)
        ∧ context.holes = failureCopies pattern (some s) + success.holes := by
  cases pattern with
  | var name =>
    obtain ⟨context, hfill, hholes⟩ := exists_context_bindName name s success
    refine ⟨context, fun failure => ?_, ?_⟩
    · rw [hfill, expand]
    · rw [hholes, failureCopies, Nat.zero_add]
  | wildcard =>
    refine ⟨success, fun failure => ?_, ?_⟩
    · rw [expand]
    · rw [failureCopies, Nat.zero_add]
  | lit literal =>
    refine ⟨.test (probe (.isLiteral literal) s) success .hole, fun failure => ?_, ?_⟩
    · rw [expand]
      rfl
    · rw [failureCopies, Nat.add_comm]
      rfl
  | con name args =>
    obtain ⟨matched, hfill, hholes⟩ :=
      exists_context_all args (parts args.length (probe (.argOf name) s)) success
    refine ⟨.test (probe (.isConstructor name) s) matched .hole, fun failure => ?_, ?_⟩
    · rw [Context.fill, hfill, expand]
      rfl
    -- the fields are projections, and the copies are counted for no scrutinee at all
    · rw [failureCopiesAll_parts args fun _ _ => rfl] at hholes
      rw [Context.holes, hholes, Context.holes, failureCopies]
      omega
  | tuple elements =>
    -- both the expansion and the count see the components that the scrutinee shows
    cases hcomponents : components? elements.length s with
    | some components =>
      obtain ⟨context, hfill, hholes⟩ := exists_context_all elements components success
      refine ⟨context, fun failure => ?_, ?_⟩
      · rw [hfill, expand, hcomponents]
      · rw [hholes, failureCopies, Option.bind_some, hcomponents]
    | none =>
      obtain ⟨matched, hfill, hholes⟩ :=
        exists_context_all elements (parts elements.length s) success
      by_cases hlength : elements.length = 1
      -- a tuple of one component is not tested, and its scrutinee stays what it is
      · refine ⟨matched, fun failure => ?_, ?_⟩
        · rw [hfill, expand, hcomponents]
          exact (if_pos hlength).symm
        · rw [hholes, failureCopies, Option.bind_some, hcomponents, parts, if_pos hlength]
          dsimp only
          rw [if_pos hlength]
          rfl
      · refine ⟨.test (probe (.isTuple elements.length) s) matched .hole, fun failure => ?_, ?_⟩
        · rw [Context.fill, hfill, expand, hcomponents]
          exact (if_neg hlength).symm
        · rw [failureCopiesAll_parts elements fun h => absurd h hlength] at hholes
          rw [Context.holes, hholes, Context.holes, failureCopies, Option.bind_some, hcomponents]
          dsimp only
          rw [if_neg hlength]
          omega

theorem exists_context_all (patterns : List Pattern) (ss : List Expr) (success : Context) :
    ∃ context : Context,
      (∀ failure, context.fill failure = expandAll patterns ss (success.fill failure) failure)
        ∧ context.holes = failureCopiesAll patterns (ss.map some) + success.holes := by
  match patterns, ss with
  | [], _ =>
    refine ⟨success, fun failure => (expandAll_nil_left _ _ _).symm, ?_⟩
    rw [failureCopiesAll, Nat.zero_add]
    exact nofun
  | _ :: _, [] =>
    refine ⟨success, fun failure => (expandAll_nil_right _ _ _).symm, ?_⟩
    rw [List.map_nil, failureCopiesAll, Nat.zero_add]
    exact nofun
  | pattern :: patterns, s :: ss =>
    -- the context of the later patterns is the success of the first
    obtain ⟨inner, hinner, hcount⟩ := exists_context_all patterns ss success
    obtain ⟨context, hfill, hholes⟩ := exists_context pattern s inner
    refine ⟨context, fun failure => ?_, ?_⟩
    · rw [hfill, hinner, expandAll]
    · rw [hholes, hcount, List.map_cons, failureCopiesAll, Nat.add_assoc]

end

/-- A match that copies the failure to no place is the same with any failure. -/
theorem expand_of_failureCopies_eq_zero (pattern : Pattern) {s : Expr}
    (h : failureCopies pattern (some s) = 0) (success failure failure' : Expr) :
    expand pattern s success failure = expand pattern s success failure' := by
  obtain ⟨context, hfill, hholes⟩ := exists_context pattern s (.whole success)
  have hzero : context.holes = 0 := by rw [hholes, h, Context.holes]
  exact (hfill failure).symm.trans
    ((Context.fill_of_holes_eq_zero hzero failure failure').trans (hfill failure'))

/-- Of a match without a place for the failure nothing is checked and nothing is bound. -/
theorem elaborate_of_failureCopies_eq_zero (share : Bool) (pattern : Pattern) {s : Expr}
    (h : failureCopies pattern (some s) = 0) (success failure : Expr) (supply : FreshSupply) :
    elaborate share pattern s success failure supply
      = (expand pattern s success failure, supply) := by
  rw [elaborate]
  dsimp only
  rw [h]
  rfl

/-- As many copies of the failure are counted as the expansion of a match holds: the expansion is a
context that does not depend on the failure, with the failure in each of so many holes. However the
expansion is split into such a context, the number is the same.

No copies are counted exactly when the expansion is the same with any failure. Such a match needs no
variable for its failure, which is not even looked at. -/
theorem failureCopies_exact (pattern : Pattern) (s success : Expr) :
    ∃ context : Context,
      (∀ failure, expand pattern s success failure = context.fill failure)
        ∧ context.holes = failureCopies pattern (some s)
        ∧ (∀ other : Context, (∀ failure, expand pattern s success failure = other.fill failure) →
          other.holes = failureCopies pattern (some s))
        ∧ (failureCopies pattern (some s) = 0 ↔ ∀ failure failure',
          expand pattern s success failure = expand pattern s success failure')
        ∧ (failureCopies pattern (some s) = 0 → ∀ share failure failure' supply,
          elaborate share pattern s success failure supply
            = (expand pattern s success failure', supply)) := by
  obtain ⟨context, hfill, hholes⟩ := exists_context pattern s (.whole success)
  rw [Context.holes, Nat.add_zero] at hholes
  replace hfill (failure : Expr) : expand pattern s success failure = context.fill failure :=
    (hfill failure).symm
  refine ⟨context, hfill, hholes, fun other hother => ?_, ⟨fun hzero => ?_, fun hsame => ?_⟩, ?_⟩
  · rw [← hholes]
    exact Context.holes_eq_of_fill_eq fun failure => (hother failure).symm.trans (hfill failure)
  · exact expand_of_failureCopies_eq_zero pattern hzero success
  -- an expansion that is the same with any failure is a context without a hole
  · rw [← hholes]
    have hwhole (failure : Expr) :
        context.fill failure = (Context.whole (context.fill .bot)).fill failure := by
      rw [← hfill, hsame failure .bot, hfill, Context.fill]
    exact Context.holes_eq_of_fill_eq hwhole
  · intro hzero share failure failure' supply
    rw [elaborate_of_failureCopies_eq_zero share pattern hzero,
      expand_of_failureCopies_eq_zero pattern hzero success failure failure']

/-- A tuple of one component stands for it, a tuple of none is tested unless the value shows that it
is one, and the components of a constructor's argument are tested again: three copies. -/
theorem failureCopies_exact_nested :
    let pattern : Pattern :=
      .tuple [.tuple [.con "Some" [.tuple [.var "x", .lit (.int 0)]]], .tuple []]
    let s : Expr := .tuple [.var "v", .tuple []]
    ∃ context : Context,
      (∀ failure, expand pattern s (.var "x") failure = context.fill failure)
        ∧ context.holes = 3
        ∧ ¬ ∀ failure failure',
          expand pattern s (.var "x") failure = expand pattern s (.var "x") failure' := by
  intro pattern s
  have hcopies : failureCopies pattern (some s) = 3 := by decide
  obtain ⟨context, hfill, hholes, -, hzero, -⟩ := failureCopies_exact pattern s (.var "x")
  refine ⟨context, hfill, hholes.trans hcopies, fun hsame => ?_⟩
  have hnone := hzero.2 hsame
  rw [hcopies] at hnone
  contradiction

end Matching

end Clausal
