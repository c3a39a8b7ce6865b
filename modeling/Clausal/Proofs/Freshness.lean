import Clausal.Compilation
import Clausal.Proofs.Simplification.Draws
import Clausal.Proofs.Simplification.Fixpoint

/-!
# Fresh variables are fresh

The supply of a compilation starts past every name of the program and of the expression beside it.
From there on, every fresh variable in the expression at hand was drawn before, so it has a smaller
number than the next one: a variable that a rule draws is nowhere in the expression, bound or free,
and was never drawn before.

A trace is a run with the moments at which variables are drawn. Every run has one, whether it fails
or not.

## Main results

* `Trace`: the draws of a run, rule by rule;
* `exists_trace_runPasses`: every run of passes has a trace;
* `Trace.numbers`: a trace draws the variables between the supplies at its ends, in order;
* `Trace.namesGrow_of_mem`: what is there at a draw has no fresh names but those drawn before;
* `Program.draws_fresh`: each variable is new where it is drawn, and no variable is drawn twice.
-/

namespace Clausal

variable {options : SimplifyOptions}

open Clausal.Expr

/-! ## Traces -/

/-- The draws of a sequence of rules that fire one after the other, each at the first place of the
whole expression where it can, from one state to another. The draws of a rule are made at the place
where it fires. -/
inductive Trace (options : SimplifyOptions) :
    List Rule → Expr × FreshSupply → List Draw → Expr × FreshSupply → Prop
  | nil (state : Expr × FreshSupply) : Trace options [] state [] state
  | cons {rule : Rule} {rules : List Rule} {around : Expr → Expr} {e e' : Expr}
    {supply supply' : FreshSupply} {draws : List Draw} {last : Expr × FreshSupply} :
    Context around →
    fireFirst (rule.fire options supply) (around e) = .ok (some (around e', supply')) →
    rule.fire options supply e = .ok (some (e', supply')) →
    Trace options rules (around e', supply') draws last →
    Trace options (rule :: rules) (around e, supply)
      ((rule.draws options supply e).map (.inContext around) ++ draws) last

namespace Trace

variable {rules rules' : List Rule} {state middle last : Expr × FreshSupply}
  {draws draws' : List Draw}

theorem append (h : Trace options rules state draws middle)
    (h' : Trace options rules' middle draws' last) :
    Trace options (rules ++ rules') state (draws ++ draws') last := by
  induction h with
  | nil => exact h'
  | cons haround hfirst hfire _ ih =>
    rw [List.append_assoc]
    exact .cons haround hfirst hfire (ih h')

/-- A rule that fires at the first place where it can draws its variables there. -/
theorem of_fireFirst {rule : Rule} {e : Expr} {supply : FreshSupply}
    (h : fireFirst (rule.fire options supply) e = .ok (some state))
    (htrace : Trace options rules state draws last) :
    ∃ draws, Trace options (rule :: rules) (e, supply) draws last := by
  obtain ⟨around, c, c', haround, rfl, hfire, hresult⟩ := (fireFirst_rewrites h).exists_context
  obtain ⟨e', supply'⟩ := state
  dsimp only at hfire hresult
  subst hresult
  exact ⟨_, .cons haround h hfire htrace⟩

/-- The names at the end of a trace are those at its beginning and the variables drawn. -/
theorem namesGrow (h : Trace options rules state draws last) : NamesGrow state last := by
  -- by induction on the rules that fire, each of which keeps the names around its place
  induction h with
  | nil state => exact .refl state
  | cons haround _ hfire _ ih => exact ((Rule.namesGrow_fire hfire).around haround).trans ih

/-- A trace draws every variable between the supplies at its ends once, in order. -/
theorem numbers (h : Trace options rules state draws last) :
    draws.map Draw.number = List.Ico state.2.next last.2.next := by
  induction h with
  | nil state => exact List.Ico.self_empty.symm
  | cons _ _ hfire hrest ih =>
    rw [List.map_append, numbers_inContext, Rule.numbers_draws hfire, ih]
    exact List.Ico.append_consecutive (Rule.namesGrow_fire hfire).next_le hrest.namesGrow.next_le

/-- No name comes in that is not drawn. -/
theorem mem_draws_of_mem_names (h : Trace options rules state draws last) {name : String}
    (hname : name ∈ last.1.names) : name ∈ state.1.names ∨ name ∈ draws.map Draw.name := by
  refine (h.namesGrow.named name hname).imp_right ?_
  rintro ⟨number, hle, hlt, rfl⟩
  have hnumber : number ∈ draws.map Draw.number := by
    rw [h.numbers]
    exact List.Ico.mem.2 ⟨hle, hlt⟩
  obtain ⟨draw, hdraw, rfl⟩ := List.mem_map.1 hnumber
  exact List.mem_map_of_mem hdraw

/-- The names that are there at a draw are those at the beginning of the trace and the variables
drawn before. -/
theorem namesGrow_of_mem (h : Trace options rules state draws last) {draw : Draw}
    (hdraw : draw ∈ draws) : NamesGrow state (draw.tree, draw.supply) := by
  induction h with
  | nil state => contradiction
  | cons haround _ hfire _ ih =>
    rcases List.mem_append.1 hdraw with hdraw | hdraw
    -- a draw of the first rule, made at its place
    · obtain ⟨inner, hinner, rfl⟩ := List.mem_map.1 hdraw
      exact (Rule.namesGrow_draws hinner).around haround
    -- a later draw, which comes after all that the first rule did
    · exact ((Rule.namesGrow_fire hfire).around haround).trans (ih hdraw)

/-- A variable that is drawn is nowhere in the expression, if the supply avoids the names that the
trace begins with. -/
theorem name_not_mem (h : Trace options rules state draws last)
    (havoids : state.2.Avoids (last.2.next - state.2.next) state.1.names) {draw : Draw}
    (hdraw : draw ∈ draws) : draw.name ∉ draw.tree.names := by
  have hnumber : draw.number ∈ List.Ico state.2.next last.2.next := by
    rw [← h.numbers]
    exact List.mem_map_of_mem hdraw
  obtain ⟨hle, hlt⟩ := List.Ico.mem.1 hnumber
  intro hmem
  rcases (h.namesGrow_of_mem hdraw).named _ hmem with hold | ⟨number, -, hearlier, heq⟩
  -- the name would be one that the trace begins with
  · exact havoids draw.number hle (by omega) hold
  -- the name would be that of a variable with a smaller number
  · exact absurd (FreshSupply.nameOf_inj heq) (Nat.ne_of_gt hearlier)

/-- No variable is drawn twice. -/
theorem nodup (h : Trace options rules state draws last) : (draws.map Draw.name).Nodup := by
  have hnames : draws.map Draw.name = (draws.map Draw.number).map FreshSupply.nameOf := by
    rw [List.map_map]
    rfl
  rw [hnames, h.numbers]
  exact (List.Ico.nodup _ _).map fun _ _ => FreshSupply.nameOf_inj

end Trace

/-! ## Runs have traces -/

/-- Whether a run has a trace, which ends where the run does unless the run fails. -/
def Run.Traced (options : SimplifyOptions) (state : Expr × FreshSupply) (run : Run) : Prop :=
  ∃ draws last, Trace options run.fired state draws last
    ∧ ∀ after, run.result = .ok after → last = after

theorem Run.Traced.after {run : Run} {fired : List Rule} {state middle : Expr × FreshSupply}
    {draws : List Draw} (htrace : Trace options fired state draws middle)
    (h : run.Traced options middle) : (run.after fired).Traced options state := by
  obtain ⟨draws', last, htrace', hlast⟩ := h
  exact ⟨_, last, htrace.append htrace', hlast⟩

theorem traced_round (options : SimplifyOptions) (rules : List Rule) (supply : FreshSupply)
    (e : Expr) : (round options rules supply e).Traced options (e, supply) := by
  induction rules generalizing supply e with
  | nil => exact ⟨[], (e, supply), .nil _, fun after h => Except.ok.inj h⟩
  | cons rule rules ih =>
    rw [round]
    split
    · exact ⟨[], (e, supply), .nil _, by simp⟩
    · exact ih supply e
    · next e' supply' hfire =>
      obtain ⟨draws, hfirst⟩ := Trace.of_fireFirst hfire (.nil (e', supply'))
      exact (ih supply' e').after hfirst

theorem traced_toFixpoint (options : SimplifyOptions) (rules : List Rule) (supply : FreshSupply)
    (e : Expr) : (toFixpoint options rules supply e).Traced options (e, supply) := by
  induction supply, e using toFixpoint.induct options rules with
  | case1 supply e fired error hround =>
    rw [toFixpoint_of_round_error hround, ← hround]
    exact traced_round options rules supply e
  | case2 supply e e' supply' hround =>
    rw [toFixpoint_of_round_nil hround, ← hround]
    exact traced_round options rules supply e
  | case3 supply e rule fired e' supply' hround ih =>
    have hfirst := traced_round options rules supply e
    rw [hround] at hfirst
    -- the trace of the round ends where the rest of the run begins
    obtain ⟨draws, last, htrace, hlast⟩ := hfirst
    obtain rfl := hlast _ rfl
    rw [toFixpoint_of_round_cons hround]
    exact ih.after htrace

/-- Every run of passes has a trace, which ends at the result unless the run fails. -/
theorem exists_trace_runPasses (options : SimplifyOptions) (passes : List Pass)
    (supply : FreshSupply) (e : Expr) :
    ∃ draws last, Trace options (runPasses options passes supply e).fired (e, supply) draws last
      ∧ ∀ e', (runPasses options passes supply e).result = .ok e' → last.1 = e' := by
  induction passes generalizing supply e with
  | nil => exact ⟨[], (e, supply), .nil _, fun e' h => Except.ok.inj h⟩
  | cons pass passes ih =>
    obtain ⟨draws, middle, htrace, hmiddle⟩ := traced_toFixpoint options pass.rules supply e
    rw [runPasses]
    dsimp only
    split
    -- the pass fails, and with it the run
    · exact ⟨draws, middle, htrace, fun e' h => nomatch h⟩
    · next e₁ supply₁ hresult =>
      obtain rfl := hmiddle _ hresult
      obtain ⟨draws', last, htrace', hlast⟩ := ih supply₁ e₁
      exact ⟨_, last, htrace.append htrace', hlast⟩

/-! ## Programs -/

namespace Program

variable {p : Program} {e : Expr}

/-- The block of a program has no names but those of the program and of the expression. -/
theorem names_enclose_subset (p : Program) (e : Expr) : (p.enclose e).names ⊆ p.names e := by
  rw [enclose, names]
  split
  · exact List.subset_append_right _ _
  · rw [Expr.names, namesDecls_valueDecls]
    exact List.Subset.refl _

/-- The supply of a program avoids the names that simplification starts with. -/
theorem avoids_forProgram {count : Nat}
    (h : (FreshSupply.forProgram p e).next + count ≤ Digits.indexBound) :
    (FreshSupply.forProgram p e).Avoids count (p.enclose e).names :=
  (FreshSupply.avoids_of_past (Nat.le_refl _) h).mono (names_enclose_subset p e)

/-- Fresh variables are fresh throughout a run. Every run of a program with an expression has a
trace. In a trace, the variables drawn are those from the first one on, in order, and no other name
comes in; each of them is nowhere in the expression at the moment when it is drawn, bound or free,
what the rule at work has taken out included; and no two of them are the same.

The numbers of the fresh variables have to stay in the machine's range, past which the counter of
fresh variables does not go. -/
theorem draws_fresh (options : SimplifyOptions) (p : Program) (e : Expr) :
    (∃ draws last, Trace options (p.elaborate options e).fired
        (p.enclose e, .forProgram p e) draws last
      ∧ ∀ e', (p.elaborate options e).result = .ok e' → last.1 = e')
    ∧ ∀ rules draws last, Trace options rules (p.enclose e, .forProgram p e) draws last →
      last.2.next ≤ Digits.indexBound →
      draws.map Draw.number = List.Ico (FreshSupply.forProgram p e).next last.2.next
        ∧ (∀ name ∈ last.1.names, name ∈ (p.enclose e).names ∨ name ∈ draws.map Draw.name)
        ∧ (∀ draw ∈ draws, draw.name ∉ draw.tree.names)
        ∧ (draws.map Draw.name).Nodup := by
  refine ⟨exists_trace_runPasses options Pass.all _ _, fun rules draws last htrace hrange => ?_⟩
  have hle : (FreshSupply.forProgram p e).next ≤ last.2.next := htrace.namesGrow.next_le
  have havoids : (FreshSupply.forProgram p e).Avoids
      (last.2.next - (FreshSupply.forProgram p e).next) (p.enclose e).names :=
    avoids_forProgram (by omega)
  exact ⟨htrace.numbers, fun name hname => htrace.mem_draws_of_mem_names hname,
    fun draw hdraw => htrace.name_not_mem havoids hdraw, htrace.nodup⟩

/-- A case of `f x0` with a failure that is needed twice: `Pair 0 _ -> y` and `_ -> g y`. -/
def caseOfCall : Expr :=
  .caseOf (.app1 (.var "f") (.var "x0"))
    [⟨.con "Pair" [.lit (.int 0), .wildcard], .var "y"⟩,
      ⟨.wildcard, .app1 (.var "g") (.var "y")⟩]

/-- The scrutinee is bound to `x1` and the failure to `x2`, since `x0` is taken. -/
theorem draws_fresh_caseOfCall :
    ∃ draws last, Trace ⟨.validate, true⟩ [.caseElimination]
        ((⟨[]⟩ : Program).enclose caseOfCall, .forProgram ⟨[]⟩ caseOfCall) draws last
      ∧ draws.map Draw.number = [1, 2]
      ∧ (∀ draw ∈ draws, draw.name ∉ draw.tree.names)
      ∧ (draws.map Draw.name).Nodup := by
  have hstart : FreshSupply.forProgram ⟨[]⟩ caseOfCall = ⟨1⟩ :=
    congrArg FreshSupply.mk (by decide +kernel)
  obtain ⟨e', hfire⟩ : ∃ e', Rule.caseElimination.fire ⟨.validate, true⟩ ⟨1⟩ caseOfCall
      = .ok (some (e', ⟨3⟩)) := ⟨_, rfl⟩
  have hfirst : fireFirst (Rule.caseElimination.fire ⟨.validate, true⟩ ⟨1⟩) caseOfCall
      = .ok (some (e', ⟨3⟩)) := by
    rw [fireFirst_eq, hfire, Attempt.some_orElse]
  have htrace := Trace.cons .hole hfirst hfire (.nil _)
  rw [← hstart] at htrace
  obtain ⟨hnumbers, -, hfresh, hnodup⟩ :=
    (draws_fresh ⟨.validate, true⟩ ⟨[]⟩ caseOfCall).2 _ _ _ htrace
      (show 3 ≤ Digits.indexBound by decide)
  rw [hstart] at hnumbers
  exact ⟨_, _, htrace, hnumbers, hfresh, hnodup⟩

end Program

end Clausal
