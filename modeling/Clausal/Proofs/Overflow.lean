import Clausal.Proofs.Freshness

/-!
# Overflow of the counter

A run of the compiler is aborted when its counter of fresh variables overflows. The counter only
goes up, so the supply at the end of a run tells whether that has happened anywhere in it: at the
start, past a name with the last number of the machine, or at a draw of the variable with that
number.

A run is told by the rules that fire in it. Replaying them leads to the state in which it ends, also
where it ends with an error.

## Main results

* `Trace.replay_eq`: the rules of a trace lead to its end;
* `next_le_lastState`: the counter never goes down;
* `Program.run?_eq_none_iff`: a run is aborted just if it cannot start or one of its draws overflows
  the counter;
* `Program.run?_eq_none_of_mem_names`: no run can start past the last variable of the machine.
-/

namespace Clausal

variable {options : SimplifyOptions}

/-! ## Supplies -/

namespace FreshSupply

variable {supply : FreshSupply} {names : List String}

theorem inRange_iff : supply.inRange = true ↔ supply.next < Digits.indexBound := decide_eq_true_iff

theorem checked?_eq_none_iff : supply.checked? = none ↔ Digits.indexBound ≤ supply.next := by
  rw [checked?, ite_eq_right_iff, inRange_iff, ← Nat.not_lt]
  simp

theorem eq_of_checked?_eq_some {rest : FreshSupply} (h : supply.checked? = some rest) :
    supply = rest := by
  rw [checked?, Option.ite_none_right_eq_some] at h
  exact Option.some.inj h.2

theorem past?_eq_none_iff :
    past? names = none ↔ Digits.indexBound ≤ (past names).next :=
  checked?_eq_none_iff

theorem draw?_eq_none_iff : supply.draw? = none ↔ Digits.indexBound ≤ supply.next + 1 := by
  rw [draw?, Option.map_eq_none_iff, checked?_eq_none_iff]
  rfl

theorem drawMany?_eq_none_iff {count : Nat} :
    supply.drawMany? count = none ↔ Digits.indexBound ≤ supply.next + count := by
  rw [drawMany?, Option.map_eq_none_iff, checked?_eq_none_iff]
  rfl

/-- Variables are drawn at once just if they are drawn one after the other. -/
theorem drawMany?_succ (supply : FreshSupply) (count : Nat) :
    supply.drawMany? (count + 1) = supply.draw?.bind fun (name, rest) =>
      (rest.drawMany? count).map fun (names, rest) => (name :: names, rest) := by
  by_cases h : supply.next + (count + 1) < Digits.indexBound
  -- the names are the same, and so is the number at the end
  · have hfirst : supply.next + 1 < Digits.indexBound := by omega
    have hrest : supply.next + 1 + count < Digits.indexBound := by omega
    simp only [drawMany?, draw?, checked?, inRange, draw, drawMany, h, hfirst, hrest,
      decide_true, if_true, Option.map_some, Option.bind_some, Option.some.injEq, Prod.mk.injEq]
    refine ⟨?_, congrArg FreshSupply.mk (by omega)⟩
    rw [List.range_succ_eq_map, List.map_cons, List.map_map]
    exact congrArg _ (List.map_congr_left fun i _ => congrArg nameOf (by omega))
  · rw [drawMany?_eq_none_iff.2 (Nat.not_lt.1 h), eq_comm, Option.bind_eq_none_iff]
    rintro ⟨name, rest⟩ hdraw
    obtain ⟨_, hchecked, heq⟩ := Option.map_eq_some_iff.1 hdraw
    obtain ⟨-, rfl⟩ := Prod.mk.inj heq
    rw [Option.map_eq_none_iff, drawMany?_eq_none_iff, ← eq_of_checked?_eq_some hchecked, draw]
    dsimp only
    omega

end FreshSupply

/-! ## Replays -/

theorem replay_append (rules rules' : List Rule) (state : Expr × FreshSupply) :
    replay options (rules ++ rules') state = replay options rules' (replay options rules state) :=
  List.foldl_append

/-- The rules that fire in a trace lead to its end. -/
theorem Trace.replay_eq {rules : List Rule} {state last : Expr × FreshSupply} {draws : List Draw}
    (h : Trace options rules state draws last) : replay options rules state = last := by
  induction h with
  | nil state => rfl
  | cons _ hfirst _ _ ih =>
    rw [replay, List.foldl_cons, stateAfter, hfirst]
    exact ih

theorem next_le_stateAfter (state : Expr × FreshSupply) (rule : Rule) :
    state.2.next ≤ (stateAfter options state rule).2.next := by
  rw [stateAfter]
  split
  · next state' hfirst =>
    obtain ⟨draws, htrace⟩ := Trace.of_fireFirst hfirst (.nil state')
    exact htrace.namesGrow.next_le
  · exact Nat.le_refl _

/-- The counter of fresh variables never goes down. -/
theorem next_le_replay (rules : List Rule) (state : Expr × FreshSupply) :
    state.2.next ≤ (replay options rules state).2.next := by
  induction rules generalizing state with
  | nil => exact Nat.le_refl _
  | cons rule rules ih => exact (next_le_stateAfter state rule).trans (ih _)

section Runs

variable {rules : List Rule} {pass : Pass} {supply supply' : FreshSupply} {e e' : Expr}

theorem replay_toFixpoint {after : Expr × FreshSupply}
    (h : (toFixpoint options rules supply e).result = .ok after) :
    replay options (toFixpoint options rules supply e).fired (e, supply) = after := by
  obtain ⟨draws, last, htrace, hlast⟩ := traced_toFixpoint options rules supply e
  exact htrace.replay_eq.trans (hlast after h)

/-- A pass that ends without an error hands its state on. -/
theorem lastState_cons_of_ok (passes : List Pass)
    (h : (toFixpoint options pass.rules supply e).result = .ok (e', supply')) :
    lastState options (pass :: passes) supply e = lastState options passes supply' e' := by
  rw [lastState, runPasses]
  dsimp only
  rw [h]
  dsimp only
  rw [replay_append, replay_toFixpoint h, lastState]

theorem next_le_lastState (options : SimplifyOptions) (passes : List Pass) (supply : FreshSupply)
    (e : Expr) : supply.next ≤ (lastState options passes supply e).2.next :=
  next_le_replay _ (e, supply)

end Runs

/-! ## Programs -/

namespace Program

variable {p : Program} {e : Expr}

theorem run?_eq_some_iff {result : Except CompileError Compiled} :
    p.run? options e = some result
      ↔ (p.lastSupply options e).inRange = true ∧ p.compile options e = result := by
  rw [run?]
  split
  · next h => simp [h]
  · next h => simp [h]

theorem run?_eq_none_iff_le :
    p.run? options e = none ↔ Digits.indexBound ≤ (p.lastSupply options e).next := by
  rw [run?, ite_eq_right_iff, FreshSupply.inRange_iff, ← Nat.not_lt]
  simp

/-- A run is aborted just if it cannot start past the names of the program, or if one of its draws
takes the counter out of the range of the machine. -/
theorem run?_eq_none_iff {draws : List Draw} {last : Expr × FreshSupply}
    (h : Trace options (p.elaborate options e).fired (p.enclose e, .forProgram p e) draws last) :
    p.run? options e = none
      ↔ FreshSupply.past? (p.names e) = none ∨ ∃ draw ∈ draws, draw.supply.draw? = none := by
  have hlast : p.lastSupply options e = last.2 := congrArg Prod.snd h.replay_eq
  have hnumber (number : Nat) : (∃ draw ∈ draws, draw.number = number)
      ↔ (FreshSupply.forProgram p e).next ≤ number ∧ number < last.2.next := by
    rw [← List.Ico.mem, ← h.numbers, List.mem_map]
  simp only [run?_eq_none_iff_le, hlast, FreshSupply.past?_eq_none_iff,
    FreshSupply.draw?_eq_none_iff]
  constructor
  · intro hle
    -- a run that starts in the range leaves it with the last variable that it draws
    refine or_iff_not_imp_left.2 fun hstart => ?_
    have hstart : (FreshSupply.forProgram p e).next < Digits.indexBound := Nat.not_le.1 hstart
    obtain ⟨draw, hdraw, hlast⟩ := (hnumber (last.2.next - 1)).2 (by omega)
    refine ⟨draw, hdraw, ?_⟩
    change Digits.indexBound ≤ draw.number + 1
    omega
  · rintro (hstart | ⟨draw, hdraw, hle⟩)
    · exact hstart.trans h.namesGrow.next_le
    · exact hle.trans ((hnumber draw.number).1 ⟨draw, hdraw, rfl⟩).2

/-- No run starts past the last variable that the machine can count to. -/
theorem run?_eq_none_of_mem_names (h : FreshSupply.nameOf (Digits.indexBound - 1) ∈ p.names e) :
    p.run? options e = none := by
  have hlast : Digits.indexBound - 1 < Digits.indexBound := by decide
  have hpast := FreshSupply.lt_past h (FreshSupply.number?_nameOf hlast)
  have hle : Digits.indexBound ≤ (FreshSupply.forProgram p e).next := by
    change Digits.indexBound ≤ (FreshSupply.past (p.names e)).next
    omega
  exact run?_eq_none_iff_le.2 (hle.trans (next_le_lastState ..))

end Program

end Clausal
