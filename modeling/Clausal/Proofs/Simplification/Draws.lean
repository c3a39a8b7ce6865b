import Clausal.Proofs.Simplification.Names

/-!
# Draws of fresh variables

Where a rule draws variables from the supply, and what the expression looks like at that moment. A
rule takes an expression apart before it makes another of the parts, so the moment of a draw has an
expression of its own: it holds everything that is still there, the parts that the rule has taken
out included.

All rules but case elimination draw their variables before they make anything of the parts. Case
elimination makes a chain of matches of the arms, the last arm first, and may draw a variable for
each arm, with the chain of the later arms at hand.

## Main results

* `Rule.draws`: the draws of a rule;
* `Rule.numbers_draws`: these are all variables between the supplies before and after, in order;
* `Rule.namesGrow_draws`: what is there at a draw has no fresh names but those drawn before.
-/

namespace Clausal

open Clausal.Expr

/-- The moment at which a variable is drawn. -/
structure Draw where
  /-- The expression at that moment, with what the rule at work has taken out of it. -/
  tree : Expr
  /-- The supply from which the variable is drawn. -/
  supply : FreshSupply

namespace Draw

/-- The variable that is drawn. -/
def name (draw : Draw) : String := draw.supply.draw.1

/-- The number of the variable that is drawn. -/
def number (draw : Draw) : Nat := draw.supply.next

/-- A draw at a place of an expression. -/
def inContext (around : Expr → Expr) (draw : Draw) : Draw := { draw with tree := around draw.tree }

end Draw

variable {supply supply' : FreshSupply} {tree e e' : Expr} {draw : Draw}

/-- The draws of all variables between two supplies, one after the other at the same expression. -/
def drawsAt (tree : Expr) (supply supply' : FreshSupply) : List Draw :=
  (List.Ico supply.next supply'.next).map fun number => ⟨tree, ⟨number⟩⟩

theorem numbers_drawsAt (tree : Expr) (supply supply' : FreshSupply) :
    (drawsAt tree supply supply').map Draw.number = List.Ico supply.next supply'.next := by
  simp [drawsAt, Draw.number, Function.comp_def]

theorem namesGrow_drawsAt (h : draw ∈ drawsAt tree supply supply') :
    NamesGrow (tree, supply) (draw.tree, draw.supply) := by
  obtain ⟨number, hnumber, rfl⟩ := List.mem_map.1 h
  exact ⟨(List.Ico.mem.1 hnumber).1, fun _ hname => .inl hname⟩

theorem numbers_inContext (around : Expr → Expr) (draws : List Draw) :
    (draws.map (Draw.inContext around)).map Draw.number = draws.map Draw.number := by
  rw [List.map_map]
  rfl

/-! ## Cases -/

/-- The draws of a chain of matches. When a variable is drawn for an arm, the arms before it are
still there, and those after it have become the failure, which stands behind a wildcard here. -/
def chainDraws (share : Bool) (scrutinee : Expr) (supply : FreshSupply) (before : List (Arm Expr)) :
    List (Arm Expr) → List Draw
  | [] => []
  | arm :: arms =>
    let (failure, supply') := matchChain share scrutinee supply arms
    chainDraws share scrutinee supply (before ++ [arm]) arms
      ++ drawsAt (.caseOf scrutinee (before ++ [arm, ⟨.wildcard, failure⟩])) supply'
        (Matching.elaborate share arm.pattern scrutinee arm.body failure supply').2

/-- The draws of case elimination: for a scrutinee that is bound, and then for the chain. -/
def caseDraws (share : Bool) (scrutinee : Expr) (supply : FreshSupply) (arms : List (Arm Expr)) :
    List Draw :=
  if isCopyable arms scrutinee then chainDraws share scrutinee supply [] arms
  else
    let (name, supply') := supply.draw
    drawsAt (.caseOf scrutinee arms) supply supply'
      ++ (chainDraws share (.var name) supply' [] arms).map
        (.inContext fun tree => .app1 (.lam1 name tree) scrutinee)

section

variable {share : Bool} {scrutinee : Expr} {arms : List (Arm Expr)}

theorem numbers_chainDraws (before : List (Arm Expr)) :
    (chainDraws share scrutinee supply before arms).map Draw.number
      = List.Ico supply.next (matchChain share scrutinee supply arms).2.next := by
  induction arms generalizing before with
  | nil => exact List.Ico.self_empty.symm
  | cons arm arms ih =>
    -- the later arms draw before this one
    rw [chainDraws, List.map_append, numbers_drawsAt, ih, matchChain_cons]
    exact List.Ico.append_consecutive (next_le_matchChain ..) (Matching.next_le_elaborate ..)

/-- The variables drawn for the later arms are all that is new when a variable is drawn for an
arm. -/
theorem namesGrow_chainDraws {before : List (Arm Expr)}
    (h : draw ∈ chainDraws share scrutinee supply before arms) :
    NamesGrow (.caseOf scrutinee (before ++ arms), supply) (draw.tree, draw.supply) := by
  induction arms generalizing before with
  | nil => contradiction
  | cons arm arms ih =>
    rw [chainDraws] at h
    rcases List.mem_append.1 h with h | h
    -- for a later arm, this one is among those before
    · simpa using ih h
    -- for this arm, the chain of the later ones has their names and those drawn for them
    · refine NamesGrow.trans (.of_named (next_le_matchChain ..) fun P he hdrawn => ?_)
        (namesGrow_drawsAt h)
      rw [named_caseOf, List.forall_mem_append, List.forall_mem_cons] at he ⊢
      obtain ⟨hscrutinee, hbefore, harm, harms⟩ := he
      refine ⟨hscrutinee, hbefore, harm, List.forall_mem_singleton.2 ⟨?_, ?_⟩⟩
      · exact List.forall_mem_nil _
      · exact named_matchChain hscrutinee harms hdrawn

/-- The body of a function of one variable that is applied to an argument. -/
theorem context_app1_lam1 (name : String) (arg : Expr) :
    Context fun tree => app1 (lam1 name tree) arg := by
  have hbody : (lam1 name arg).children = [] ++ arg :: [] := rfl
  have hfunc : (app1 (lam1 name arg) arg).children = [] ++ lam1 name arg :: [arg] := rfl
  exact .child hfunc (.child hbody .hole)

theorem numbers_caseDraws {result : Expr × FreshSupply}
    (h : expandCase? share supply (.caseOf scrutinee arms) = some result) :
    (caseDraws share scrutinee supply arms).map Draw.number
      = List.Ico supply.next result.2.next := by
  rw [expandCase?] at h
  rw [caseDraws]
  split at h
  · next hcopied =>
    rw [if_pos hcopied, ← Option.some.inj h]
    exact numbers_chainDraws []
  · next hcopied =>
    rw [if_neg hcopied, ← Option.some.inj h]
    dsimp only
    rw [List.map_append, numbers_drawsAt, numbers_inContext, numbers_chainDraws]
    exact List.Ico.append_consecutive (Nat.le_succ _) (next_le_matchChain ..)

theorem namesGrow_caseDraws (h : draw ∈ caseDraws share scrutinee supply arms) :
    NamesGrow (.caseOf scrutinee arms, supply) (draw.tree, draw.supply) := by
  rw [caseDraws] at h
  split at h
  · exact namesGrow_chainDraws h
  · dsimp only at h
    rcases List.mem_append.1 h with h | h
    · exact namesGrow_drawsAt h
    -- the chain is made below the binder of the first variable
    · obtain ⟨inner, hinner, rfl⟩ := List.mem_map.1 h
      have hchain := (namesGrow_chainDraws hinner).around
        (context_app1_lam1 supply.draw.1 scrutinee)
      refine NamesGrow.trans (.of_named (Nat.le_succ _) fun P he hdrawn => ?_) hchain
      have hfresh : P supply.draw.1 :=
        hdrawn _ ⟨supply.next, Nat.le_refl _, Nat.lt_succ_self _, rfl⟩
      rw [named_caseOf] at he
      rw [named_app1, named_lam1, named_caseOf, named_var]
      exact ⟨⟨hfresh, hfresh, he.2⟩, he.1⟩

end

/-! ## Rules -/

namespace Rule

/-- The draws of a rule that is applied to an expression itself. -/
def draws (options : SimplifyOptions) (supply : FreshSupply) : Rule → Expr → List Draw
  | caseElimination, .caseOf scrutinee arms =>
    caseDraws options.shareFallthrough scrutinee supply arms
  | rule, e => match rule.fire options supply e with
    | .ok (some (_, supply')) => drawsAt e supply supply'
    | _ => []

variable {options : SimplifyOptions} {rule : Rule}

/-- A rule draws the variables between the supplies before and after, in order. -/
theorem numbers_draws (h : rule.fire options supply e = .ok (some (e', supply'))) :
    (rule.draws options supply e).map Draw.number = List.Ico supply.next supply'.next := by
  unfold draws
  split
  · exact numbers_caseDraws (Except.ok.inj h)
  · rw [h]
    exact numbers_drawsAt e supply supply'

/-- What is there when a rule draws a variable has the names of the expression and those that the
rule drew before. -/
theorem namesGrow_draws (h : draw ∈ rule.draws options supply e) :
    NamesGrow (e, supply) (draw.tree, draw.supply) := by
  unfold draws at h
  split at h
  · exact namesGrow_caseDraws h
  · split at h
    · exact namesGrow_drawsAt h
    · contradiction

end Rule

end Clausal
