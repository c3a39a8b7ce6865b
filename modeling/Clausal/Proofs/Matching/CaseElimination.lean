import Clausal.Proofs.FreshSupply
import Clausal.Proofs.Matching.Expansion
import Clausal.Proofs.Matching.Filling
import Clausal.Proofs.Reduction.Conversion

/-!
# Cases are eliminated to their first match

What case elimination makes of a case of a value: the lambda term reduces to one that is convertible
to that of the body of the first arm whose pattern matches the value, with the parts of the value
for the variables of the pattern, and to `bot` if no arm matches.

The scrutinee is copied if its expression is a constant or a tuple of constants, which a tuple
pattern then takes apart without a test, and otherwise bound to a fresh variable. Either way it
stands for the value in the environment of the chain of matches.

## Main results

* `Value.shows_toExpr`: a value that is copied is shown by its expression;
* `conv_expandCase?`: the expansion of a case of a value comes to the first arm that matches;
* `Rule.caseElimination_firstMatch`: the same for the lambda terms.
-/

namespace Clausal

open Clausal.Expr

variable {size : String → Nat} {arms : List (Arm Expr)} {value : Value} {supply : FreshSupply}

/-! ## Patterns -/

/-- A number that is none agrees with no literal. -/
theorem Literal.agrees_eq_false_of_isNaN {x : Float} (h : x.isNaN = true) (literal : Literal) :
    (Literal.float x).agrees literal = false := by
  cases literal with
  | float y =>
    have hbeq : (x == y) = (x.toModel.unpack.compare y.toModel.unpack == some .eq) := rfl
    have hx : x.toModel.unpack = .notANumber := by
      have hstatus : x.toModel.unpack.isNaN = true := h
      cases hunpack : x.toModel.unpack with
      | notANumber => rfl
      | _ =>
        rw [hunpack] at hstatus
        contradiction
    rw [agrees, hbeq, hx]
    rfl
  | int _ | char _ | bool _ => rfl

/-- The pattern of a number that is none matches nothing. -/
theorem Pattern.match?_lit_of_isNaN {x : Float} (h : x.isNaN = true) (value : Value) :
    (Pattern.lit (.float x)).match? value = none := by
  cases value with
  | lit literal =>
    rw [match?, Literal.agrees_eq_false_of_isNaN h]
    rfl
  | con _ _ | tuple _ => simp [match?]

/-! ## The scrutinee -/

/-- A value whose expression is copied into the arms is shown by it. -/
theorem Value.shows_toExpr (hvalue : value.Fits size) (hcopied : isCopyable arms value.toExpr = true)
    (env : Environment) : Matching.Shows env value.toExpr value := by
  have hread (value : Value) : Nameless.Conv (value.toExpr.read env) value.nameless :=
    .of_eq (value.read_toExpr env)
  cases hvalue with
  | lit _ => exact .whole (fun _ => rfl) (hread _)
  | @con name fields _ _ => cases fields <;> exact .whole (fun _ => rfl) (hread _)
  | @tuple components hlength _ =>
    rw [toExpr, toExprs_eq_map] at hcopied ⊢
    rw [← pack_of_length_ne_one hlength]
    refine .tuple (List.forall_mem_map.2 fun component hcomponent count => ?_) ?_
    · -- a component that is copied is no tuple
      have hleaf := List.all_eq_true.1 hcopied _ (List.mem_map_of_mem hcomponent)
      cases component with
      | lit _ => rfl
      | con name fields => cases fields <;> rfl
      | tuple _ => contradiction
    · rw [List.forall₂_map_left_iff, List.forall₂_same]
      exact fun component _ => hread component

/-! ## The expansion -/

/-- The expansion of a case of a value is a core expression if the bodies are, and comes to the first
arm that matches. The supply of fresh variables is past those that the case has. -/
theorem conv_expandCase? (share : Bool) (hvalue : value.Fits size)
    (hpatterns : ∀ arm ∈ arms, arm.pattern.Fits size)
    (hbodies : ∀ arm ∈ arms, Grammar.core.Generates arm.body)
    (hpast : ∀ number, FreshSupply.nameOf number ∈ (caseOf value.toExpr arms).names →
      number < supply.next) :
    ∃ e' supply', expandCase? share supply (.caseOf value.toExpr arms) = some (e', supply')
      ∧ Grammar.core.Generates e'
      ∧ ∀ env, Nameless.Conv (e'.read env) ((firstArm? value arms).elim (.const (.primitive .bot))
          fun found => found.1.read (env.assign found.2)) := by
  have hvar (name : String) : Grammar.core.lambda [.var name] := ⟨name, rfl⟩
  have hfresh (number : Nat) (hle : supply.next ≤ number) : ∀ arm ∈ arms,
      FreshSupply.nameOf number ∉ arm.pattern.boundNames
        ∧ FreshSupply.nameOf number ∉ arm.body.free := by
    intro arm harm
    have hnot (h : FreshSupply.nameOf number ∈ namesArms arms) : False :=
      absurd (hpast number (List.mem_append_right _ h)) (Nat.not_lt_of_le hle)
    exact ⟨fun h => hnot (mem_namesArms_iff.2 ⟨arm, harm, .inl h⟩),
      fun h => hnot (mem_namesArms_iff.2 ⟨arm, harm, .inr (free_subset_names _ h)⟩)⟩
  rw [expandCase?]
  split
  -- the scrutinee is copied
  · next hcopied =>
    refine ⟨_, _, rfl, ?_, fun env => ?_⟩
    · exact Grammar.generates_matchChain hvar share value.generates_toExpr supply hbodies
    · refine conv_matchChain share hvalue (value.shows_toExpr hvalue hcopied env) hpatterns
        (fun arm _ name _ => value.not_mem_free_toExpr name) supply fun number hle _ => ?_
      exact ⟨value.not_mem_free_toExpr _, hfresh number hle⟩
  -- the scrutinee is bound to a fresh variable
  · generalize hname : FreshSupply.nameOf supply.next = name
    have hscrutinee := hfresh supply.next (Nat.le_refl _)
    rw [hname] at hscrutinee
    refine ⟨.app1 (.lam1 name (matchChain share (.var name) ⟨supply.next + 1⟩ arms).1)
      value.toExpr, _, by rw [FreshSupply.draw, hname], ?_, fun env => ?_⟩
    · exact Grammar.generates_app1.2 ⟨Grammar.generates_lam1.2 ⟨hvar _,
        Grammar.generates_matchChain hvar share (Grammar.generates_var _) _ hbodies⟩,
        value.generates_toExpr⟩
    · rw [read_app1, value.read_toExpr]
      refine (conv_lam1 name _ env value.nameless).trans ?_
      have hshows : Matching.Shows (Function.update env name value.nameless) (.var name) value :=
        .whole (fun _ => rfl) (.of_eq (Function.update_self ..))
      refine (conv_matchChain share hvalue hshows hpatterns (fun arm harm other hother hmem => ?_) _
        fun number hle _ => ⟨fun hmem => ?_, hfresh number (Nat.le_of_succ_le hle)⟩).trans
          (.of_eq ?_)
      · exact (hscrutinee arm harm).1 (mem_free_var.1 hmem ▸ hother)
      · have heq := FreshSupply.nameOf_inj ((mem_free_var.1 hmem).trans hname.symm)
        exact Nat.not_succ_le_self _ (heq ▸ hle)
      · -- the bodies do not use the fresh variable
        cases hfirst : firstArm? value arms with
        | none => rfl
        | some found =>
          obtain ⟨arm, harm, hmatch⟩ := List.exists_of_findSome?_eq_some hfirst
          obtain ⟨bindings, -, rfl⟩ := Option.map_eq_some_iff.1 hmatch
          refine read_congr fun other hother => ?_
          have hne : other ≠ name := fun heq => (hscrutinee arm harm).2 (heq ▸ hother)
          rw [Environment.assign, Environment.assign, Function.update_of_ne hne]

/-- Case elimination implements first-match semantics. The lambda term of what it makes of a case of
a value reduces to one that is convertible to the lambda term of the body of the first arm whose
pattern matches the value, with the parts of the value for the variables of the pattern, and to
`bot` if no arm matches. The bodies may have free variables; each constructor has one number of
fields, in the value as in the patterns, and no tuple of the value has the size 1.

The pattern of a number that is none matches nothing, and a tuple pattern of one component matches
what the component matches. -/
theorem Rule.caseElimination_firstMatch (options : SimplifyOptions) (hvalue : value.Fits size)
    (hpatterns : ∀ arm ∈ arms, arm.pattern.Fits size)
    (hbodies : ∀ arm ∈ arms, ∃ core, Core.ofExpr arm.body = .ok core)
    (hpast : ∀ number, FreshSupply.nameOf number ∈ (caseOf value.toExpr arms).names →
      number < supply.next) :
    (∃ e' supply' compiled,
      Rule.caseElimination.fire options supply (.caseOf value.toExpr arms) = .ok (some (e', supply'))
        ∧ e'.compiled = .ok compiled
        ∧ match firstArm? value arms with
          | some (body, bindings) =>
            ∃ compiled', (body.fill bindings).compiled = .ok compiled'
              ∧ ∃ t, compiled.term.Reduces t ∧ t.Convertible compiled'.term
          | none => compiled.term.Reduces (.primitive .bot))
      ∧ (∀ x : Float, x.isNaN = true → ∀ value, (Pattern.lit (.float x)).match? value = none)
      ∧ ∀ pattern value, (Pattern.tuple [pattern]).match? value = pattern.match? value := by
  refine ⟨?_, fun x hx => Pattern.match?_lit_of_isNaN hx, fun pattern value => by
    rw [Pattern.match?]⟩
  replace hbodies : ∀ arm ∈ arms, Grammar.core.Generates arm.body := fun arm harm =>
    Core.exists_ofExpr_eq_ok_iff.1 (hbodies arm harm)
  obtain ⟨e', supply', hexpand, hcore, hconv⟩ :=
    conv_expandCase? options.shareFallthrough hvalue hpatterns hbodies hpast
  obtain ⟨compiled, hcompiled, hterm⟩ := exists_compiled_read hcore
  refine ⟨e', supply', compiled, ?_, hcompiled, ?_⟩
  · rw [Rule.fire, hexpand]
  · have hread := hconv Environment.compiling
    rw [← hterm] at hread
    cases hfirst : firstArm? value arms with
    | none =>
      rw [hfirst] at hread
      exact Term.Convertible.reduces_const (Term.convertible_iff.2 hread)
    | some found =>
      rw [hfirst] at hread
      obtain ⟨arm, harm, hmatch⟩ := List.exists_of_findSome?_eq_some hfirst
      obtain ⟨bindings, -, rfl⟩ := Option.map_eq_some_iff.1 hmatch
      have hbody := hbodies arm harm
      obtain ⟨compiled', hcompiled', hterm'⟩ :=
        exists_compiled_read (generates_fill hbody bindings)
      rw [read_fill hbody] at hterm'
      refine ⟨compiled', hcompiled', compiled.term, .refl, Term.convertible_iff.2 ?_⟩
      rw [hterm']
      exact hread

/-- Arms of which the first binds the variable that the second uses: `(a, 3) -> a` and
`(_, b) -> f a b`. -/
def capturingArms : List (Arm Expr) :=
  [⟨.tuple [.var "a", .lit (.int 3)], .var "a"⟩,
    ⟨.tuple [.wildcard, .var "b"], .app (.var "f") [.var "a", .var "b"]⟩]

/-- The second arm is bound to a fresh variable before the first is tried, and keeps its variable. -/
theorem Rule.caseElimination_firstMatch_capturingArms :
    ∃ e' supply' compiled,
      Rule.caseElimination.fire ⟨.validate, false⟩ .initial
          (.caseOf (.tuple [.lit (.int 1), .lit (.int 2)]) capturingArms) = .ok (some (e', supply'))
        ∧ e'.compiled = .ok compiled
        ∧ ∃ t, compiled.term.Reduces t
          ∧ t.Convertible (.app (.app (.var "f") (.var "a")) (.literal (.int 2))) := by
  have hvalue : (Value.tuple [.lit (.int 1), .lit (.int 2)]).Fits fun _ => 0 :=
    .tuple (by decide) (by simp [Value.Fits.lit])
  have hpatterns : ∀ arm ∈ capturingArms, arm.pattern.Fits fun _ => 0 := by
    refine List.forall_mem_cons.2 ⟨.tuple ?_, List.forall_mem_singleton.2 (.tuple ?_)⟩
    · simp [Pattern.Fits.var, Pattern.Fits.lit]
    · simp [Pattern.Fits.var, Pattern.Fits.wildcard]
  have hbodies : ∀ arm ∈ capturingArms, ∃ core, Core.ofExpr arm.body = .ok core :=
    List.forall_mem_cons.2 ⟨⟨_, rfl⟩, List.forall_mem_singleton.2 ⟨_, rfl⟩⟩
  have hpast : ∀ number, FreshSupply.nameOf number
      ∈ (caseOf (Value.tuple [.lit (.int 1), .lit (.int 2)]).toExpr capturingArms).names →
      number < FreshSupply.initial.next := by
    intro number hmem
    -- no variable of the case begins like a fresh one
    have hhead : (FreshSupply.nameOf number).toList.head? = some 'x' := by
      rw [FreshSupply.toList_nameOf]
      rfl
    have hnames : ∀ name ∈ ["a", "a", "b", "f", "a", "b"], name.toList.head? ≠ some 'x' := by
      decide
    exact absurd hhead (hnames _ hmem)
  obtain ⟨⟨e', supply', compiled, hfire, hcompiled, hfirst⟩, -⟩ :=
    Rule.caseElimination_firstMatch ⟨.validate, false⟩ hvalue hpatterns hbodies hpast
  have hsecond : firstArm? (.tuple [.lit (.int 1), .lit (.int 2)]) capturingArms
      = some (.app (.var "f") [.var "a", .var "b"], [("b", .lit (.int 2))]) := by
    cbv
  rw [hsecond] at hfirst
  obtain ⟨compiled', hcompiled', t, hreduces, hconvertible⟩ := hfirst
  have hterm : compiled'.term = .app (.app (.var "f") (.var "a")) (.literal (.int 2)) := by
    cases hcompiled'
    rfl
  exact ⟨e', supply', compiled, hfire, hcompiled, t, hreduces, hterm ▸ hconvertible⟩

end Clausal
