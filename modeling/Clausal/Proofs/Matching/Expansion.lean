import Clausal.Proofs.Matching.Sharing
import Clausal.Proofs.Matching.Value
import Clausal.Proofs.Simplification.Blocks
import Clausal.Proofs.Simplification.Names

/-!
# Matches of values

What the expansion of a match comes to when the scrutinee stands for a value: the success, with the
names of the pattern for the parts of the value, if the pattern matches, and the failure otherwise.
A chain of such matches comes to the first arm that matches.

The failure may be copied below the names that the pattern binds, so it must not use them. The
expansion of a match binds it to a fresh variable where it does.

## Main results

* `Matching.conv_expand`: the expansion of a match, by the pattern and the value;
* `Matching.conv_elaborate`: the same with the failure bound where it is needed;
* `conv_matchChain`: a chain of matches comes to the first arm that matches.
-/

namespace Clausal

open Clausal.Expr

variable {size : String → Nat}

/-- A conditional is the branch that its condition chooses. -/
theorem conv_cond {env : Environment} {condition positive negative : Expr} {answer : Bool}
    (h : Nameless.Conv (condition.read env) (.const (.literal (.bool answer)))) :
    Nameless.Conv ((cond condition positive negative).read env)
      (if answer then positive.read env else negative.read env) := by
  rw [Expr.read]
  exact Nameless.conv_branch h _ _

namespace Matching

/-- Whether an expression stands for a value. A tuple expression shows components, which stand for
the values that the value is made of and show nothing in turn. -/
inductive Shows (env : Environment) : Expr → Value → Prop
  | whole {s : Expr} {value : Value} (hs : ∀ count, components? count s = none)
      (hread : Nameless.Conv (s.read env) value.nameless) : Shows env s value
  | tuple {elements : List Expr} {values : List Value}
      (helements : ∀ element ∈ elements, ∀ count, components? count element = none)
      (hread : List.Forall₂ (fun element value => Nameless.Conv (element.read env) value.nameless)
        elements values) : Shows env (.tuple elements) (.pack values)

namespace Shows

variable {env env' : Environment} {s : Expr} {value : Value}

theorem conv_read (h : Shows env s value) : Nameless.Conv (s.read env) value.nameless := by
  cases h with
  | whole _ hread => exact hread
  | tuple _ hread =>
    rw [read_tuple, Value.nameless_pack]
    refine @Nameless.Congruence.fieldsTerm _ 0 Nameless.Congruence.conv _ _ ?_
    rwa [List.forall₂_map_left_iff, List.forall₂_map_right_iff]

/-- The components that an expression shows stand for the values that its value is made of. -/
theorem exists_components {count : Nat} {components : List Expr} (h : Shows env s value)
    (hcomponents : components? count s = some components) :
    ∃ values, value = .pack values ∧ List.Forall₂ (Shows env) components values := by
  cases h with
  | whole hs _ =>
    rw [hs] at hcomponents
    contradiction
  | @tuple elements values helements hread =>
    obtain ⟨heq, -⟩ := eq_tuple_of_components? hcomponents
    obtain rfl := Expr.tuple.inj heq
    refine ⟨values, rfl, ((List.forall₂_and_left _ _).2 ⟨helements, hread⟩).imp ?_⟩
    exact fun element value h => .whole h.1 h.2

/-- An expression stands for the same value wherever its variables stand for the same. -/
theorem congr (h : Shows env s value) (henv : ∀ name ∈ s.free, env' name = env name) :
    Shows env' s value := by
  cases h with
  | whole hs hread => exact .whole hs (read_congr henv ▸ hread)
  | @tuple elements values helements hread =>
    have heq : ∀ element ∈ elements, element.read env' = element.read env :=
      fun element helement => read_congr fun name hname =>
        henv name (mem_free_tuple.2 ⟨element, helement, hname⟩)
    refine .tuple helements (((List.forall₂_and_left _ _).2 ⟨heq, hread⟩).imp ?_)
    intro element value h
    rw [h.1]
    exact h.2

end Shows

/-- A test of an expression that stands for a value. -/
theorem conv_probe {env : Environment} {s : Expr} {value : Value}
    (hs : Nameless.Conv (s.read env) value.nameless) (hvalue : value.Fits size)
    {primitive : Primitive} {answer : Bool}
    (hanswer : (Constant.primitive primitive).answer? [value.kind]
      = some (.literal (.bool answer))) :
    Nameless.Conv ((probe primitive s).read env) (.const (.literal (.bool answer))) := by
  rw [read_probe]
  exact ((Nameless.Conv.refl _).app hs).trans (Value.conv_test hvalue hanswer)

/-- The parts of an expression that stands for a tuple stand for the components. -/
theorem shows_parts {env : Environment} {s : Expr} {values : List Value}
    (hs : values.length = 1 → ∀ count, components? count s = none)
    (hread : Nameless.Conv (s.read env) (Nameless.fieldsTerm (values.map Value.nameless))) :
    List.Forall₂ (Shows env) (parts values.length s) values := by
  have h := Value.conv_parts values hread
  rw [← read_parts, List.forall₂_map_left_iff, List.forall₂_map_right_iff] at h
  have hparts : ∀ part ∈ parts values.length s, ∀ count, components? count part = none :=
    fun part hpart => components?_of_mem_parts hs hpart
  exact ((List.forall₂_and_left _ _).2 ⟨hparts, h⟩).imp fun part value h => .whole h.1 h.2

/-! ## Single patterns -/

section

variable {env : Environment} {s success failure : Expr} {value : Value}

/-- A literal pattern is a test. -/
theorem conv_expand_lit (literal : Literal) (hvalue : value.Fits size)
    (hread : Nameless.Conv (s.read env) value.nameless) :
    Nameless.Conv ((expand (.lit literal) s success failure).read env)
      (((Pattern.lit literal).match? value).elim (failure.read env)
        fun bindings => success.read (env.assign bindings)) := by
  rw [expand]
  cases value with
  | lit other =>
    refine (conv_cond (conv_probe hread hvalue rfl)).trans (.of_eq ?_)
    rw [Pattern.match?]
    split <;> rfl
  | con _ _ | tuple _ =>
    refine (conv_cond (conv_probe hread hvalue rfl)).trans (.of_eq ?_)
    simp [Pattern.match?]

/-- A variable stands for the value. -/
theorem conv_expand_var (name : String) (hread : Nameless.Conv (s.read env) value.nameless) :
    Nameless.Conv ((expand (.var name) s success failure).read env)
      (((Pattern.var name).match? value).elim (failure.read env)
        fun bindings => success.read (env.assign bindings)) := by
  rw [expand, Pattern.match?, Option.elim_some, Environment.assign_singleton]
  refine (conv_bindName name s success env).trans (conv_read fun other _ => ?_)
  by_cases h : other = name
  · rw [h, Function.update_self, Function.update_self]
    exact hread
  · rw [Function.update_of_ne h, Function.update_of_ne h]
    exact .refl _

/-- A constructor pattern is a test, and a match of the fields if the constructor is the same. -/
theorem conv_expand_con (name : String) (args : List Pattern) (hvalue : value.Fits size)
    (hread : Nameless.Conv (s.read env) value.nameless)
    (hargs : ∀ fields, value = .con name fields →
      Nameless.Conv ((expandAll args (parts args.length (probe (.argOf name) s)) success
          failure).read env)
        ((Pattern.matchAll? args fields).elim (failure.read env)
          fun bindings => success.read (env.assign bindings))) :
    Nameless.Conv ((expand (.con name args) s success failure).read env)
      (((Pattern.con name args).match? value).elim (failure.read env)
        fun bindings => success.read (env.assign bindings)) := by
  rw [expand]
  cases value with
  | con other fields =>
    refine (conv_cond (conv_probe hread hvalue rfl)).trans ?_
    rw [Pattern.match?]
    by_cases hname : name = other
    · subst hname
      rw [if_pos (beq_self_eq_true name), if_pos rfl]
      exact hargs fields rfl
    · rw [if_neg (by simpa using Ne.symm hname), if_neg hname]
      exact .refl _
  | lit _ | tuple _ =>
    refine (conv_cond (conv_probe hread hvalue rfl)).trans (.of_eq ?_)
    simp [Pattern.match?]

/-- A tuple pattern of another size than one is a test, and a match of the components if the value
is a tuple of that size, unless the scrutinee shows its components. -/
theorem conv_expand_tuple {elements : List Pattern} (hlength : elements.length ≠ 1)
    (hcomponents : components? elements.length s = none) (hvalue : value.Fits size)
    (hread : Nameless.Conv (s.read env) value.nameless)
    (helements : ∀ components, value = .tuple components → elements.length = components.length →
      Nameless.Conv ((expandAll elements (parts elements.length s) success failure).read env)
        ((Pattern.matchAll? elements components).elim (failure.read env)
          fun bindings => success.read (env.assign bindings))) :
    Nameless.Conv ((expand (.tuple elements) s success failure).read env)
      (((Pattern.tuple elements).match? value).elim (failure.read env)
        fun bindings => success.read (env.assign bindings)) := by
  rw [expand, hcomponents]
  dsimp only
  rw [if_neg hlength]
  cases value with
  | tuple components =>
    refine (conv_cond (conv_probe hread hvalue rfl)).trans ?_
    rw [Pattern.match?_tuple hlength]
    by_cases hcount : elements.length = components.length
    · rw [if_pos (beq_iff_eq.2 hcount.symm)]
      exact helements components rfl hcount
    · have hnone : Pattern.matchAll? elements components = none := by
        refine Option.eq_none_iff_forall_ne_some.2 fun bindings h => hcount ?_
        exact Pattern.length_of_matchAll? h
      rw [if_neg (by simpa using Ne.symm hcount), hnone]
      exact .refl _
  | lit _ | con _ _ =>
    refine (conv_cond (conv_probe hread hvalue rfl)).trans (.of_eq ?_)
    rw [Pattern.match?_tuple_eq_none hlength (by simp)]
    rfl

end

/-! ## All patterns -/

mutual

/-- The expansion of a match of a value comes to the success, with the names of the pattern for the
parts of the value, if the pattern matches, and to the failure otherwise. -/
theorem conv_expand {env : Environment} {pattern : Pattern} (hpattern : pattern.Fits size)
    {value : Value} (hvalue : value.Fits size) {s : Expr} (hs : Shows env s value)
    (hfree : ∀ name ∈ pattern.boundNames, name ∉ s.free) (success : Expr) {failure : Expr}
    (hfailure : pattern.match? value = none → ∀ name ∈ pattern.boundNames, name ∉ failure.free) :
    Nameless.Conv ((expand pattern s success failure).read env)
      ((pattern.match? value).elim (failure.read env)
        fun bindings => success.read (env.assign bindings)) := by
  have hread := hs.conv_read
  cases pattern with
  | var name => exact conv_expand_var name hread
  | wildcard =>
    rw [expand, Pattern.match?]
    exact .refl _
  | lit literal => exact conv_expand_lit literal hvalue hread
  | con name args =>
    refine conv_expand_con name args hvalue hread ?_
    rintro fields rfl
    rw [Pattern.match?, if_pos rfl] at hfailure
    cases hpattern with
    | con hargs hpatterns =>
    cases hvalue with
    | con hfields hvalues =>
    have hlength : args.length = fields.length := hargs.trans hfields.symm
    refine conv_expandAll hpatterns hvalues hlength (fun part hpart other h hmem => ?_) ?_ success
      hfailure
    · exact hfree other h (mem_free_probe.1 (mem_free_of_mem_parts hpart hmem))
    · rw [hlength]
      refine shows_parts (fun _ _ => rfl) ?_
      rw [read_probe]
      exact ((Nameless.Conv.refl _).app hread).trans (Value.conv_argOf name fields)
  | tuple elements =>
    cases hpattern with
    | tuple hpatterns =>
    cases hcomponents : components? elements.length s with
    -- the components that the scrutinee shows are matched without a test
    | some components =>
      rw [expand, hcomponents]
      obtain ⟨rfl, hcount⟩ := eq_tuple_of_components? hcomponents
      obtain ⟨values, rfl, hshows⟩ := hs.exists_components hcomponents
      have hlength : elements.length = values.length := hcount.symm.trans hshows.length_eq
      rw [Pattern.match?_tuple_pack hlength] at hfailure ⊢
      refine conv_expandAll hpatterns hvalue.of_pack hlength (fun component hmem name h hname => ?_)
        hshows success hfailure
      exact hfree name h (mem_free_tuple.2 ⟨component, hmem, hname⟩)
    | none =>
    by_cases hlength : elements.length = 1
    -- the one component is matched with the value itself
    · rw [expand, hcomponents]
      dsimp only
      obtain ⟨element, rfl⟩ := List.length_eq_one_iff.1 hlength
      rw [if_pos hlength, parts, if_pos hlength, expandAll, expandAll]
      · rw [Pattern.match?] at hfailure ⊢
        have hnames : Pattern.boundNames (.tuple [element]) = element.boundNames := by
          rw [Pattern.boundNames, Pattern.boundNamesList, Pattern.boundNamesList, List.append_nil]
        rw [hnames] at hfree hfailure
        exact conv_expand (hpatterns element List.mem_cons_self) hvalue hs hfree success hfailure
      · exact nofun
    · refine conv_expand_tuple hlength hcomponents hvalue hread ?_
      rintro components rfl hcount
      rw [Pattern.match?_tuple hlength] at hfailure
      cases hvalue with
      | tuple _ hvalues =>
      refine conv_expandAll hpatterns hvalues hcount (fun part hpart other h hmem => ?_) ?_ success
        hfailure
      · exact hfree other h (mem_free_of_mem_parts hpart hmem)
      · rw [hcount]
        refine shows_parts (fun h => absurd (hcount.trans h) hlength) ?_
        rwa [← Value.nameless_tuple]

/-- The same for patterns matched one after the other, each with a value of its own. -/
theorem conv_expandAll {env : Environment} {patterns : List Pattern}
    (hpatterns : ∀ pattern ∈ patterns, pattern.Fits size)
    {values : List Value} (hvalues : ∀ value ∈ values, value.Fits size)
    (hlength : patterns.length = values.length) {ss : List Expr}
    (hfree : ∀ s ∈ ss, ∀ name ∈ Pattern.boundNamesList patterns, name ∉ s.free)
    (hss : List.Forall₂ (Shows env) ss values) (success : Expr) {failure : Expr}
    (hfailure : Pattern.matchAll? patterns values = none →
      ∀ name ∈ Pattern.boundNamesList patterns, name ∉ failure.free) :
    Nameless.Conv ((expandAll patterns ss success failure).read env)
      ((Pattern.matchAll? patterns values).elim (failure.read env)
        fun bindings => success.read (env.assign bindings)) := by
  cases hss with
  | nil =>
    obtain rfl := List.length_eq_zero_iff.1 hlength
    rw [expandAll_nil_left, Pattern.matchAll?]
    exact .refl _
  | @cons s value ss values hs hss =>
    cases patterns with
    | nil => contradiction
    | cons pattern patterns =>
      obtain ⟨hpattern, hpatterns⟩ := List.forall_mem_cons.1 hpatterns
      obtain ⟨hvalue, hvalues⟩ := List.forall_mem_cons.1 hvalues
      obtain ⟨hsfree, hfree⟩ := List.forall_mem_cons.1 hfree
      have hleft {name : String} (h : name ∈ pattern.boundNames) :
          name ∈ Pattern.boundNamesList (pattern :: patterns) := List.mem_append_left _ h
      have hright {name : String} (h : name ∈ Pattern.boundNamesList patterns) :
          name ∈ Pattern.boundNamesList (pattern :: patterns) := List.mem_append_right _ h
      rw [expandAll]
      refine (conv_expand hpattern hvalue hs (fun name h => hsfree name (hleft h)) _
        fun hnone name h => hfailure ?_ name (hleft h)).trans ?_
      · rw [Pattern.matchAll?, hnone, Option.bind_none]
      cases hmatch : pattern.match? value with
      | none =>
        rw [Pattern.matchAll?, hmatch]
        exact .refl _
      | some bindings =>
        -- what the first pattern binds is used neither by the other values nor by the failure
        have hassign {name : String} (h : name ∉ pattern.boundNames) :
            env.assign bindings name = env name := by
          exact Environment.assign_of_not_mem
            (fun hmem => h ((Pattern.mem_map_fst_of_match? pattern hmatch).1 hmem)) env
        have hss' : List.Forall₂ (Shows (env.assign bindings)) ss values := by
          refine ((List.forall₂_and_left _ _).2 ⟨hfree, hss⟩).imp fun s value h => ?_
          exact h.2.congr fun name hname => hassign fun hbound => h.1 name (hleft hbound) hname
        have hrest := conv_expandAll hpatterns hvalues (Nat.succ.inj hlength)
          (fun s hs name h => hfree s hs name (hright h)) hss' success
          fun hnone name h => hfailure ?_ name (hright h)
        · refine hrest.trans (.of_eq ?_)
          rw [Pattern.matchAll?, hmatch, Option.bind_some]
          cases hall : Pattern.matchAll? patterns values with
          | none =>
            have hnone : Pattern.matchAll? (pattern :: patterns) (value :: values) = none := by
              rw [Pattern.matchAll?, hmatch, Option.bind_some, hall, Option.map_none]
            refine read_congr fun name hname => hassign fun hbound => ?_
            exact hfailure hnone name (hleft hbound) hname
          | some rest =>
            rw [Option.elim_some, Option.map_some, Option.elim_some, Environment.assign_append]
        · rw [Pattern.matchAll?, hmatch, Option.bind_some, hnone, Option.map_none]

end

/-- A match of an expression that stands for a value, with a failure that is bound where it has to
be, comes to the success or to the failure. -/
theorem conv_elaborate (share : Bool) {env : Environment} {pattern : Pattern}
    (hpattern : pattern.Fits size) {value : Value} (hvalue : value.Fits size) {s : Expr}
    (hs : Shows env s value) (hfree : ∀ name ∈ pattern.boundNames, name ∉ s.free) {success : Expr}
    (failure : Expr) {supply : FreshSupply}
    (hdrawn : ∀ number, supply.next ≤ number →
      number < (elaborate share pattern s success failure supply).2.next →
      FreshSupply.nameOf number ∉ pattern.boundNames ++ s.free ++ success.free) :
    Nameless.Conv ((elaborate share pattern s success failure supply).1.read env)
      ((pattern.match? value).elim (failure.read env)
        fun bindings => success.read (env.assign bindings)) := by
  -- a match that draws no variable is as good as one that draws a fresh one
  obtain ⟨supply', heq, hfresh⟩ : ∃ supply' : FreshSupply,
      (elaborate share pattern s success failure supply').1
          = (elaborate share pattern s success failure supply).1
        ∧ supply'.draw.1 ∉ pattern.boundNames ++ s.free ++ success.free := by
    by_cases hnext : supply.next < (elaborate share pattern s success failure supply).2.next
    · exact ⟨supply, rfl, hdrawn supply.next (Nat.le_refl _) hnext⟩
    · obtain ⟨supply', hfresh⟩ :=
        FreshSupply.exists_draw_not_mem (pattern.boundNames ++ s.free ++ success.free)
      exact ⟨supply', elaborate_fst_eq share pattern s success failure (Nat.not_lt.1 hnext) supply',
        hfresh⟩
  rw [← heq]
  -- the failure stands for itself, or for a variable that the pattern leaves alone
  refine (conv_elaborate_var share pattern failure hfresh hfresh env).trans ?_
  simp only [List.mem_append, not_or] at hfresh
  generalize supply'.draw.1 = fresh at hfresh
  generalize failure.read env = failed
  have hupdate {name : String} (h : name ≠ fresh) :
      Function.update env fresh failed name = env name := Function.update_of_ne h _ _
  refine (conv_expand hpattern hvalue (hs.congr fun name hname => ?_) hfree success
    fun _ name hname hmem => ?_).trans (.of_eq ?_)
  · exact hupdate fun heq => hfresh.1.2 (heq ▸ hname)
  · exact hfresh.1.1 (mem_free_var.1 hmem ▸ hname)
  · cases pattern.match? value with
    | none => exact Function.update_self _ _ _
    | some bindings =>
      refine read_congr fun name hname => ?_
      have hne : name ≠ fresh := fun heq => hfresh.2 (heq ▸ hname)
      rw [Environment.assign, Environment.assign, hupdate hne]

end Matching

/-! ## Chains of matches -/

/-- The body of the first arm whose pattern matches a value, with what it binds. -/
def firstArm? (value : Value) (arms : List (Arm Expr)) : Option (Expr × List (String × Value)) :=
  arms.findSome? fun arm =>
    (arm.pattern.match? value).map fun bindings => (arm.body, bindings)

/-- The body of the first clause whose patterns match some values, with what they bind. -/
def firstMatch? (values : List Value) (clauses : List (List Pattern × Expr)) :
    Option (Expr × List (String × Value)) :=
  clauses.findSome? fun clause =>
    (Pattern.matchAll? clause.1 values).map fun bindings => (clause.2, bindings)

/-- The arms that match the tuple of the arguments with the patterns of each clause. -/
def armsOf (clauses : List (List Pattern × Expr)) : List (Arm Expr) :=
  clauses.map fun clause => ⟨.tuple clause.1, clause.2⟩

/-- The first clause that matches is the first arm that does. -/
theorem firstArm?_armsOf {values : List Value} {clauses : List (List Pattern × Expr)}
    (h : ∀ clause ∈ clauses, clause.1.length = values.length) :
    firstArm? (.pack values) (armsOf clauses) = firstMatch? values clauses := by
  induction clauses with
  | nil => rfl
  | cons clause clauses ih =>
    obtain ⟨hlength, hclauses⟩ := List.forall_mem_cons.1 h
    have ih := ih hclauses
    rw [firstArm?, armsOf, firstMatch?] at ih ⊢
    rw [List.map_cons, List.findSome?_cons, List.findSome?_cons, ih,
      Pattern.match?_tuple_pack hlength]

/-- A chain of matches of an expression that stands for a value comes to the first arm that matches,
with the names of its pattern for the parts of the value, and to `bot` if none does. -/
theorem conv_matchChain (share : Bool) {env : Environment} {value : Value}
    (hvalue : value.Fits size) {s : Expr} (hs : Matching.Shows env s value)
    {arms : List (Arm Expr)} (hpatterns : ∀ arm ∈ arms, arm.pattern.Fits size)
    (hfree : ∀ arm ∈ arms, ∀ name ∈ arm.pattern.boundNames, name ∉ s.free) (supply : FreshSupply)
    (hfresh : ∀ number, supply.next ≤ number → number < (matchChain share s supply arms).2.next →
      FreshSupply.nameOf number ∉ s.free ∧ ∀ arm ∈ arms,
        FreshSupply.nameOf number ∉ arm.pattern.boundNames
          ∧ FreshSupply.nameOf number ∉ arm.body.free) :
    Nameless.Conv ((matchChain share s supply arms).1.read env)
      ((firstArm? value arms).elim (.const (.primitive .bot))
        fun found => found.1.read (env.assign found.2)) := by
  induction arms with
  | nil => exact .refl _
  | cons arm arms ih =>
    obtain ⟨hpattern, hpatterns⟩ := List.forall_mem_cons.1 hpatterns
    obtain ⟨harm, hfree⟩ := List.forall_mem_cons.1 hfree
    -- the chain of the later arms is the failure of the first match
    rw [matchChain_cons] at hfresh ⊢
    have hlow := next_le_matchChain share s supply arms
    have hhigh := Matching.next_le_elaborate share arm.pattern s arm.body
      (matchChain share s supply arms).1 (matchChain share s supply arms).2
    have hrest := ih hpatterns hfree fun number hle hlt => by
      obtain ⟨hnot, harms⟩ := hfresh number hle (hlt.trans_le hhigh)
      exact ⟨hnot, (List.forall_mem_cons.1 harms).2⟩
    refine (Matching.conv_elaborate share hpattern hvalue hs harm _
      fun number hle hlt => ?_).trans ?_
    · obtain ⟨hnot, hfreshArms⟩ := hfresh number (hlow.trans hle) hlt
      obtain ⟨hfreshArm, -⟩ := List.forall_mem_cons.1 hfreshArms
      simp only [List.mem_append, not_or]
      exact ⟨⟨hfreshArm.1, hnot⟩, hfreshArm.2⟩
    · rw [firstArm?, List.findSome?_cons]
      cases arm.pattern.match? value with
      | none => exact hrest
      | some bindings => exact .refl _

/-- A chain of matches of variables that stand for values comes to the first clause that matches,
with the names of its patterns for the parts of the values, and to `bot` if none does. -/
theorem conv_matchChain_armsOf (share : Bool) {env : Environment} {values : List Value}
    (hvalues : ∀ value ∈ values, value.Fits size) {names : List String}
    (hread : List.Forall₂ (fun name value => Nameless.Conv (env name) value.nameless) names values)
    {clauses : List (List Pattern × Expr)}
    (hclauses : ∀ clause ∈ clauses, clause.1.length = values.length
      ∧ ∀ pattern ∈ clause.1, pattern.Fits size)
    (hnames : ∀ name ∈ names, ∀ clause ∈ clauses, name ∉ Pattern.boundNamesList clause.1)
    (supply : FreshSupply)
    (hfresh : ∀ number, supply.next ≤ number →
      number < (matchChain share (.tuple (names.map .var)) supply (armsOf clauses)).2.next →
      FreshSupply.nameOf number ∉ names ∧ ∀ clause ∈ clauses,
        FreshSupply.nameOf number ∉ Pattern.boundNamesList clause.1
          ∧ FreshSupply.nameOf number ∉ clause.2.free) :
    Nameless.Conv
      ((matchChain share (.tuple (names.map .var)) supply (armsOf clauses)).1.read env)
      ((firstMatch? values clauses).elim (.const (.primitive .bot))
        fun found => found.1.read (env.assign found.2)) := by
  have hshows : Matching.Shows env (tuple (names.map .var)) (.pack values) :=
    .tuple (List.forall_mem_map.2 fun _ _ _ => rfl) (List.forall₂_map_left_iff.2 hread)
  rw [← firstArm?_armsOf fun clause hclause => (hclauses clause hclause).1]
  refine conv_matchChain share (Value.Fits.pack hvalues) hshows ?_ ?_ supply ?_
  · exact List.forall_mem_map.2 fun clause hclause => .tuple (hclauses clause hclause).2
  · refine List.forall_mem_map.2 fun clause hclause name hname hfree => ?_
    exact hnames name (mem_free_tuple_var.1 hfree) clause hclause hname
  · intro number hle hlt
    obtain ⟨hnot, hfreshClauses⟩ := hfresh number hle hlt
    exact ⟨fun h => hnot (mem_free_tuple_var.1 h), List.forall_mem_map.2 hfreshClauses⟩

end Clausal
