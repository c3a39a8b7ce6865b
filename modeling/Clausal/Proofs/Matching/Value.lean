import Clausal.Proofs.Surface.Fixpoints
import Clausal.Proofs.Surface.Names

/-!
# First-order values and patterns

A first-order value is a literal, a constructor with its fields, or a tuple. A pattern matches a
value or not, and if it does, binds its variables to parts of the value. Values have no variables,
so a value is read as the same closed term in every environment.

The primitives that matches are made of tell such terms apart: the tests answer whether a value is
a literal, is built with a constructor or is a tuple of some size, and the projections give back
its parts.

## Main results

* `Pattern.match?`: what a pattern binds if it matches a value;
* `Value.read_toExpr`: a value is read as the same term in every environment;
* `Value.conv_test`: a test answers from the kind of a value;
* `Value.conv_argOf`, `Value.conv_parts`: the projections give back the parts of a value.
-/

namespace Clausal

open Clausal.Expr

/-- A first-order value. -/
inductive Value
  | lit (literal : Literal)
  /-- A constructor applied to its fields. -/
  | con (name : String) (fields : List Value)
  | tuple (components : List Value)

/-! ## Matching -/

namespace Pattern

mutual

/-- What a pattern binds if it matches a value. A literal matches what agrees with it, and a tuple
pattern of one component matches what the component matches. -/
def match? : Pattern → Value → Option (List (String × Value))
  | .var name, value => some [(name, value)]
  | .wildcard, _ => some []
  | .lit literal, .lit other => if literal.agrees other then some [] else none
  | .con name args, .con other fields => if name = other then matchAll? args fields else none
  | .tuple [element], value => match? element value
  | .tuple elements, .tuple components => matchAll? elements components
  | _, _ => none

/-- What patterns bind if each of them matches the value at its place, and there are as many of
them as values. The bindings of later patterns come first. -/
def matchAll? : List Pattern → List Value → Option (List (String × Value))
  | [], [] => some []
  | pattern :: patterns, value :: values =>
    (match? pattern value).bind fun bindings =>
      (matchAll? patterns values).map (· ++ bindings)
  | _, _ => none

end

/-- Whether each constructor in a pattern has the number of arguments that it is to have. -/
inductive Fits (size : String → Nat) : Pattern → Prop
  | var (name : String) : Fits size (.var name)
  | wildcard : Fits size .wildcard
  | lit (literal : Literal) : Fits size (.lit literal)
  | con {name : String} {args : List Pattern} : args.length = size name →
    (∀ arg ∈ args, Fits size arg) → Fits size (.con name args)
  | tuple {elements : List Pattern} : (∀ element ∈ elements, Fits size element) →
    Fits size (.tuple elements)

theorem match?_tuple {elements : List Pattern} (h : elements.length ≠ 1) (components : List Value) :
    match? (.tuple elements) (.tuple components) = matchAll? elements components := by
  rw [match?]
  rintro element rfl
  exact h rfl

theorem match?_tuple_eq_none {elements : List Pattern} (h : elements.length ≠ 1) {value : Value}
    (hvalue : ∀ components, value ≠ .tuple components) : match? (.tuple elements) value = none := by
  have hne (element : Pattern) : elements ≠ [element] := fun heq => h (heq ▸ rfl)
  cases value with
  | tuple components => exact absurd rfl (hvalue components)
  | lit _ | con _ _ => simp [match?, hne]

theorem matchAll?_eq_some_iff {pattern : Pattern} {patterns : List Pattern} {value : Value}
    {values : List Value} {bindings : List (String × Value)} :
    matchAll? (pattern :: patterns) (value :: values) = some bindings
      ↔ ∃ first rest, match? pattern value = some first
        ∧ matchAll? patterns values = some rest ∧ rest ++ first = bindings := by
  simp [matchAll?, Option.bind_eq_some_iff, Option.map_eq_some_iff]

/-- Patterns match no other number of values. -/
theorem length_of_matchAll? {patterns : List Pattern} {values : List Value}
    {bindings : List (String × Value)} (h : matchAll? patterns values = some bindings) :
    patterns.length = values.length := by
  induction patterns generalizing values bindings with
  | nil =>
    cases values with
    | nil => rfl
    | cons _ _ => simp [matchAll?] at h
  | cons pattern patterns ih =>
    cases values with
    | nil => simp [matchAll?] at h
    | cons value values =>
      obtain ⟨_, rest, -, hrest, -⟩ := matchAll?_eq_some_iff.1 h
      exact congrArg Nat.succ (ih hrest)

mutual

/-- A match binds the names of the pattern. -/
theorem mem_map_fst_of_match? (pattern : Pattern) {value : Value}
    {bindings : List (String × Value)} (h : match? pattern value = some bindings) {name : String} :
    name ∈ bindings.map Prod.fst ↔ name ∈ pattern.boundNames := by
  cases pattern with
  | var other =>
    rw [match?] at h
    obtain rfl := Option.some.inj h
    exact Iff.rfl
  | wildcard =>
    rw [match?] at h
    obtain rfl := Option.some.inj h
    exact Iff.rfl
  | lit literal =>
    cases value with
    | lit other =>
      rw [match?] at h
      split at h
      · obtain rfl := Option.some.inj h
        exact Iff.rfl
      · contradiction
    | con _ _ | tuple _ => simp [match?] at h
  | con other args =>
    cases value with
    | con _ fields =>
      rw [match?] at h
      split at h
      · exact mem_map_fst_of_matchAll? args h
      · contradiction
    | lit _ | tuple _ => simp [match?] at h
  | tuple elements =>
    -- a pattern of one component matches what the component matches
    by_cases hlength : elements.length = 1
    · obtain ⟨element, rfl⟩ := List.length_eq_one_iff.1 hlength
      rw [match?] at h
      rw [mem_map_fst_of_match? element h, boundNames, boundNamesList, boundNamesList,
        List.append_nil]
    · cases value with
      | tuple components =>
        rw [match?_tuple hlength] at h
        exact mem_map_fst_of_matchAll? elements h
      | lit _ | con _ _ =>
        rw [match?_tuple_eq_none hlength (by simp)] at h
        contradiction

theorem mem_map_fst_of_matchAll? (patterns : List Pattern) {values : List Value}
    {bindings : List (String × Value)} (h : matchAll? patterns values = some bindings)
    {name : String} : name ∈ bindings.map Prod.fst ↔ name ∈ boundNamesList patterns := by
  cases patterns with
  | nil =>
    cases values with
    | nil =>
      rw [matchAll?] at h
      obtain rfl := Option.some.inj h
      exact Iff.rfl
    | cons _ _ => simp [matchAll?] at h
  | cons pattern patterns =>
    cases values with
    | nil => simp [matchAll?] at h
    | cons value values =>
      obtain ⟨first, rest, hfirst, hrest, rfl⟩ := matchAll?_eq_some_iff.1 h
      rw [List.map_append, List.mem_append, mem_map_fst_of_match? pattern hfirst,
        mem_map_fst_of_matchAll? patterns hrest, boundNamesList, List.mem_append, or_comm]

end

end Pattern

/-! ## Values -/

namespace Value

mutual

/-- The expression of a value. A constructor without fields stands alone. -/
def toExpr : Value → Expr
  | .lit literal => .lit literal
  | .con name [] => .con name
  | .con name (field :: fields) => .app (.con name) (toExpr field :: toExprs fields)
  | .tuple components => .tuple (toExprs components)

/-- The expressions of values. -/
def toExprs : List Value → List Expr
  | [] => []
  | value :: values => toExpr value :: toExprs values

end

/-- Whether each constructor in a value has the number of fields that it is to have, and each tuple
has another size than 1. -/
inductive Fits (size : String → Nat) : Value → Prop
  | lit (literal : Literal) : Fits size (.lit literal)
  | con {name : String} {fields : List Value} : fields.length = size name →
    (∀ field ∈ fields, Fits size field) → Fits size (.con name fields)
  | tuple {components : List Value} : components.length ≠ 1 →
    (∀ component ∈ components, Fits size component) → Fits size (.tuple components)

/-- What a number of values are together: the value itself if there is one, and otherwise their
tuple. -/
def pack : List Value → Value
  | [value] => value
  | values => .tuple values

theorem pack_of_length_ne_one {values : List Value} (h : values.length ≠ 1) :
    pack values = .tuple values := by
  rw [pack]
  rintro value rfl
  exact h rfl

/-- Values fit if what they are together does. -/
theorem Fits.of_pack {size : String → Nat} {values : List Value} (h : (pack values).Fits size) :
    ∀ value ∈ values, value.Fits size := by
  by_cases hlength : values.length = 1
  · obtain ⟨value, rfl⟩ := List.length_eq_one_iff.1 hlength
    exact List.forall_mem_singleton.2 h
  · rw [pack_of_length_ne_one hlength] at h
    cases h with
    | tuple _ hvalues => exact hvalues

theorem Fits.pack {size : String → Nat} {values : List Value}
    (h : ∀ value ∈ values, value.Fits size) : (pack values).Fits size := by
  by_cases hlength : values.length = 1
  · obtain ⟨value, rfl⟩ := List.length_eq_one_iff.1 hlength
    exact h value List.mem_cons_self
  · rw [pack_of_length_ne_one hlength]
    exact .tuple hlength h

theorem toExprs_eq_map (values : List Value) : toExprs values = values.map toExpr := by
  induction values with
  | nil => rfl
  | cons value values ih => rw [toExprs, ih, List.map_cons]

mutual

/-- A value has no variables. -/
theorem names_toExpr (value : Value) : value.toExpr.names = [] := by
  cases value with
  | lit _ => rfl
  | con name fields =>
    cases fields with
    | nil => rfl
    | cons field fields =>
      rw [toExpr, names, names, namesList, names_toExpr field, namesList_toExprs fields]
      rfl
  | tuple components => rw [toExpr, names, namesList_toExprs components]

theorem namesList_toExprs (values : List Value) : namesList (toExprs values) = [] := by
  cases values with
  | nil => rfl
  | cons value values =>
    rw [toExprs, namesList, names_toExpr value, namesList_toExprs values]
    rfl

end

theorem not_mem_free_toExpr (name : String) (value : Value) : name ∉ value.toExpr.free := by
  intro h
  have hmem := free_subset_names _ h
  rw [names_toExpr] at hmem
  contradiction

mutual

/-- A value is a core expression. -/
theorem generates_toExpr (value : Value) : Grammar.core.Generates value.toExpr := by
  cases value with
  | lit literal => exact Grammar.generates_lit literal
  | con name fields =>
    cases fields with
    | nil => exact Grammar.generates_con name
    | cons field fields =>
      rw [toExpr]
      exact Grammar.generates_app.2 ⟨Grammar.generates_con name,
        List.forall_mem_cons.2 ⟨generates_toExpr field, generates_toExprs fields⟩⟩
  | tuple components =>
    rw [toExpr]
    exact Grammar.generates_tuple.2 (generates_toExprs components)

theorem generates_toExprs (values : List Value) :
    ∀ e ∈ toExprs values, Grammar.core.Generates e := by
  cases values with
  | nil => exact nofun
  | cons value values =>
    rw [toExprs]
    exact List.forall_mem_cons.2 ⟨generates_toExpr value, generates_toExprs values⟩

end

/-! ## The term of a value -/

/-- The term of a value. -/
def nameless (value : Value) : Nameless := value.toExpr.read Environment.primitives

/-- A value is read as the same term in every environment. -/
theorem read_toExpr (value : Value) (env : Environment) : value.toExpr.read env = value.nameless :=
  read_congr fun name hname => absurd hname (not_mem_free_toExpr name value)

theorem closed_nameless (value : Value) : value.nameless.Closed :=
  closedAt_read fun name _ => Environment.closed_primitives name

theorem nameless_con (name : String) (fields : List Value) :
    (Value.con name fields).nameless
      = (Nameless.const (.constructor name)).applyAll (fields.map nameless) := by
  cases fields with
  | nil => rfl
  | cons field fields =>
    rw [nameless, toExpr, read_app, toExprs_eq_map, ← List.map_cons, List.map_map]
    rfl

theorem nameless_tuple (components : List Value) :
    (Value.tuple components).nameless = Nameless.fieldsTerm (components.map nameless) := by
  rw [nameless, toExpr, read_tuple, toExprs_eq_map, List.map_map]
  rfl

theorem nameless_pack (values : List Value) :
    (pack values).nameless = Nameless.fieldsTerm (values.map nameless) := by
  by_cases hlength : values.length = 1
  · obtain ⟨value, rfl⟩ := List.length_eq_one_iff.1 hlength
    rfl
  · rw [pack_of_length_ne_one hlength, nameless_tuple]

/-- The kind of the term of a value. -/
def kind : Value → Kind
  | .lit literal => .literal literal
  | .con name _ => .data name
  | .tuple components => .tuple components.length

variable {size : String → Nat} {value : Value}

theorem kind_nameless (h : value.Fits size) : value.nameless.kind = value.kind := by
  cases h with
  | lit _ => rfl
  | con _ _ =>
    rw [nameless_con, Nameless.kind_const_applyAll]
    rfl
  | @tuple components hlength _ =>
    rw [nameless_tuple, Nameless.kind_fieldsTerm, List.length_map, kind]
    rwa [List.length_map]

/-- A test answers from the kind of a value. -/
theorem conv_test (h : value.Fits size) {primitive : Primitive} {answer : Bool}
    (hanswer : (Constant.primitive primitive).answer? [value.kind]
      = some (.literal (.bool answer))) :
    Nameless.Conv (.app (.const (.primitive primitive)) value.nameless)
      (.const (.literal (.bool answer))) :=
  Nameless.conv_test value.closed_nameless (by rwa [kind_nameless h])

/-- The fields of a constructor, as a tuple unless there is one. -/
theorem conv_argOf (name : String) (fields : List Value) :
    Nameless.Conv (.app (.const (.primitive (.argOf name))) (Value.con name fields).nameless)
      (Nameless.fieldsTerm (fields.map nameless)) := by
  refine Nameless.conv_answer [(Value.con name fields).nameless] .fields ?_ ?_ ?_
  · exact List.forall_mem_singleton.2 (closed_nameless _)
  · rw [List.map_singleton, nameless_con, Nameless.kind_const_applyAll, Constant.kind,
      Constant.answer?, if_pos rfl]
  · rw [List.head?_cons, Option.elim_some, nameless_con, Nameless.args_applyAll]
    rfl

/-- The parts of the tuple of some values are the values. -/
theorem conv_parts (values : List Value) {t : Nameless}
    (h : Nameless.Conv t (Nameless.fieldsTerm (values.map nameless))) :
    List.Forall₂ Nameless.Conv (Nameless.parts values.length t) (values.map nameless) := by
  have hclosed : ∀ component ∈ values.map nameless, component.Closed :=
    List.forall_mem_map.2 fun value _ => value.closed_nameless
  rw [← List.length_map (f := nameless)]
  exact Nameless.conv_parts hclosed h

end Value

/-- Patterns match the values that a tuple pattern of theirs matches together. -/
theorem Pattern.match?_tuple_pack {elements : List Pattern} {values : List Value}
    (h : elements.length = values.length) :
    match? (.tuple elements) (Value.pack values) = matchAll? elements values := by
  by_cases hlength : values.length = 1
  · obtain ⟨value, rfl⟩ := List.length_eq_one_iff.1 hlength
    obtain ⟨element, rfl⟩ := List.length_eq_one_iff.1 (h.trans hlength)
    rw [match?, matchAll?, matchAll?, Value.pack]
    simp
  · rw [Value.pack_of_length_ne_one hlength, match?_tuple (h ▸ hlength)]

/-! ## Environments -/

namespace Environment

/-- The environment in which the names that a match has bound stand for the terms of their values.
The first binding of a name counts. -/
def assign (env : Environment) (bindings : List (String × Value)) : Environment := fun name =>
  (bindings.lookup name).elim (env name) Value.nameless

theorem assign_singleton (env : Environment) (name : String) (value : Value) :
    env.assign [(name, value)] = Function.update env name value.nameless := by
  funext other
  by_cases h : other = name
  · rw [h, Function.update_self, assign, List.lookup_cons_self, Option.elim_some]
  · rw [Function.update_of_ne h, assign, List.lookup_cons, beq_eq_false_iff_ne.2 h]
    rfl

theorem assign_append (env : Environment) (bindings bindings' : List (String × Value)) :
    env.assign (bindings' ++ bindings) = (env.assign bindings).assign bindings' := by
  funext name
  rw [assign, assign, assign, List.lookup_append]
  cases bindings'.lookup name <;> rfl

theorem assign_of_not_mem {bindings : List (String × Value)} {name : String}
    (h : name ∉ bindings.map Prod.fst) (env : Environment) :
    env.assign bindings name = env name := by
  rw [assign, List.lookup_eq_none_iff.2 fun binding hbinding => ?_, Option.elim_none]
  exact bne_iff_ne.2 fun heq => h (List.mem_map.2 ⟨binding, hbinding, heq.symm⟩)

end Environment

end Clausal
