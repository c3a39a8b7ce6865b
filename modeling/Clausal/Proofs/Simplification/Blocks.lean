import Clausal.Proofs.Simplification.FreeVariables
import Clausal.Proofs.Simplification.Passes
import Clausal.Proofs.Simplification.Runs
import Clausal.Proofs.Surface.Reading

/-!
# Runs on blocks of values

The last two passes on a block of values that have core expressions: group nesting makes a nest of
its groups, and reelaboration binds each tuple in the nest through a fresh variable. What comes out
is read as the nest, up to conversion.

## Main results

* `Matching.conv_bindLazily`: names that are bound lazily stand for the parts of the value;
* `toFixpoint_groupNesting`: group nesting makes a nest of a block;
* `toFixpoint_nest`: reelaboration of a nest keeps what is read.
-/

namespace Clausal

open Clausal.Expr

variable {options : SimplifyOptions} {rules : List Rule} {supply : FreshSupply} {env : Environment}

/-! ## Lazy bindings -/

namespace Matching

theorem read_probe (env : Environment) (primitive : Primitive) (s : Expr) :
    (probe primitive s).read env = .app (.const (.primitive primitive)) (s.read env) :=
  read_app1 env _ s

theorem read_parts (env : Environment) (count : Nat) (s : Expr) :
    (parts count s).map (Expr.read env) = Nameless.parts count (s.read env) := by
  unfold parts Nameless.parts
  split
  · rfl
  · rw [selectors, List.map_map]
    exact List.map_congr_left fun i _ => read_probe env _ s

/-- A name that is bound to an expression stands for it. -/
theorem conv_bindName (name : String) (s body : Expr) (env : Environment) :
    Nameless.Conv ((bindName name s body).read env)
      (body.read (Function.update env name (s.read env))) := by
  have happ : Nameless.Conv ((app1 (lam1 name body) s).read env)
      (body.read (Function.update env name (s.read env))) := by
    rw [read_app1]
    exact conv_lam1 name body env _
  unfold bindName
  split
  · next other =>
    split
    -- the name is bound to itself
    · next heq =>
      rw [heq, Expr.read, Function.update_eq_self]
      exact .refl _
    · exact happ
  · exact happ

mutual

/-- Names that are bound lazily stand for the parts of the value. -/
theorem conv_bindLazily {pattern : Pattern} (hpattern : pattern.isIrrefutable = true) {s : Expr}
    (hs : ∀ name ∈ pattern.boundNames, name ∉ s.free) (body : Expr) (env : Environment) :
    Nameless.Conv ((bindLazily pattern s body).read env)
      (body.read (env.project pattern (s.read env))) := by
  cases pattern with
  | var name =>
    rw [bindLazily, Environment.project]
    exact conv_bindName name s body env
  | wildcard =>
    rw [bindLazily, Environment.project]
    exact .refl _
  | tuple elements =>
    rw [bindLazily, Environment.project, ← read_parts]
    refine conv_bindAllLazily hpattern (length_parts _ _) (fun part hpart name hname => ?_) body env
    exact fun hfree => hs name hname (mem_free_of_mem_parts hpart hfree)
  | lit _ | con _ _ => contradiction

theorem conv_bindAllLazily {patterns : List Pattern}
    (hpatterns : Pattern.areIrrefutable patterns = true) {ss : List Expr}
    (hlength : ss.length = patterns.length)
    (hss : ∀ s ∈ ss, ∀ name ∈ Pattern.boundNamesList patterns, name ∉ s.free) (body : Expr)
    (env : Environment) :
    Nameless.Conv ((bindAllLazily patterns ss body).read env)
      (body.read (env.projectAll patterns (ss.map (Expr.read env)))) := by
  cases patterns with
  | nil =>
    rw [bindAllLazily]
    · exact .refl _
    · exact nofun
  | cons pattern patterns =>
    cases ss with
    | nil => contradiction
    | cons s ss =>
      rw [Pattern.areIrrefutable, Bool.and_eq_true] at hpatterns
      obtain ⟨hs, hss⟩ := List.forall_mem_cons.1 hss
      have hleft {name : String} (h : name ∈ pattern.boundNames) :
          name ∈ Pattern.boundNamesList (pattern :: patterns) := List.mem_append_left _ h
      have hright {name : String} (h : name ∈ Pattern.boundNamesList patterns) :
          name ∈ Pattern.boundNamesList (pattern :: patterns) := List.mem_append_right _ h
      -- the first pattern binds nothing that the other values are made of
      have hread : ss.map (Expr.read (env.project pattern (s.read env))) = ss.map (Expr.read env) := by
        refine List.map_congr_left fun s' hs' => read_congr fun name hname => ?_
        exact Environment.project_of_not_mem _ _ _ fun hmem => hss s' hs' name (hleft hmem) hname
      rw [bindAllLazily, List.map_cons, Environment.projectAll]
      refine (conv_bindLazily hpatterns.1 (fun name h => hs name (hleft h)) _ env).trans ?_
      have hrest := conv_bindAllLazily hpatterns.2 (Nat.succ.inj hlength)
        (fun s' hs' name h => hss s' hs' name (hright h)) body (env.project pattern (s.read env))
      rwa [hread] at hrest

end

theorem frame_bindName (name : String) {s : Expr} (hs : Grammar.core.Generates s) :
    Frame options rules (bindName name s) := by
  have happ : Frame options rules fun body => app1 (lam1 name body) s :=
    Frame.app1_lam1 name hs
  cases s with
  | var other =>
    by_cases heq : other = name
    · rw [show bindName name (.var other) = fun body => body from funext fun _ => if_pos heq]
      exact Frame.hole
    · rw [show bindName name (.var other) = fun body => app1 (lam1 name body) (.var other) from
        funext fun _ => if_neg heq]
      exact happ
  | _ => exact happ

mutual

/-- Nothing fires around a body whose names are bound lazily. -/
theorem frame_bindLazily {pattern : Pattern} (hpattern : pattern.isIrrefutable = true) {s : Expr}
    (hs : Grammar.core.Generates s) : Frame options rules (bindLazily pattern s) := by
  cases pattern with
  | var name => exact frame_bindName name hs
  | wildcard => exact Frame.hole
  | tuple elements =>
    exact frame_bindAllLazily hpattern fun part hpart => generates_of_mem_parts hs hpart
  | lit _ | con _ _ => contradiction

theorem frame_bindAllLazily {patterns : List Pattern}
    (hpatterns : Pattern.areIrrefutable patterns = true) {ss : List Expr}
    (hss : ∀ s ∈ ss, Grammar.core.Generates s) :
    Frame options rules (bindAllLazily patterns ss) := by
  cases patterns with
  | nil => exact Frame.hole
  | cons pattern patterns =>
    cases ss with
    | nil => exact Frame.hole
    | cons s ss =>
      rw [Pattern.areIrrefutable, Bool.and_eq_true] at hpatterns
      obtain ⟨hs, hss⟩ := List.forall_mem_cons.1 hss
      exact (frame_bindLazily hpatterns.1 hs).comp (frame_bindAllLazily hpatterns.2 hss)

end

end Matching

/-! ## Nests -/

namespace FreshSupply

/-- All fresh variables have the stem of the variable that a tuple pattern is bound through. -/
theorem stem_nameOf (number : Nat) : Term.stem (nameOf number) = "x" := by
  have hstem : Term.stem "x" = "x" := by decide
  rw [nameOf]
  exact hstem ▸ Term.stem_append_toString "x" number

end FreshSupply

/-- A tuple that is bound through a fresh variable is read as the tuple. -/
theorem conv_flattenTuple {pattern : Pattern} (hpattern : pattern.isIrrefutable = true)
    (hvar : pattern.isVar = false) {name : String} (hstem : Term.stem name = "x") {value body : Expr}
    (hbound : name ∉ pattern.boundNames) (hvalue : name ∉ value.free) (hbody : name ∉ body.free)
    (env : Environment) :
    Nameless.Conv
      ((letIn [.value (.var name) (Matching.bindLazily pattern (.var name) value)]
        (Matching.bindLazily pattern (.var name) body)).read env)
      ((letIn [.value pattern value] body).read env) := by
  have hs : ∀ other ∈ pattern.boundNames, other ∉ (Expr.var name).free := fun other hother hmem =>
    hbound (List.mem_singleton.1 hmem ▸ hother)
  -- in an environment that binds the fresh variable, the pattern binds the parts of it
  have hlazy {e : Expr} (he : name ∉ e.free) (env : Environment) (u : Nameless) :
      Nameless.Conv ((Matching.bindLazily pattern (.var name) e).read (Function.update env name u))
        (e.read (env.project pattern u)) := by
    refine (Matching.conv_bindLazily hpattern hs e _).trans (conv_read fun other hother => ?_)
    rw [Expr.read, Function.update_self]
    refine Environment.conv_project hpattern (.refl u) fun _ => ?_
    rw [Function.update_of_ne (ne_of_mem_of_not_mem hother he)]
    exact .refl _
  have hfixpoint : Nameless.Conv
      (env.fixpoint (.var name) fun env => (Matching.bindLazily pattern (.var name) value).read env)
      (env.fixpoint pattern fun env => value.read env) := by
    have hpatternStem : pattern.stem = "x" := by
      cases pattern with
      | var _ => contradiction
      | _ => rfl
    rw [Environment.fixpoint, Environment.fixpoint, Pattern.stem, hstem, hpatternStem,
      Environment.project]
    exact (Nameless.Conv.refl _).app ((hlazy hvalue _ _).abs _)
  rw [read_letIn rfl, read_letIn hpattern, Environment.project]
  refine (hlazy hbody env _).trans (conv_read fun other _ => ?_)
  exact Environment.conv_project hpattern hfixpoint fun _ => .refl _

/-- A free variable of a nest is one of the body or of a value. -/
theorem mem_free_nest_cases {bindings : List (Pattern × Expr)} {body : Expr} {name : String}
    (h : name ∈ (nest bindings body).free) :
    name ∈ body.free ∨ ∃ binding ∈ bindings, name ∈ binding.2.free := by
  induction bindings with
  | nil => exact .inl h
  | cons binding bindings ih =>
    rw [nest_cons] at h
    rcases (mem_free_letIn_value.1 h).1 with h | h
    · exact .inr ⟨binding, List.mem_cons_self, h⟩
    · refine (ih h).imp_right ?_
      rintro ⟨other, hother, h⟩
      exact ⟨other, List.mem_cons_of_mem _ hother, h⟩

/-- A nest of values that have core expressions, bound by irrefutable patterns. -/
theorem generates_nest {bindings : List (Pattern × Expr)} {body : Expr}
    (hpatterns : ∀ binding ∈ bindings, binding.1.isIrrefutable = true)
    (hvalues : ∀ binding ∈ bindings, Grammar.nested.Generates binding.2)
    (hbody : Grammar.nested.Generates body) : Grammar.nested.Generates (nest bindings body) := by
  induction bindings with
  | nil => exact hbody
  | cons binding bindings ih =>
    rw [List.forall_mem_cons] at hpatterns hvalues
    refine Grammar.generates_letIn.2 ⟨⟨Nat.le_refl 1, ?_⟩, ?_, ih hpatterns.2 hvalues.2⟩
    · rw [List.map_singleton, List.forall_mem_singleton]
      exact hpatterns.1
    · rw [Decl.bodies_value, Decl.bodies_nil, List.forall_mem_singleton]
      exact hvalues.1


/-! ## Reelaboration -/

/-- An expression that has a core expression is one of a nest. -/
theorem Grammar.Generates.nested {e : Expr} (h : Grammar.core.Generates e) :
    Grammar.nested.Generates e := by
  refine h.imp fun c hc => ?_
  cases c with
  | letIn decls body =>
    obtain hnil | ⟨name, hname⟩ := hc
    · rw [Admits, Grammar.nested, hnil]
      exact ⟨Nat.zero_le 1, List.forall_mem_nil _⟩
    · rw [Admits, Grammar.nested, hname]
      exact ⟨Nat.le_refl 1, List.forall_mem_singleton.2 rfl⟩
  | var _ | lit _ | con _ | prim _ | app _ _ | tuple _ | cond _ _ _ => trivial
  | lam _ _ | caseOf _ _ => exact hc

/-- In a nest, only flattening has something to do. -/
theorem Grammar.idle_of_admits_nested {e : Expr} (h : Grammar.nested.Admits e) {rule : Rule}
    (hrule : rule ∈ [Rule.currying, .patternLambda, .caseElimination]) : rule.Idle e := by
  intro options supply
  rw [List.mem_cons, List.mem_cons, List.mem_singleton] at hrule
  cases e with
  | var _ | lit _ | con _ | prim _ | app _ _ | tuple _ | cond _ _ _ | letIn _ _ =>
    obtain rfl | rfl | rfl := hrule <;> rfl
  | lam params body =>
    obtain ⟨name, rfl⟩ := h
    obtain rfl | rfl | rfl := hrule <;> rfl
  | caseOf _ _ => exact h.elim

/-- A round of reelaboration flattens one tuple of a nest. -/
theorem toFixpoint_of_flattens {e e' : Expr} {supply' : FreshSupply}
    (h : Grammar.nested.Generates e)
    (hfire : flattenTuple? supply e = some (e', supply')) :
    (toFixpoint options Pass.reelaboration.rules supply e).result
      = (toFixpoint options Pass.reelaboration.rules supply' e').result := by
  have hidle : ∀ rule ∈ [Rule.currying, .patternLambda, .caseElimination],
      fireFirst (rule.fire options supply) e = .ok none := fun rule hrule =>
    Rule.fireFirst_eq_none_iff_idle.2 (h.imp fun _ hc => Grammar.idle_of_admits_nested hc hrule)
  have hflatten : fireFirst (Rule.letTupleFlattening.fire options supply) e
      = .ok (some (e', supply')) := by
    rw [fireFirst_eq, Rule.fire, hfire, Attempt.some_orElse]
  have hround : round options Pass.reelaboration.rules supply e
      = ⟨[.letTupleFlattening], .ok (e', supply')⟩ := by
    rw [Pass.rules, round, hidle _ (by decide)]
    dsimp only
    rw [round, hidle _ (by decide)]
    dsimp only
    rw [round, hidle _ (by decide)]
    dsimp only
    rw [round, hflatten]
    rfl
  rw [toFixpoint_of_round_cons hround]
  rfl

/-- A tuple is bound through a fresh variable. -/
theorem flattenTuple?_tuple {elements : List Pattern}
    (hpattern : (Pattern.tuple elements).isIrrefutable = true) (value body : Expr) :
    flattenTuple? supply (letIn [.value (.tuple elements) value] body)
      = some (letIn [.value (.var supply.draw.1)
          (Matching.bindLazily (.tuple elements) (.var supply.draw.1) value)]
        (Matching.bindLazily (.tuple elements) (.var supply.draw.1) body), supply.draw.2) := by
  rw [flattenTuple?]
  · simp [Pattern.isVar, Pattern.asVar?, hpattern]
  · intro heq
    cases heq

theorem frame_letIn_var (name : String) {value : Expr} (hvalue : Grammar.core.Generates value) :
    Frame options rules (letIn [.value (.var name) value]) := by
  refine Frame.letIn (fun rule _ supply body => ?_) (List.forall_mem_singleton.2 hvalue)
  cases rule <;> rfl

/-- What flattening puts around the body of a block is left as it is. -/
theorem frame_flattened {pattern : Pattern} (hpattern : pattern.isIrrefutable = true)
    (name : String) {value : Expr} (hvalue : Grammar.core.Generates value) :
    Frame options rules fun body =>
      letIn [.value (.var name) (Matching.bindLazily pattern (.var name) value)]
        (Matching.bindLazily pattern (.var name) body) := by
  have hlambda : ∀ other, Grammar.core.lambda [.var other] := fun other => ⟨other, rfl⟩
  exact Frame.comp
    (frame_letIn_var name
      (Matching.generates_bindLazily hlambda pattern (Grammar.generates_var name) hvalue))
    (Matching.frame_bindLazily hpattern (Grammar.generates_var name))

/-- Reelaboration of a block of one tuple binds the tuple through the next variable, and then goes on
inside. -/
theorem toFixpoint_letIn_tuple {elements : List Pattern} {value e e' : Expr}
    {supply' : FreshSupply} (hpattern : (Pattern.tuple elements).isIrrefutable = true)
    (hvalue : Grammar.core.Generates value)
    (hgenerates : Grammar.nested.Generates (letIn [.value (.tuple elements) value] e))
    (hresult : (toFixpoint options Pass.reelaboration.rules supply.draw.2 e).result
      = .ok (e', supply')) :
    ∃ e'', (toFixpoint options Pass.reelaboration.rules supply
        (letIn [.value (.tuple elements) value] e)).result = .ok (e'', supply')
      ∧ (supply.draw.1 ∉ (Pattern.tuple elements).boundNames ++ value.free ++ e.free →
        ∀ env, Nameless.Conv (e''.read env)
          ((letIn [.value (.tuple elements) value] e').read env)) := by
  have hflattens := (toFixpoint_of_flattens hgenerates (flattenTuple?_tuple hpattern value _)).trans
    ((frame_flattened hpattern supply.draw.1 hvalue).toFixpoint_eq_ok hresult)
  refine ⟨_, hflattens, fun hfresh => ?_⟩
  simp only [List.mem_append, not_or] at hfresh
  -- reelaboration brings no variable in, so the one that is drawn stays fresh
  exact conv_flattenTuple hpattern rfl (FreshSupply.stem_nameOf _) hfresh.1.1 hfresh.1.2
    fun hmem => hfresh.2 (toFixpoint_free_subset hresult hmem)

/-- How many fresh variables the bindings of a nest need. -/
def freshCount (bindings : List (Pattern × Expr)) : Nat :=
  bindings.countP fun binding => !binding.1.isVar && !(binding.1 matches .wildcard)

section FreshCount

variable (value : Expr) (bindings : List (Pattern × Expr))

theorem freshCount_var (name : String) :
    freshCount ((.var name, value) :: bindings) = freshCount bindings :=
  List.countP_cons_of_neg (by simp [Pattern.isVar, Pattern.asVar?])

theorem freshCount_wildcard : freshCount ((.wildcard, value) :: bindings) = freshCount bindings :=
  List.countP_cons_of_neg (by simp [Pattern.isVar, Pattern.asVar?])

theorem freshCount_tuple (elements : List Pattern) :
    freshCount ((.tuple elements, value) :: bindings) = freshCount bindings + 1 :=
  List.countP_cons_of_pos (by simp [Pattern.isVar, Pattern.asVar?])

end FreshCount

/-- Reelaboration of a nest binds its tuples through the next variables. It keeps what is read if
these variables are fresh. -/
theorem toFixpoint_nest {bindings : List (Pattern × Expr)} {body : Expr}
    (hpatterns : ∀ binding ∈ bindings, binding.1.isIrrefutable = true)
    (hvalues : ∀ binding ∈ bindings, Grammar.core.Generates binding.2)
    (hbody : Grammar.core.Generates body) :
    ∃ e', (toFixpoint options Pass.reelaboration.rules supply (nest bindings body)).result
        = .ok (e', ⟨supply.next + freshCount bindings⟩)
      ∧ ((∀ number, supply.next ≤ number → number < supply.next + freshCount bindings →
          FreshSupply.nameOf number ∉ body.free ∧ ∀ binding ∈ bindings,
            FreshSupply.nameOf number ∉ binding.1.boundNames
              ∧ FreshSupply.nameOf number ∉ binding.2.free) →
        ∀ env, Nameless.Conv (e'.read env) ((nest bindings body).read env)) := by
  induction bindings generalizing supply with
  | nil => exact ⟨body, toFixpoint_of_core _ supply hbody, fun _ env => .refl _⟩
  | cons binding bindings ih =>
    obtain ⟨pattern, value⟩ := binding
    have hnest : Grammar.nested.Generates (nest ((pattern, value) :: bindings) body) :=
      generates_nest hpatterns (fun binding hbinding => (hvalues binding hbinding).nested)
        hbody.nested
    rw [List.forall_mem_cons] at hpatterns hvalues
    obtain ⟨hpattern, hpatterns⟩ := hpatterns
    obtain ⟨hvalue, hvalues⟩ := hvalues
    cases pattern with
    | var name =>
      rw [freshCount_var]
      obtain ⟨e', hresult, hconv⟩ := @ih supply hpatterns hvalues
      refine ⟨_, (frame_letIn_var name hvalue).toFixpoint_eq_ok hresult, fun hfresh env => ?_⟩
      rw [nest_cons, read_letIn rfl, read_letIn rfl]
      refine hconv (fun number hle hlt => ?_) _
      exact (hfresh number hle hlt).imp_right fun h => (List.forall_mem_cons.1 h).2
    | wildcard =>
      rw [freshCount_wildcard]
      obtain ⟨e', hresult, hconv⟩ := @ih supply hpatterns hvalues
      refine ⟨e', (toFixpoint_of_flattens hnest rfl).trans hresult, fun hfresh env => ?_⟩
      rw [nest_cons, read_letIn rfl, Environment.project]
      refine hconv (fun number hle hlt => ?_) env
      exact (hfresh number hle hlt).imp_right fun h => (List.forall_mem_cons.1 h).2
    | tuple elements =>
      rw [freshCount_tuple, Nat.add_comm (freshCount bindings), ← Nat.add_assoc]
      -- the tuple takes the next variable, and the bindings further in take those after it
      obtain ⟨e', hresult, hconv⟩ := @ih supply.draw.2 hpatterns hvalues
      obtain ⟨e'', hresult', hconv'⟩ := toFixpoint_letIn_tuple hpattern hvalue hnest hresult
      refine ⟨e'', hresult', fun hfresh env => ?_⟩
      obtain ⟨hbody, hbindings⟩ := hfresh supply.next (Nat.le_refl _) (by omega)
      obtain ⟨⟨hbound, hfree⟩, hbindings⟩ := List.forall_mem_cons.1 hbindings
      refine (hconv' ?_ env).trans ?_
      · simp only [List.mem_append, not_or]
        refine ⟨⟨hbound, hfree⟩, fun hmem => ?_⟩
        rcases mem_free_nest_cases hmem with hmem | ⟨b, hb, hmem⟩
        · exact hbody hmem
        · exact (hbindings b hb).2 hmem
      · rw [nest_cons, read_letIn hpattern, read_letIn hpattern]
        refine hconv (fun number hle hlt => ?_) _
        exact (hfresh number (Nat.le_of_succ_le hle) hlt).imp_right
          fun h => (List.forall_mem_cons.1 h).2
    | lit _ | con _ _ => contradiction

/-! ## Group nesting -/

namespace Grouping

variable {bindings : List (Pattern × Expr)} {groups : List (List (Pattern × Expr))}
  (h : Grouping bindings groups)

include h

theorem mem_bindings {group : List (Pattern × Expr)} (hgroup : group ∈ groups)
    {binding : Pattern × Expr} (hbinding : binding ∈ group) : binding ∈ bindings :=
  h.perm.subset (List.mem_flatten.2 ⟨group, hgroup, hbinding⟩)

theorem exists_of_mem_boundNames {binding : Pattern × Expr}
    (hbinding : binding ∈ groups.map groupBinding) {name : String}
    (hname : name ∈ binding.1.boundNames) : ∃ binder ∈ bindings, name ∈ binder.1.boundNames := by
  obtain ⟨group, hgroup, rfl⟩ := List.mem_map.1 hbinding
  obtain ⟨binder, hbinder, hname⟩ := mem_boundNames_groupBinding.1 hname
  exact ⟨binder, h.mem_bindings hgroup hbinder, hname⟩

theorem exists_of_mem_free {binding : Pattern × Expr}
    (hbinding : binding ∈ groups.map groupBinding) {name : String}
    (hname : name ∈ binding.2.free) : ∃ user ∈ bindings, name ∈ user.2.free := by
  obtain ⟨group, hgroup, rfl⟩ := List.mem_map.1 hbinding
  obtain ⟨user, huser, hname⟩ := mem_free_groupBinding.1 hname
  exact ⟨user, h.mem_bindings hgroup huser, hname⟩

theorem length_le : groups.length ≤ bindings.length := by
  rw [← h.perm.length_eq, List.length_flatten, ← List.length_map List.length]
  refine List.length_le_sum_of_one_le _ (List.forall_mem_map.2 fun group hgroup => ?_)
  exact List.length_pos_iff.2 (h.nonempty group hgroup)

theorem isIrrefutable (hpatterns : ∀ binding ∈ bindings, binding.1.isIrrefutable = true) :
    ∀ binding ∈ groups.map groupBinding, binding.1.isIrrefutable = true :=
  List.forall_mem_map.2 fun _ hgroup => isIrrefutable_groupBinding fun binding hbinding =>
    hpatterns binding (h.mem_bindings hgroup hbinding)

theorem generates {g : Grammar} (hvalues : ∀ binding ∈ bindings, g.Generates binding.2) :
    ∀ binding ∈ groups.map groupBinding, g.Generates binding.2 := by
  rw [List.forall_mem_map]
  intro group hgroup
  have hmember : ∀ binding ∈ group, g.Generates binding.2 := fun binding hbinding =>
    hvalues binding (h.mem_bindings hgroup hbinding)
  unfold groupBinding
  split
  · exact hmember _ List.mem_cons_self
  · exact Grammar.generates_tuple.2 (List.forall_mem_map.2 hmember)

end Grouping

/-- In a nest there is nothing to nest. -/
theorem idle_groupNesting_of_nested {e : Expr} (h : Grammar.nested.Generates e) :
    ∀ rule ∈ Pass.groupNesting.rules, e.Everywhere rule.Idle := by
  refine List.forall_mem_singleton.2 (h.imp fun c hc options supply => ?_)
  cases c with
  | letIn decls body =>
    have hlength : decls.length ≤ 1 := by simpa using hc.1
    have hshort : ¬2 ≤ decls.length := by omega
    rw [Rule.fire, nestGroups?, decide_eq_false hshort]
    rfl
  | _ => rfl

/-- Group nesting makes a nest of the groups of a block, whatever its body. The members of a group
use each other, directly or through others. -/
theorem toFixpoint_groupNesting {bindings : List (Pattern × Expr)} (hne : bindings ≠ [])
    (hpatterns : ∀ binding ∈ bindings, binding.1.isIrrefutable = true)
    (hvalues : ∀ binding ∈ bindings, Grammar.core.Generates binding.2) :
    ∃ groups, Grouping bindings groups
      ∧ (∀ group ∈ groups, ∀ user ∈ group, ∀ binder ∈ group,
        Relation.ReflTransGen (Uses bindings) user binder)
      ∧ ∀ options supply body, Grammar.core.Generates body →
        (toFixpoint options Pass.groupNesting.rules supply
          (letIn (valueDecls bindings) body)).result
          = .ok (nest (groups.map groupBinding) body, supply) := by
  by_cases hlength : 2 ≤ bindings.length
  · obtain ⟨groups, hgroups, huses, hnest⟩ := exists_nestGroups?_eq hlength
    refine ⟨groups, hgroups, huses, fun options supply body hbody => ?_⟩
    -- the rule fires once, at the block, and has nothing to do in the nest
    have hround : round options Pass.groupNesting.rules supply (letIn (valueDecls bindings) body)
        = ⟨[.groupNesting], .ok (nest (groups.map groupBinding) body, supply)⟩ := by
      rw [Pass.rules, round, fireFirst_eq, Rule.fire, hnest body]
      rfl
    have hgenerates : Grammar.nested.Generates (nest (groups.map groupBinding) body) :=
      generates_nest (hgroups.isIrrefutable hpatterns)
        (hgroups.generates fun binding hbinding => (hvalues binding hbinding).nested) hbody.nested
    rw [toFixpoint_of_round_cons hround,
      toFixpoint_of_round_nil (round_eq_self_iff.2 (idle_groupNesting_of_nested hgenerates))]
    rfl
  -- a block of one value is its own nest
  · obtain ⟨binding, rfl⟩ : ∃ binding, bindings = [binding] := by
      rw [← List.length_eq_one_iff]
      have := List.length_pos_iff.2 hne
      omega
    refine ⟨[[binding]], ⟨?_, .refl _, List.pairwise_singleton _ _⟩, ?_,
      fun options supply body hbody => ?_⟩
    · exact List.forall_mem_singleton.2 (List.cons_ne_nil _ _)
    · simp only [List.forall_mem_singleton]
      exact .refl
    · have hgenerates : Grammar.nested.Generates (nest [binding] body) :=
        generates_nest hpatterns (fun binding hbinding => (hvalues binding hbinding).nested)
          hbody.nested
      have hround : round options Pass.groupNesting.rules supply (nest [binding] body)
          = ⟨[], .ok (nest [binding] body, supply)⟩ :=
        round_eq_self_iff.2 (idle_groupNesting_of_nested hgenerates)
      exact congrArg Run.result (toFixpoint_of_round_nil hround)

end Clausal
