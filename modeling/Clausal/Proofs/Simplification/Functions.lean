import Clausal.Proofs.Simplification.Fusion

/-!
# Elaboration of functions

The second pass on a block of functions that clause fusion has made. It takes the variables of each
function in turn and expands the case of each function into a chain of matches, in an order of its
own. How far it has come with a function is a state of the function, which tells the supply that a
chain of matches was made with.

## Main results

* `Elaborating.fireFirst_value`: what a rule of elaboration does to a function;
* `ElaboratingAll.step`: what it does to the functions of a block;
* `exists_elaborated`: what elaboration makes of the functions of a block.
-/

namespace Clausal

open Clausal.Expr

variable {options : SimplifyOptions} {rule : Rule} {rules : List Rule}
  {supply supply' : FreshSupply} {decls decls' : List (Decl Expr)}

/-! ## Functions of variables -/

/-- A function of some variables in turn. -/
def curried (names : List String) (body : Expr) : Expr := names.foldr lam1 body

theorem generates_curried {g : Grammar} (hvar : ∀ name, g.lambda [.var name]) {names : List String}
    {body : Expr} : g.Generates (curried names body) ↔ g.Generates body := by
  induction names with
  | nil => exact Iff.rfl
  | cons name names ih => exact Grammar.generates_lam1.trans ((and_iff_right (hvar name)).trans ih)

theorem Frame.curried (names : List String) : Frame options rules (curried names) := by
  induction names with
  | nil => exact Frame.hole
  | cons name names ih => exact (Frame.lam1 name).comp ih

theorem curry?_lam_var (names : List String) (body : Expr) :
    curry? (.lam (names.map .var) body)
      = if 2 ≤ names.length then some (curried names body) else none := by
  rcases names with _ | ⟨first, _ | ⟨second, names⟩⟩
  · rfl
  · rfl
  · rw [if_pos (by simp), curried, List.map_cons, List.map_cons, curry?, ← List.map_cons,
      ← List.map_cons, List.foldr_map]
    rfl

/-- Where a rule of elaboration fires in a function of some variables at once, it takes them in
turn, or it fires in the body. -/
theorem fireFirst_lam_var {names : List String} (hrule : rule ∈ Pass.elaboration.rules)
    {body e : Expr} (h : fireFirst (rule.fire options supply) (.lam (names.map .var) body)
      = .ok (some (e, supply'))) :
    (e = curried names body ∧ supply' = supply) ∨ ∃ body',
      fireFirst (rule.fire options supply) body = .ok (some (body', supply'))
        ∧ e = .lam (names.map .var) body' := by
  rw [fireFirst.eq_def, Attempt.orElse_eq_some, Attempt.map_eq_some] at h
  obtain h | ⟨-, body', hbody, rfl⟩ := h
  · left
    fin_cases hrule
    · rw [Rule.fire, curry?_lam_var] at h
      split at h
      · cases h
        exact ⟨rfl, rfl⟩
      · cases h
    · rcases names with _ | ⟨name, _ | ⟨_, _⟩⟩ <;> cases h
    · cases h
    · cases h
  · exact .inr ⟨body', hbody, rfl⟩

/-! ## The state of a function -/

/-- How far elaboration has come with a function. -/
structure Elaborating where
  /-- The name of the function, with its variables. -/
  function : String × List String
  /-- Whether the variables are taken in turn. -/
  isCurried : Bool
  /-- The supply that the chain of matches was made with, if the case is expanded. -/
  chain? : Option FreshSupply

namespace Elaborating

/-- What the variables of the function are matched with. -/
def arms (decls : List (Decl Expr)) (state : Elaborating) : List (Arm Expr) :=
  armsOf (clausesOf state.function.1 decls)

/-- The scrutinee of the function. -/
def scrutinee (state : Elaborating) : Expr := .tuple (state.function.2.map .var)

/-- The body of the function. -/
def body (options : SimplifyOptions) (decls : List (Decl Expr)) (state : Elaborating) : Expr :=
  match state.chain? with
  | none => .caseOf state.scrutinee (state.arms decls)
  | some supply =>
    (matchChain options.shareFallthrough state.scrutinee supply (state.arms decls)).1

/-- The function. -/
def value (options : SimplifyOptions) (decls : List (Decl Expr)) (state : Elaborating) : Expr :=
  if state.isCurried then curried state.function.2 (state.body options decls)
  else .lam (state.function.2.map .var) (state.body options decls)

/-- The binding of the function. -/
def binding (options : SimplifyOptions) (decls : List (Decl Expr)) (state : Elaborating) :
    Pattern × Expr :=
  (.var state.function.1, state.value options decls)

/-- Whether the variables of the chain of matches, if there is one, are between two numbers. -/
def Within (options : SimplifyOptions) (decls : List (Decl Expr)) (low high : Nat)
    (state : Elaborating) : Prop :=
  ∀ supply ∈ state.chain?, low ≤ supply.next
    ∧ (matchChain options.shareFallthrough state.scrutinee supply (state.arms decls)).2.next ≤ high

variable {state : Elaborating}

theorem Within.mono {low high high' : Nat} (h : state.Within options decls low high)
    (hle : high ≤ high') : state.Within options decls low high' :=
  fun supply hsupply => ⟨(h supply hsupply).1, (h supply hsupply).2.trans hle⟩

/-- The variables of a function can be copied into its arms. -/
theorem isCopyable_scrutinee
    (h : ∀ name ∈ state.function.2, ∀ clause ∈ clausesOf state.function.1 decls,
      name ∉ Pattern.boundNamesList clause.1) :
    isCopyable (state.arms decls) state.scrutinee = true := by
  simp only [scrutinee, isCopyable, List.all_eq_true, List.forall_mem_map, isCopyableLeaf,
    Bool.not_eq_true', List.any_eq_false, arms, armsOf, Pattern.binds]
  intro name hname clause hclause hmem
  exact h name hname clause hclause (List.contains_iff_mem.1 hmem)

/-- Only the case of a function has something to do in its body: it is expanded. -/
theorem fireFirst_body (hdecls : FunctionClauses decls) (hrule : rule ∈ Pass.elaboration.rules)
    (hcopyable : isCopyable (state.arms decls) state.scrutinee = true) {e : Expr}
    (h : fireFirst (rule.fire options supply) (state.body options decls)
      = .ok (some (e, supply'))) :
    state.chain? = none ∧ (e, supply')
      = matchChain options.shareFallthrough state.scrutinee supply (state.arms decls) := by
  have hscrutinee : Grammar.core.Generates state.scrutinee := generates_tuple_var _
  have harms : ∀ arm ∈ state.arms decls, Grammar.core.Generates arm.body :=
    List.forall_mem_map.2 fun clause hclause => hdecls.generates hclause
  rw [body] at h
  cases hchain : state.chain? with
  | some _ =>
    have hcore := Grammar.generates_matchChain (g := .core) (fun name => ⟨name, rfl⟩)
      options.shareFallthrough hscrutinee
    rw [hchain] at h
    rw [fireFirst_of_core rule (hcore _ harms)] at h
    cases h
  | none =>
    rw [hchain] at h
    dsimp only at h
    rw [fireFirst_caseOf hscrutinee harms] at h
    refine ⟨rfl, ?_⟩
    fin_cases hrule
    · cases h
    · cases h
    · rw [Rule.fire, expandCase?, if_pos hcopyable] at h
      exact (Option.some.inj (Except.ok.inj h)).symm
    · cases h

/-- What a rule of elaboration does to a function: it takes its variables in turn, or expands its
case. -/
theorem fireFirst_value (hdecls : FunctionClauses decls) (hrule : rule ∈ Pass.elaboration.rules)
    (hcopyable : isCopyable (state.arms decls) state.scrutinee = true) {e : Expr}
    (h : fireFirst (rule.fire options supply) (state.value options decls)
      = .ok (some (e, supply'))) :
    (e = { state with isCurried := true }.value options decls ∧ supply' = supply)
      ∨ (state.chain? = none ∧ e = { state with chain? := some supply }.value options decls
        ∧ supply' = (matchChain options.shareFallthrough state.scrutinee supply
          (state.arms decls)).2) := by
  rw [value] at h
  split at h
  · next hcurried =>
    rw [Frame.curried state.function.2 rule hrule, Attempt.map_eq_some] at h
    obtain ⟨body', hbody, rfl⟩ := h
    obtain ⟨hchain, heq⟩ := fireFirst_body hdecls hrule hcopyable hbody
    obtain rfl : body' = _ := congrArg Prod.fst heq
    exact .inr ⟨hchain, (if_pos hcurried).symm, congrArg Prod.snd heq⟩
  · next hcurried =>
    obtain ⟨rfl, rfl⟩ | ⟨body', hbody, rfl⟩ := fireFirst_lam_var hrule h
    · exact .inl ⟨rfl, rfl⟩
    · obtain ⟨hchain, heq⟩ := fireFirst_body hdecls hrule hcopyable hbody
      obtain rfl : body' = _ := congrArg Prod.fst heq
      exact .inr ⟨hchain, (if_neg hcurried).symm, congrArg Prod.snd heq⟩

end Elaborating

/-! ## Runs of elaboration -/

/-- A block of functions with which elaboration has come some way. -/
def elaborating (options : SimplifyOptions) (decls : List (Decl Expr)) (states : List Elaborating) :
    List (Decl Expr) :=
  valueDecls (states.map (Elaborating.binding options decls))

theorem bodies_elaborating (states : List Elaborating) :
    Decl.bodies (elaborating options decls states)
      = states.map (Elaborating.value options decls) := by
  simp [elaborating, valueDecls, Decl.bodies, List.filterMap_map, Function.comp_def, Decl.body?,
    Elaborating.binding]

/-- Other values of the same functions. -/
theorem withBodies_elaborating {states states' : List Elaborating}
    (h : states'.map Elaborating.function = states.map Elaborating.function) :
    Decl.withBodies (elaborating options decls states)
        (states'.map (Elaborating.value options decls))
      = elaborating options decls states' := by
  induction states generalizing states' with
  | nil => rw [List.map_eq_nil_iff.1 h]; rfl
  | cons state states ih =>
    obtain ⟨state', states', rfl, hstate, hstates⟩ := List.map_eq_cons_iff.1 h
    have hdecl : Decl.value (.var state.function.1) (state'.value options decls)
        = .value (.var state'.function.1) (state'.value options decls) := by
      rw [hstate]
    exact congrArg₂ List.cons hdecl (ih hstates)

/-- What is known while some functions are elaborated: the variables of the chains of matches were
drawn since the start. -/
structure ElaboratingAll (options : SimplifyOptions) (decls : List (Decl Expr))
    (functions : List (String × List String)) (low : Nat) (states : List Elaborating)
    (supply : FreshSupply) : Prop where
  map_function : states.map Elaborating.function = functions
  within : ∀ state ∈ states, state.Within options decls low supply.next
  low_le : low ≤ supply.next

namespace ElaboratingAll

variable {functions : List (String × List String)} {low : Nat} {states : List Elaborating}

/-- At the start every function takes its variables at once and has a case. -/
theorem initial (functions : List (String × List String)) (supply : FreshSupply) :
    ElaboratingAll options decls functions supply.next
      (functions.map fun function => ⟨function, false, none⟩) supply where
  map_function := by
    rw [List.map_map]
    exact List.map_id _
  within := by
    refine List.forall_mem_map.2 fun function _ supply hsupply => ?_
    cases hsupply
  low_le := Nat.le_refl _

/-- One of the functions may be in another state, with the variables that were drawn for it. -/
theorem set {state state' : Elaborating} {before after : List Elaborating}
    (h : ElaboratingAll options decls functions low (before ++ state :: after) supply)
    (hfunction : state'.function = state.function) (hnext : supply.next ≤ supply'.next)
    (hwithin : state'.Within options decls low supply'.next) :
    ElaboratingAll options decls functions low (before ++ state' :: after) supply' where
  map_function := by
    rw [← h.map_function, List.map_append, List.map_append, List.map_cons, List.map_cons, hfunction]
  within := by
    have hall := fun other hother => (h.within other hother).mono hnext
    rw [List.forall_mem_append, List.forall_mem_cons] at hall ⊢
    exact ⟨hall.1, hwithin, hall.2.2⟩
  low_le := h.low_le.trans hnext

/-- Elaboration takes one step with one of the functions. -/
theorem step (hdecls : FunctionClauses decls) (hrule : rule ∈ Pass.elaboration.rules)
    (hnames : ∀ function ∈ functions, ∀ name ∈ function.2, ∀ clause ∈ clausesOf function.1 decls,
      name ∉ Pattern.boundNamesList clause.1)
    (h : ElaboratingAll options decls functions low states supply)
    (hfire : fireDecls options rule supply (elaborating options decls states)
      = .ok (some (decls', supply'))) :
    ∃ states', decls' = elaborating options decls states'
      ∧ ElaboratingAll options decls functions low states' supply' := by
  have hfusion : rule ≠ .clauseFusion := by
    rintro rfl
    revert hrule
    decide
  rw [fireDecls, if_neg hfusion, Attempt.none_orElse, fireFirstOfDecls_eq, bodies_elaborating,
    Attempt.map_eq_some] at hfire
  obtain ⟨values, hvalues, rfl⟩ := hfire
  obtain ⟨before, value, value', after, hsplit, rfl, hfire⟩ := exists_of_fireFirstOf_eq_some hvalues
  obtain ⟨statesBefore, statesAfter, rfl, rfl, hafter⟩ := List.map_eq_append_iff.1 hsplit
  obtain ⟨state, statesAfter, rfl, rfl, rfl⟩ := List.map_eq_cons_iff.1 hafter
  have hmem : state ∈ statesBefore ++ state :: statesAfter :=
    List.mem_append_right _ List.mem_cons_self
  have hcopyable : isCopyable (state.arms decls) state.scrutinee = true :=
    Elaborating.isCopyable_scrutinee
      (hnames _ (h.map_function ▸ List.mem_map_of_mem hmem))
  have hstates (state' : Elaborating) (hfunction : state'.function = state.function) :
      Decl.withBodies (elaborating options decls (statesBefore ++ state :: statesAfter))
          (statesBefore.map (Elaborating.value options decls) ++ state'.value options decls
            :: statesAfter.map (Elaborating.value options decls))
        = elaborating options decls (statesBefore ++ state' :: statesAfter) := by
    have hmap : (statesBefore ++ state' :: statesAfter).map Elaborating.function
        = (statesBefore ++ state :: statesAfter).map Elaborating.function := by
      rw [List.map_append, List.map_append, List.map_cons, List.map_cons, hfunction]
    rw [← withBodies_elaborating hmap, List.map_append, List.map_cons]
  obtain ⟨rfl, rfl⟩ | ⟨hchain, rfl, rfl⟩ :=
    Elaborating.fireFirst_value hdecls hrule hcopyable hfire
  · exact ⟨_, hstates { state with isCurried := true } rfl,
      h.set rfl (Nat.le_refl _) (h.within state hmem)⟩
  · refine ⟨_, hstates { state with chain? := some supply } rfl,
      h.set rfl (next_le_matchChain ..) fun start hstart => ?_⟩
    obtain rfl := Option.some.inj hstart
    exact ⟨h.low_le, Nat.le_refl _⟩

end ElaboratingAll

/-- Whether elaboration is done with a function: it takes its variables in turn and has a chain of
matches. -/
def Elaborating.Ended (options : SimplifyOptions) (decls : List (Decl Expr)) (state : Elaborating) :
    Prop :=
  ∃ supply ∈ state.chain?, state.value options decls = curried state.function.2
    (matchChain options.shareFallthrough state.scrutinee supply (state.arms decls)).1

/-- Elaboration leaves a function only when it is done with it. -/
theorem Elaborating.ended_of_generates {state : Elaborating}
    (h : Grammar.elaborated.Generates (state.value options decls)) :
    state.Ended options decls := by
  rw [Ended]
  have hchain (hbody : Grammar.elaborated.Generates (state.body options decls)) :
      ∃ supply ∈ state.chain?, state.body options decls
        = (matchChain options.shareFallthrough state.scrutinee supply (state.arms decls)).1 := by
    rw [body] at hbody ⊢
    cases hchain : state.chain? with
    | none =>
      rw [hchain] at hbody
      exact (Grammar.generates_caseOf.1 hbody).1.elim
    | some supply => exact ⟨supply, rfl, rfl⟩
  rw [value] at h ⊢
  split at h
  · next hcurried =>
    have hvar (name : String) : Grammar.elaborated.lambda [.var name] := ⟨name, rfl⟩
    obtain ⟨supply, hsupply, heq⟩ := hchain ((generates_curried hvar).1 h)
    exact ⟨supply, hsupply, by rw [if_pos hcurried, heq]⟩
  · next hcurried =>
    obtain ⟨⟨name, hname⟩, hbody⟩ := Grammar.generates_lam.1 h
    obtain ⟨supply, hsupply, heq⟩ := hchain hbody
    obtain ⟨name, hnames⟩ : ∃ name, state.function.2 = [name] := by
      rw [← List.length_eq_one_iff, ← List.length_map Pattern.var, hname, List.length_singleton]
    refine ⟨supply, hsupply, ?_⟩
    rw [if_neg hcurried, heq, hnames]
    rfl

/-- Elaboration takes the variables of each function in turn and makes chains of matches of the
cases, whatever the expression that the block encloses. -/
theorem exists_elaborated (h : FunctionClauses decls) (options : SimplifyOptions)
    {functions : List (String × List String)}
    (hnames : ∀ function ∈ functions, ∀ name ∈ function.2, ∀ clause ∈ clausesOf function.1 decls,
      name ∉ Pattern.boundNamesList clause.1)
    (hgenerates : Grammar.fused.Generates (letIn (fused decls functions) bot)) :
    ∃ states supply', ElaboratingAll options decls functions supply.next states supply'
      ∧ (∀ state ∈ states, state.Ended options decls)
      ∧ ∀ body, Grammar.core.Generates body →
        (toFixpoint options Pass.elaboration.rules supply
            (letIn (fused decls functions) body)).result
          = .ok (letIn (elaborating options decls states) body, supply') := by
  have hrules : Rule.groupNesting ∉ Pass.elaboration.rules := by decide
  have hbot : Grammar.core.Generates bot := Grammar.generates_prim _
  have hnamed (states : List Elaborating) :
      ∀ decl ∈ elaborating options decls states, decl.IsNamed :=
    List.forall_mem_map.2 (List.forall_mem_map.2 fun _ _ => trivial)
  have hstart : fused decls functions
      = elaborating options decls (functions.map fun function => ⟨function, false, none⟩) := by
    rw [elaborating, List.map_map]
    rfl
  rw [hstart] at hgenerates ⊢
  obtain ⟨e, supply', hresult, helaborated⟩ :=
    (Pass.elaboration.toFixpoint_generates supply hgenerates : ∃ e supply',
      (toFixpoint options _ _ _).result = .ok (e, supply') ∧ Grammar.elaborated.Generates e)
  obtain ⟨decls', rfl, states, rfl, hstates⟩ := exists_of_toFixpoint_letIn
    (P := fun decls' supply' => ∃ states, decls' = elaborating options decls states
      ∧ ElaboratingAll options decls functions supply.next states supply')
    hrules
    (fun _ _ hblock => by
      obtain ⟨states, rfl, -⟩ := hblock
      exact hnamed states)
    (fun _ hrule _ _ _ _ hblock hfire => by
      obtain ⟨states, rfl, hstates⟩ := hblock
      exact hstates.step h hrule hnames hfire)
    hbot ⟨_, rfl, .initial functions supply⟩ hresult
  refine ⟨states, supply', hstates, fun state hstate => ?_, fun body hbody => ?_⟩
  · have hvalues := (Grammar.generates_letIn.1 helaborated).2.1
    rw [bodies_elaborating] at hvalues
    exact Elaborating.ended_of_generates (hvalues _ (List.mem_map_of_mem hstate))
  · obtain ⟨_, hblock, hrun⟩ := toFixpoint_letIn hrules (hnamed _) hbot hbody hresult
    cases hblock
    exact hrun

end Clausal
