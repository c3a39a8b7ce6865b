import Clausal.Proofs.Letrec
import Clausal.Proofs.Matching.Sharing

/-!
# Tuples that are matched by component

A tuple pattern takes a tuple expression of its size apart without building the tuple. A variable
that stands for the tuple is tested for its size instead, and its components are selected. Both come
to the same, whatever terms the components are, as long as they are closed.

The two expansions are made of the same conditionals, for scrutinees that stand for convertible
terms. The number of places of the failure differs by the test of the tuple, so one of them may
share the failure and the other copy it; `Matching.conv_elaborate_var` hides the difference.

## Main results

* `Matching.conv_expand_congr`: matches of exchangeable scrutinees;
* `Matching.conv_expand_components`: a tuple pattern against a tuple and a variable for it;
* `Matching.elaborate_components`: the same for the lambda terms, with closed components put in.
-/

namespace Clausal

open Clausal.Expr

namespace Matching

variable {env env' : Environment} {names : List String} {s s' success success' failure : Expr}

/-! ## Exchangeable scrutinees -/

/-- Whether two scrutinees can be matched one for the other, below some names: no tuple pattern
takes them apart, they do not use the names, and they stand for convertible terms. -/
structure Exchangeable (env : Environment) (names : List String) (s s' : Expr) : Prop where
  hidden : ∀ count, components? count s = none ∧ components? count s' = none
  unused : ∀ name ∈ names, name ∉ s.free ∧ name ∉ s'.free
  conv : Nameless.Conv (s.read env) (s'.read env)

namespace Exchangeable

/-- Lists of scrutinees that are alike in all but what they stand for. -/
theorem of_forall₂ {ss ss' : List Expr}
    (hidden : ∀ s ∈ ss ++ ss', ∀ count, components? count s = none)
    (unused : ∀ s ∈ ss ++ ss', ∀ name ∈ names, name ∉ s.free)
    (hconv : List.Forall₂ (fun s s' => Nameless.Conv (Expr.read env s) (Expr.read env s')) ss ss') :
    List.Forall₂ (Exchangeable env names) ss ss' := by
  rw [List.forall₂_iff_get] at hconv ⊢
  refine ⟨hconv.1, fun i hi hi' => ?_⟩
  have hmem : ss.get ⟨i, hi⟩ ∈ ss ++ ss' := List.mem_append_left _ (List.get_mem _ _)
  have hmem' : ss'.get ⟨i, hi'⟩ ∈ ss ++ ss' := List.mem_append_right _ (List.get_mem _ _)
  exact ⟨fun count => ⟨hidden _ hmem count, hidden _ hmem' count⟩,
    fun name hname => ⟨unused _ hmem name hname, unused _ hmem' name hname⟩, hconv.2 i hi hi'⟩

theorem mono {names' : List String} (h : Exchangeable env names s s') (hnames : names' ⊆ names) :
    Exchangeable env names' s s' :=
  ⟨h.hidden, fun name hname => h.unused name (hnames hname), h.conv⟩

/-- Other terms for the names do not matter. -/
theorem congr (h : Exchangeable env names s s') (henv : ∀ name ∉ names, env' name = env name) :
    Exchangeable env' names s s' where
  hidden := h.hidden
  unused := h.unused
  conv := by
    have hread {e : Expr} (he : ∀ name ∈ names, name ∉ e.free) : e.read env' = e.read env :=
      read_congr fun name hname => henv name fun hmem => he name hmem hname
    rw [hread fun name hname => (h.unused name hname).1,
      hread fun name hname => (h.unused name hname).2]
    exact h.conv

theorem probe (h : Exchangeable env names s s') (primitive : Primitive) :
    Exchangeable env names (probe primitive s) (Matching.probe primitive s') where
  hidden _ := ⟨rfl, rfl⟩
  unused name hname :=
    ⟨fun hmem => (h.unused name hname).1 (mem_free_probe.1 hmem),
      fun hmem => (h.unused name hname).2 (mem_free_probe.1 hmem)⟩
  conv := by
    rw [read_probe, read_probe]
    exact (Nameless.Conv.refl _).app h.conv

theorem parts (h : Exchangeable env names s s') (count : Nat) :
    List.Forall₂ (Exchangeable env names) (parts count s) (Matching.parts count s') := by
  unfold Matching.parts
  split
  · exact .cons h .nil
  · rw [selectors, selectors, List.forall₂_map_left_iff, List.forall₂_map_right_iff,
      List.forall₂_same]
    exact fun i _ => h.probe _

end Exchangeable

/-! ## Congruence -/

theorem conv_cond_congr {condition condition' positive positive' : Expr}
    (hcondition : Nameless.Conv (condition.read env) (condition'.read env))
    (hpositive : Nameless.Conv (positive.read env) (positive'.read env)) :
    Nameless.Conv ((cond condition positive failure).read env)
      ((cond condition' positive' failure).read env) := by
  rw [read_cond, read_cond]
  exact (Nameless.Conv.refl _).applyAll (.cons hcondition (.cons hpositive (.cons (.refl _) .nil)))

mutual

/-- A match keeps what it is read as when its scrutinee is exchanged, and its success for one that
is convertible whatever the names of the pattern stand for. -/
theorem conv_expand_congr (pattern : Pattern) {env : Environment} {s s' success success' : Expr}
    (hs : Exchangeable env pattern.boundNames s s')
    (hsuccess : ∀ env' : Environment, (∀ name ∉ pattern.boundNames, env' name = env name) →
      Nameless.Conv (success.read env') (success'.read env')) (failure : Expr) :
    Nameless.Conv ((expand pattern s success failure).read env)
      ((expand pattern s' success' failure).read env) := by
  cases pattern with
  | var name =>
    rw [expand, expand]
    refine (conv_bindName name s success env).trans ?_
    refine .trans ?_ (conv_bindName name s' success' env).symm
    -- first the success is exchanged, where the name still stands for the first scrutinee
    have hbound : Nameless.Conv (success.read (Function.update env name (s.read env)))
        (success'.read (Function.update env name (s.read env))) :=
      hsuccess _ fun other hother =>
        Function.update_of_ne (fun heq => hother (List.mem_singleton.2 heq)) _ _
    refine hbound.trans (conv_read fun other _ => ?_)
    by_cases heq : other = name
    · rw [heq, Function.update_self, Function.update_self]
      exact hs.conv
    · rw [Function.update_of_ne heq, Function.update_of_ne heq]
      exact .refl _
  | wildcard =>
    rw [expand, expand]
    exact hsuccess env fun _ _ => rfl
  | lit literal =>
    rw [expand, expand]
    exact conv_cond_congr (hs.probe _).conv (hsuccess env fun _ _ => rfl)
  | con name args =>
    rw [expand, expand]
    exact conv_cond_congr (hs.probe _).conv
      (conv_expandAll_congr args ((hs.probe _).parts _) hsuccess failure)
  | tuple elements =>
    have hmatched : Nameless.Conv
        ((expandAll elements (parts elements.length s) success failure).read env)
        ((expandAll elements (parts elements.length s') success' failure).read env) :=
      conv_expandAll_congr elements (hs.parts _) hsuccess failure
    -- neither scrutinee shows components, so both are tested and taken apart
    rw [expand, expand, (hs.hidden _).1, (hs.hidden _).2]
    dsimp only
    split
    · exact hmatched
    · exact conv_cond_congr (hs.probe _).conv hmatched

/-- The same for patterns matched one after the other. -/
theorem conv_expandAll_congr (patterns : List Pattern) {env : Environment} {ss ss' : List Expr}
    {success success' : Expr}
    (hss : List.Forall₂ (Exchangeable env (Pattern.boundNamesList patterns)) ss ss')
    (hsuccess : ∀ env' : Environment,
      (∀ name ∉ Pattern.boundNamesList patterns, env' name = env name) →
      Nameless.Conv (success.read env') (success'.read env')) (failure : Expr) :
    Nameless.Conv ((expandAll patterns ss success failure).read env)
      ((expandAll patterns ss' success' failure).read env) := by
  match patterns, hss with
  | [], _ =>
    rw [expandAll_nil_left, expandAll_nil_left]
    exact hsuccess env fun _ _ => rfl
  | _ :: _, .nil =>
    rw [expandAll_nil_right, expandAll_nil_right]
    exact hsuccess env fun _ _ => rfl
  | pattern :: patterns, .cons hs hss =>
    rw [expandAll, expandAll]
    refine conv_expand_congr pattern (hs.mono (List.subset_append_left _ _)) ?_ failure
    -- what the first pattern binds is used by no other scrutinee
    intro env' henv'
    have hrest : ∀ name ∉ Pattern.boundNamesList (pattern :: patterns), env' name = env name :=
      fun name hname => henv' name fun hmem => hname (List.mem_append_left _ hmem)
    refine conv_expandAll_congr patterns (hss.imp fun s s' h => ?_) (fun env'' henv'' => ?_) failure
    · exact (h.congr hrest).mono (List.subset_append_right _ _)
    · refine hsuccess env'' fun name hname => ?_
      rw [Pattern.boundNamesList, List.mem_append, not_or] at hname
      rw [henv'' name hname.2, henv' name hname.1]

end

/-! ## Tuples -/

section Tuples

variable {patterns : List Pattern} {z : String}

/-- The components of a tuple of closed terms can be selected from a variable that stands for it. -/
theorem exchangeable_parts (hlength : names.length = patterns.length)
    (hunbound : ∀ name ∈ z :: names, name ∉ Pattern.boundNamesList patterns)
    (hclosed : ∀ name ∈ names, (env name).Closed)
    (hz : env z = Nameless.fieldsTerm (names.map env)) :
    List.Forall₂ (Exchangeable env (Pattern.boundNamesList patterns))
      (names.map .var) (parts patterns.length (.var z)) := by
  have hcount : (names.map env).length = patterns.length := (List.length_map env).trans hlength
  have hselected : List.Forall₂ Nameless.Conv (Nameless.parts patterns.length (env z))
      (names.map env) :=
    hcount ▸ Nameless.conv_parts (List.forall_mem_map.2 hclosed) (Nameless.Conv.of_eq hz)
  have hread : List.Forall₂ (fun s s' => Nameless.Conv (Expr.read env s) (Expr.read env s'))
      (names.map .var) (parts patterns.length (.var z)) := by
    have hparts : (parts patterns.length (.var z)).map (Expr.read env)
        = Nameless.parts patterns.length (env z) := read_parts env _ _
    rw [← hparts, List.forall₂_map_left_iff, List.forall₂_map_right_iff] at hselected
    exact List.forall₂_map_left_iff.2 (hselected.flip.imp fun _ _ h => h.symm)
  refine Exchangeable.of_forall₂ (List.forall_mem_append.2 ⟨?_, ?_⟩)
    (List.forall_mem_append.2 ⟨?_, ?_⟩) hread
  · exact List.forall_mem_map.2 fun _ _ _ => rfl
  · exact fun part hpart => components?_of_mem_parts (fun _ _ => rfl) hpart
  · exact List.forall_mem_map.2 fun name hname other hother hmem =>
      hunbound name (List.mem_cons_of_mem _ hname) (mem_free_var.1 hmem ▸ hother)
  · intro part hpart other hother hmem
    have hvar := mem_free_var.1 (mem_free_of_mem_parts hpart hmem)
    exact hunbound z List.mem_cons_self (hvar ▸ hother)

/-- A tuple pattern against the tuple of some variables, and against one variable that stands for
the tuple of what they stand for. -/
theorem conv_expand_components (hlength : names.length = patterns.length)
    (hunbound : ∀ name ∈ z :: names, name ∉ Pattern.boundNamesList patterns)
    (hclosed : ∀ name ∈ names, (env name).Closed)
    (hz : env z = Nameless.fieldsTerm (names.map env)) (success failure : Expr) :
    Nameless.Conv ((expand (.tuple patterns) (.tuple (names.map .var)) success failure).read env)
      ((expand (.tuple patterns) (.var z) success failure).read env) := by
  have hmatched : Nameless.Conv
      ((expandAll patterns (names.map .var) success failure).read env)
      ((expandAll patterns (parts patterns.length (.var z)) success failure).read env) :=
    conv_expandAll_congr patterns (exchangeable_parts hlength hunbound hclosed hz)
      (fun _ _ => .refl _) failure
  have hshown : components? patterns.length (.tuple (names.map .var)) = some (names.map .var) :=
    if_pos ((List.length_map _).trans hlength)
  have hhidden : components? patterns.length (.var z) = none := rfl
  rw [expand, expand, hshown, hhidden]
  dsimp only
  split
  · exact hmatched
  · next hne =>
    -- what the variable stands for passes the test for its size
    have hcount : (names.map env).length = patterns.length := (List.length_map env).trans hlength
    have htest : Nameless.Conv ((probe (.isTuple patterns.length) (.var z)).read env)
        (.const (.literal (.bool true))) := by
      rw [read_probe, Expr.read, hz]
      refine Nameless.conv_test (Nameless.fieldsTerm_closedAt (List.forall_mem_map.2 hclosed)) ?_
      rw [Nameless.kind_fieldsTerm (by rwa [hcount]), hcount, Constant.answer?, beq_self_eq_true]
    refine hmatched.trans (Nameless.Conv.symm ?_)
    rw [read_cond]
    exact Nameless.conv_branch htest _ _

/-- The same when the variable for the tuple is bound where it is matched. -/
theorem conv_expand_components_update (hlength : names.length = patterns.length)
    (hunbound : ∀ name ∈ z :: names, name ∉ Pattern.boundNamesList patterns)
    (hclosed : ∀ name ∈ names, (env name).Closed)
    (hz : z ∉ names ++ success.free ++ failure.free) :
    Nameless.Conv ((expand (.tuple patterns) (.tuple (names.map .var)) success failure).read env)
      ((expand (.tuple patterns) (.var z) success failure).read
        (Function.update env z (Nameless.fieldsTerm (names.map env)))) := by
  simp only [List.mem_append, not_or] at hz
  -- the variable is not used where the components are matched
  have hunused : z ∉ (expand (.tuple patterns) (.tuple (names.map .var)) success failure).free := by
    refine not_mem_free_expand (.tuple patterns) ?_ hz.2
    simp only [List.mem_append, not_or, mem_free_tuple_var]
    exact ⟨⟨hunbound z List.mem_cons_self, hz.1.1⟩, hz.1.2⟩
  rw [← read_update_of_not_mem hunused (Nameless.fieldsTerm (names.map env))]
  have hvars : ∀ name ∈ names,
      Function.update env z (Nameless.fieldsTerm (names.map env)) name = env name :=
    fun name hname => Function.update_of_ne (ne_of_mem_of_not_mem hname hz.1.1) _ _
  refine conv_expand_components hlength hunbound (fun name hname => ?_) ?_ success failure
  · rw [hvars name hname]
    exact hclosed name hname
  · rw [Function.update_self, List.map_congr_left hvars]

/-- A match of a tuple of variables, and a function that matches its argument applied to the tuple,
when the variables stand for closed terms. Each of the two shares its failure or copies it. -/
theorem conv_elaborate_components (share : Bool) {supply supply' : FreshSupply}
    (hlength : names.length = patterns.length)
    (hunbound : ∀ name ∈ z :: names, name ∉ Pattern.boundNamesList patterns)
    (hz : z ∉ names ++ success.free ++ failure.free)
    (hdrawn : ∀ name ∈ [supply.draw.1, supply'.draw.1],
      name ∉ z :: (names ++ Pattern.boundNamesList patterns ++ success.free))
    (hclosed : ∀ name ∈ names, (env name).Closed) :
    Nameless.Conv
      ((elaborate share (.tuple patterns) (.tuple (names.map .var)) success failure
        supply).1.read env)
      ((app1 (lam1 z (elaborate share (.tuple patterns) (.var z) success failure supply').1)
        (.tuple (names.map .var))).read env) := by
  have hfresh (x : String) (hx : x ∈ [supply.draw.1, supply'.draw.1]) :
      x ≠ z ∧ x ∉ names ∧ x ∉ Pattern.boundNamesList patterns ∧ x ∉ success.free := by
    simpa [not_or, and_assoc] using hdrawn x hx
  -- the drawn names are not those of either match
  have hleft (x : String) (hx : x ∈ [supply.draw.1, supply'.draw.1]) :
      x ∉ (Pattern.tuple patterns).boundNames ++ (tuple (names.map .var)).free ++ success.free := by
    obtain ⟨-, hnames, hbound, hsuccess⟩ := hfresh x hx
    simp only [List.mem_append, not_or, mem_free_tuple_var]
    exact ⟨⟨hbound, hnames⟩, hsuccess⟩
  have hright (x : String) (hx : x ∈ [supply.draw.1, supply'.draw.1]) :
      x ∉ (Pattern.tuple patterns).boundNames ++ (Expr.var z).free ++ success.free := by
    obtain ⟨hne, -, hbound, hsuccess⟩ := hfresh x hx
    simp only [List.mem_append, not_or, mem_free_var]
    exact ⟨⟨hbound, hne⟩, hsuccess⟩
  -- the function matches its parameter where it stands for the tuple
  have hfailure : failure.read (Function.update env z (Nameless.fieldsTerm (names.map env)))
      = failure.read env :=
    read_update_of_not_mem (fun h => hz (List.mem_append_right _ h)) _
  have htuple : (tuple (names.map .var)).read env = Nameless.fieldsTerm (names.map env) := by
    rw [read_tuple, List.map_map]
    rfl
  have hfast := conv_elaborate_var share (.tuple patterns) failure (hleft _ List.mem_cons_self)
    (hleft _ List.mem_cons_self) env
  have hslow := conv_elaborate_var share (.tuple patterns) failure
    (hright _ (List.mem_cons_of_mem _ List.mem_cons_self)) (hright _ List.mem_cons_self)
    (Function.update env z (Nameless.fieldsTerm (names.map env)))
  rw [hfailure] at hslow
  rw [read_app1, htuple]
  refine hfast.trans (.trans ?_ ((conv_lam1 z _ env _).trans hslow).symm)
  -- both fall back to one fresh variable, which is none of the components
  obtain ⟨hne, hnames, -, -⟩ := hfresh _ List.mem_cons_self
  have hvars : ∀ name ∈ names, Function.update env supply.draw.1 (failure.read env) name
      = env name :=
    fun name hname => Function.update_of_ne (ne_of_mem_of_not_mem hname hnames) _ _
  rw [Function.update_comm hne.symm, ← List.map_congr_left hvars]
  refine conv_expand_components_update hlength hunbound (fun name hname => ?_) ?_
  · rw [hvars name hname]
    exact hclosed name hname
  · simp only [List.mem_append, not_or, mem_free_var] at hz ⊢
    exact ⟨hz.1, hne.symm⟩

end Tuples

/-! ## Lambda terms -/

/-- The components of a tuple can be matched without building the tuple. A tuple pattern is matched
with the tuple of some variables, and a function that matches its argument with the pattern is
applied to the tuple: whatever closed terms are put for the variables, the lambda terms of the two
are convertible. The terms need not have values.

The variables of the tuple and the parameter of the function are not bound by the pattern, and the
parameter and the fresh variables are used by nothing else. -/
theorem elaborate_components (share : Bool) (patterns : List Pattern) (names : List String)
    (z : String) (success failure : Expr) (supply supply' : FreshSupply)
    (hsuccess : ∃ core, Core.ofExpr success = .ok core)
    (hfailure : ∃ core, Core.ofExpr failure = .ok core)
    (hlength : names.length = patterns.length)
    (hunbound : ∀ name ∈ z :: names, name ∉ Pattern.boundNamesList patterns)
    (hz : z ∉ names ++ success.free ++ failure.free)
    (hdrawn : ∀ name ∈ [supply.draw.1, supply'.draw.1],
      name ∉ z :: (names ++ Pattern.boundNamesList patterns ++ success.free)) :
    ∃ matched applied,
      (elaborate share (.tuple patterns) (.tuple (names.map .var)) success failure
          supply).1.compiled = .ok matched
        ∧ (app1 (lam1 z (elaborate share (.tuple patterns) (.var z) success failure supply').1)
          (.tuple (names.map .var))).compiled = .ok applied
        ∧ ∀ definitions : String → Term, (∀ name ∈ names, (definitions name).isClosed = true) →
          (matched.term.substAll names definitions).Convertible
            (applied.term.substAll names definitions) := by
  have hvar (name : String) : Grammar.core.lambda [.var name] := ⟨name, rfl⟩
  have htuple : Grammar.core.Generates (.tuple (names.map .var)) :=
    Grammar.generates_tuple.2 (List.forall_mem_map.2 fun name _ => Grammar.generates_var name)
  have helaborate {s : Expr} (hs : Grammar.core.Generates s) (supply : FreshSupply) :
      Grammar.core.Generates (elaborate share (.tuple patterns) s success failure supply).1 :=
    generates_elaborate hvar share _ supply hs (Core.exists_ofExpr_eq_ok_iff.1 hsuccess)
      (Core.exists_ofExpr_eq_ok_iff.1 hfailure)
  obtain ⟨matched, hmatched, hread⟩ := exists_compiled_readIn (helaborate htuple supply)
  have happlied : Grammar.core.Generates (app1
      (lam1 z (elaborate share (.tuple patterns) (.var z) success failure supply').1)
      (.tuple (names.map .var))) :=
    Grammar.generates_app1.2
      ⟨Grammar.generates_lam1.2 ⟨hvar z, helaborate (Grammar.generates_var z) supply'⟩, htuple⟩
  obtain ⟨applied, happlied, hread'⟩ := exists_compiled_readIn happlied
  refine ⟨matched, applied, hmatched, happlied, fun definitions hclosed => ?_⟩
  refine Term.convertible_iff.2 ?_
  rw [Term.nameless, Term.nameless, Term.read_substAll hclosed, Term.read_substAll hclosed, hread,
    hread']
  refine conv_elaborate_components share hlength hunbound hz hdrawn fun name hname => ?_
  -- a name of a primitive stands for it, and every other for its definition
  rw [Term.ofName, if_neg (by simp)]
  split
  · trivial
  · rw [Term.read, if_pos hname]
    exact Term.closed_read (hclosed name hname) _

/-- One component is a number, and the other has no value. -/
theorem elaborate_components_numberAndFix :
    let pattern : Pattern := .tuple [.lit (.int 0), .con "Just" [.var "a"]]
    let failure : Expr := app1 (.var "retry") (.var "p")
    let pair : Expr := .tuple [.var "p", .var "q"]
    let definitions (name : String) : Term :=
      if name = "p" then .literal (.int 0) else .recursive "x" (.var "x")
    ∃ matched applied,
      (elaborate true pattern pair (.var "a") failure .initial).1.compiled = .ok matched
        ∧ (app1 (lam1 "t" (elaborate true pattern (.var "t") (.var "a") failure .initial).1)
          pair).compiled = .ok applied
        ∧ (matched.term.substAll ["p", "q"] definitions).Convertible
          (applied.term.substAll ["p", "q"] definitions) := by
  intro pattern failure pair definitions
  obtain ⟨matched, applied, hmatched, happlied, hconv⟩ := elaborate_components true
    [.lit (.int 0), .con "Just" [.var "a"]] ["p", "q"] "t" (.var "a") failure .initial .initial
    ⟨_, rfl⟩ ⟨_, rfl⟩ rfl (by decide) (by decide) (by decide)
  refine ⟨matched, applied, hmatched, happlied, hconv definitions ?_⟩
  decide

end Matching

end Clausal
