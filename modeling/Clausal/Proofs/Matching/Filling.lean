import Clausal.Proofs.Matching.Value

/-!
# Values for variables

An expression with values for some of its free variables. Values have no variables, so no binder
captures anything; a binder only hides the names that it binds.

## Main results

* `Expr.fill`: the expression with values for its free variables;
* `Expr.read_fill`: it is read as the expression is where the variables stand for the values;
* `Expr.mem_free_fill`, `Expr.names_fill_subset`: the variables that are left.
-/

namespace Clausal

/-- The bindings of other names than the given ones. -/
def withoutNames (names : List String) (bindings : List (String × Value)) :
    List (String × Value) :=
  bindings.filter fun binding => !names.contains binding.1

namespace Expr

mutual

/-- The expression with values for its free variables. The first binding of a name counts. -/
def fill (bindings : List (String × Value)) : Expr → Expr
  | .var name => (bindings.lookup name).elim (.var name) Value.toExpr
  | .lit literal => .lit literal
  | .con name => .con name
  | .prim primitive => .prim primitive
  | .app func args => .app (fill bindings func) (fillAll bindings args)
  | .tuple elements => .tuple (fillAll bindings elements)
  | .lam params body =>
    .lam params (fill (withoutNames (Pattern.boundNamesList params) bindings) body)
  | .cond condition positive negative =>
    .cond (fill bindings condition) (fill bindings positive) (fill bindings negative)
  | .letIn decls body =>
    let left := withoutNames (decls.flatMap Decl.boundNames) bindings
    .letIn (fillDecls left decls) (fill left body)
  | .caseOf scrutinee arms => .caseOf (fill bindings scrutinee) (fillArms bindings arms)

/-- The expressions with values for their free variables. -/
def fillAll (bindings : List (String × Value)) : List Expr → List Expr
  | [] => []
  | e :: es => fill bindings e :: fillAll bindings es

/-- The declarations with values for the free variables of the right-hand sides. -/
def fillDecls (bindings : List (String × Value)) : List (Decl Expr) → List (Decl Expr)
  | [] => []
  | .clause name params body :: decls =>
    .clause name params (fill (withoutNames (Pattern.boundNamesList params) bindings) body)
      :: fillDecls bindings decls
  | .value pattern body :: decls => .value pattern (fill bindings body) :: fillDecls bindings decls
  | .data decl :: decls => .data decl :: fillDecls bindings decls

/-- The arms with values for the free variables of the right-hand sides. -/
def fillArms (bindings : List (String × Value)) : List (Arm Expr) → List (Arm Expr)
  | [] => []
  | ⟨pattern, body⟩ :: arms =>
    ⟨pattern, fill (withoutNames pattern.boundNames bindings) body⟩ :: fillArms bindings arms

end

variable {bindings : List (String × Value)} {e : Expr} {name : String}

theorem fillAll_eq_map (bindings : List (String × Value)) (es : List Expr) :
    fillAll bindings es = es.map (fill bindings) := by
  induction es with
  | nil => rfl
  | cons e es ih => rw [fillAll, ih, List.map_cons]

theorem withoutNames_nil (bindings : List (String × Value)) : withoutNames [] bindings = bindings :=
  List.filter_eq_self.2 fun _ _ => rfl

theorem mem_map_fst_withoutNames {names : List String} (h : name ∉ names) :
    name ∈ (withoutNames names bindings).map Prod.fst ↔ name ∈ bindings.map Prod.fst := by
  simp [withoutNames, h]

theorem fill_var (bindings : List (String × Value)) (name : String) :
    (var name).fill bindings = (bindings.lookup name).elim (var name) Value.toExpr := rfl

theorem fill_app (bindings : List (String × Value)) (func : Expr) (args : List Expr) :
    (app func args).fill bindings = app (func.fill bindings) (args.map (fill bindings)) :=
  congrArg (app _) (fillAll_eq_map bindings args)

theorem fill_tuple (bindings : List (String × Value)) (elements : List Expr) :
    (tuple elements).fill bindings = tuple (elements.map (fill bindings)) :=
  congrArg tuple (fillAll_eq_map bindings elements)

theorem fill_cond (bindings : List (String × Value)) (condition positive negative : Expr) :
    (cond condition positive negative).fill bindings
      = cond (condition.fill bindings) (positive.fill bindings) (negative.fill bindings) := rfl

theorem fill_lam1 (bindings : List (String × Value)) (param : String) (body : Expr) :
    (lam1 param body).fill bindings = lam1 param (body.fill (withoutNames [param] bindings)) := rfl

theorem fill_letIn_nil (bindings : List (String × Value)) (body : Expr) :
    (letIn [] body).fill bindings = letIn [] (body.fill bindings) := by
  rw [fill, List.flatMap_nil, withoutNames_nil]
  rfl

theorem fill_letIn_var (bindings : List (String × Value)) (name : String) (value body : Expr) :
    (letIn [.value (.var name) value] body).fill bindings
      = letIn [.value (.var name) (value.fill (withoutNames [name] bindings))]
        (body.fill (withoutNames [name] bindings)) := rfl

/-! ## The core expressions -/

/-- Induction on the form of an expression that has a core expression. -/
theorem induction_core {motive : (e : Expr) → Grammar.core.Generates e → Prop}
    (var : ∀ name, motive (.var name) (Grammar.generates_var name))
    (lit : ∀ literal, motive (.lit literal) (Grammar.generates_lit literal))
    (con : ∀ name, motive (.con name) (Grammar.generates_con name))
    (prim : ∀ primitive, motive (.prim primitive) (Grammar.generates_prim primitive))
    (app : ∀ func args hfunc hargs, motive func hfunc → (∀ arg hmem, motive arg (hargs arg hmem)) →
      motive (.app func args) (Grammar.generates_app.2 ⟨hfunc, hargs⟩))
    (tuple : ∀ elements helements, (∀ element hmem, motive element (helements element hmem)) →
      motive (.tuple elements) (Grammar.generates_tuple.2 helements))
    (lam : ∀ param body hbody, motive body hbody →
      motive (lam1 param body) (Grammar.generates_lam1.2 ⟨⟨param, rfl⟩, hbody⟩))
    (cond : ∀ condition positive negative hcondition hpositive hnegative,
      motive condition hcondition → motive positive hpositive → motive negative hnegative →
      motive (.cond condition positive negative)
        (Grammar.generates_cond.2 ⟨hcondition, hpositive, hnegative⟩))
    (block : ∀ body hbody, motive body hbody →
      motive (.letIn [] body) (Grammar.generates_letIn.2 ⟨.inl rfl, nofun, hbody⟩))
    (letIn : ∀ name value body hvalue hbody, motive value hvalue → motive body hbody →
      motive (.letIn [.value (.var name) value] body) (Grammar.generates_letIn.2
        ⟨.inr ⟨name, rfl⟩, List.forall_mem_singleton.2 hvalue, hbody⟩))
    (e : Expr) (h : Grammar.core.Generates e) : motive e h := by
  induction e using induction_children with
  | step e ih =>
    cases e with
    | var name => exact var name
    | lit literal => exact lit literal
    | con name => exact con name
    | prim primitive => exact prim primitive
    | app func args =>
      obtain ⟨hfunc, hargs⟩ := Grammar.generates_app.1 h
      exact app func args hfunc hargs (ih func List.mem_cons_self hfunc)
        fun arg hmem => ih arg (List.mem_cons_of_mem func hmem) (hargs arg hmem)
    | tuple elements =>
      have helements := Grammar.generates_tuple.1 h
      exact tuple elements helements fun element hmem => ih element hmem (helements element hmem)
    | lam params body =>
      obtain ⟨⟨param, rfl⟩, hbody⟩ := Grammar.generates_lam.1 h
      exact lam param body hbody (ih body List.mem_cons_self hbody)
    | cond condition positive negative =>
      obtain ⟨hcondition, hpositive, hnegative⟩ := Grammar.generates_cond.1 h
      simp only [children, List.forall_mem_cons] at ih
      exact cond _ _ _ hcondition hpositive hnegative (ih.1 hcondition) (ih.2.1 hpositive)
        (ih.2.2.1 hnegative)
    | letIn decls body =>
      rw [children_letIn, List.forall_mem_append, List.forall_mem_singleton] at ih
      obtain ⟨hblock, hvalues, hbody⟩ := Grammar.generates_letIn.1 h
      -- a block with a core expression is empty or binds one variable
      obtain rfl | ⟨name, value, rfl⟩ := Core.block_core_iff.1 hblock
      · exact block body hbody (ih.2 hbody)
      · have hvalue := hvalues value List.mem_cons_self
        exact letIn name value body hvalue hbody (ih.1 value List.mem_cons_self hvalue)
          (ih.2 hbody)
    | caseOf _ _ => exact (Grammar.generates_caseOf.1 h).1.elim

/-- An expression with values for its variables has a core expression if it had one. -/
theorem generates_fill (h : Grammar.core.Generates e) (bindings : List (String × Value)) :
    Grammar.core.Generates (e.fill bindings) := by
  induction e, h using induction_core generalizing bindings with
  | var name =>
    rw [fill_var]
    cases bindings.lookup name with
    | none => exact Grammar.generates_var name
    | some value => exact value.generates_toExpr
  | lit literal => exact Grammar.generates_lit literal
  | con name => exact Grammar.generates_con name
  | prim primitive => exact Grammar.generates_prim primitive
  | app func args _ _ hfunc hargs =>
    rw [fill_app]
    exact Grammar.generates_app.2 ⟨hfunc bindings,
      List.forall_mem_map.2 fun arg hmem => hargs arg hmem bindings⟩
  | tuple elements _ helements =>
    rw [fill_tuple]
    exact Grammar.generates_tuple.2
      (List.forall_mem_map.2 fun element hmem => helements element hmem bindings)
  | lam param body _ hbody =>
    exact Grammar.generates_lam1.2 ⟨⟨param, rfl⟩, hbody _⟩
  | cond condition positive negative _ _ _ hcondition hpositive hnegative =>
    exact Grammar.generates_cond.2 ⟨hcondition bindings, hpositive bindings, hnegative bindings⟩
  | block body _ hbody => exact Grammar.generates_letIn.2 ⟨.inl rfl, nofun, hbody _⟩
  | letIn name value body _ _ hvalue hbody =>
    exact Grammar.generates_letIn.2
      ⟨.inr ⟨name, rfl⟩, List.forall_mem_singleton.2 (hvalue _), hbody _⟩

/-! ## Variables -/

/-- The free variables that are left are those without a value. -/
theorem mem_free_fill (h : Grammar.core.Generates e) {bindings : List (String × Value)}
    (hname : name ∈ (e.fill bindings).free) : name ∈ e.free ∧ name ∉ bindings.map Prod.fst := by
  induction e, h using induction_core generalizing bindings with
  | var other =>
    rw [fill_var] at hname
    cases hlookup : bindings.lookup other with
    | none =>
      rw [hlookup, Option.elim_none, mem_free_var] at hname
      subst hname
      -- a variable that stays has no value in the list
      refine ⟨List.mem_singleton_self name, fun hmem => ?_⟩
      obtain ⟨binding, hbinding, heq⟩ := List.mem_map.1 hmem
      exact bne_iff_ne.1 (List.lookup_eq_none_iff.1 hlookup binding hbinding) heq.symm
    | some value =>
      rw [hlookup, Option.elim_some] at hname
      exact absurd hname (value.not_mem_free_toExpr name)
  | lit _ | con _ | prim _ => contradiction
  | app func args _ _ hfunc hargs =>
    rw [fill_app, mem_free_app] at hname
    rcases hname with hname | ⟨_, hmem, hname⟩
    · exact (hfunc hname).imp_left fun h => mem_free_app.2 (.inl h)
    · obtain ⟨arg, harg, rfl⟩ := List.mem_map.1 hmem
      exact (hargs arg harg hname).imp_left fun h => mem_free_app.2 (.inr ⟨arg, harg, h⟩)
  | tuple elements _ helements =>
    rw [fill_tuple, mem_free_tuple] at hname
    obtain ⟨_, hmem, hname⟩ := hname
    obtain ⟨element, helement, rfl⟩ := List.mem_map.1 hmem
    exact (helements element helement hname).imp_left fun h =>
      mem_free_tuple.2 ⟨element, helement, h⟩
  | lam param body _ hbody =>
    rw [fill_lam1, mem_free_lam1] at hname
    obtain ⟨hfree, hunbound⟩ := hbody hname.1
    refine ⟨mem_free_lam1.2 ⟨hfree, hname.2⟩, fun hmem => hunbound ?_⟩
    exact (mem_map_fst_withoutNames fun h => hname.2 (List.mem_singleton.1 h)).2 hmem
  | cond condition positive negative _ _ _ hcondition hpositive hnegative =>
    rw [fill_cond, mem_free_cond] at hname
    rcases hname with hname | hname | hname
    · exact (hcondition hname).imp_left fun h => mem_free_cond.2 (.inl h)
    · exact (hpositive hname).imp_left fun h => mem_free_cond.2 (.inr (.inl h))
    · exact (hnegative hname).imp_left fun h => mem_free_cond.2 (.inr (.inr h))
  | block body _ hbody =>
    rw [fill_letIn_nil, mem_free_letIn] at hname
    exact (hbody (hname.1.resolve_left nofun)).imp_left fun h => mem_free_letIn.2 ⟨.inr h, nofun⟩
  | letIn other value body _ _ hvalue hbody =>
    rw [fill_letIn_var, mem_free_letIn_value] at hname
    obtain ⟨hname, hother⟩ := hname
    -- below the binder the values for other names are filled in
    have hleft (h : name ∉ (withoutNames [other] bindings).map Prod.fst) :
        name ∉ bindings.map Prod.fst := fun hmem => h ((mem_map_fst_withoutNames hother).2 hmem)
    rcases hname with hname | hname
    · obtain ⟨hfree, hunbound⟩ := hvalue hname
      exact ⟨mem_free_letIn_value.2 ⟨.inl hfree, hother⟩, hleft hunbound⟩
    · obtain ⟨hfree, hunbound⟩ := hbody hname
      exact ⟨mem_free_letIn_value.2 ⟨.inr hfree, hother⟩, hleft hunbound⟩

theorem namesList_map_fill_subset {es : List Expr}
    (h : ∀ e ∈ es, (e.fill bindings).names ⊆ e.names) :
    namesList (es.map (fill bindings)) ⊆ namesList es := by
  rw [namesList_eq_flatMap, namesList_eq_flatMap, List.flatMap_map]
  intro name hname
  obtain ⟨e, he, hname⟩ := List.mem_flatMap.1 hname
  exact List.mem_flatMap.2 ⟨e, he, h e he hname⟩

/-- No name comes in with the values. -/
theorem names_fill_subset (h : Grammar.core.Generates e) (bindings : List (String × Value)) :
    (e.fill bindings).names ⊆ e.names := by
  -- what holds of the parts holds of the names put together
  have append {names names' left left' : List String} (h : names ⊆ left) (h' : names' ⊆ left') :
      names ++ names' ⊆ left ++ left' :=
    List.append_subset.2 ⟨List.subset_append_of_subset_left _ h,
      List.subset_append_of_subset_right _ h'⟩
  induction e, h using induction_core generalizing bindings with
  | var name =>
    rw [fill_var]
    cases bindings.lookup name with
    | none => exact List.Subset.refl _
    | some value =>
      rw [Option.elim_some, value.names_toExpr]
      exact List.nil_subset _
  | lit _ | con _ | prim _ => exact List.Subset.refl _
  | app func args _ _ hfunc hargs =>
    rw [fill_app, names, names]
    exact append (hfunc bindings)
      (namesList_map_fill_subset fun arg hmem => hargs arg hmem bindings)
  | tuple elements _ helements =>
    rw [fill_tuple, names, names]
    exact namesList_map_fill_subset fun element hmem => helements element hmem bindings
  | lam param body _ hbody =>
    rw [fill_lam1, lam1, lam1, names, names]
    exact append (List.Subset.refl _) (hbody _)
  | cond condition positive negative _ _ _ hcondition hpositive hnegative =>
    rw [fill_cond, names, names]
    exact append (append (hcondition bindings) (hpositive bindings)) (hnegative bindings)
  | block body _ hbody =>
    rw [fill_letIn_nil, names, names]
    exact append (List.Subset.refl _) (hbody _)
  | letIn name value body _ _ hvalue hbody =>
    rw [fill_letIn_var, names, names, namesDecls, namesDecls]
    exact append (append (append (List.Subset.refl _) (hvalue _)) (List.Subset.refl _)) (hbody _)

/-! ## Reading -/

theorem lookup_withoutNames (names : List String) (bindings : List (String × Value))
    (name : String) :
    (withoutNames names bindings).lookup name
      = if name ∈ names then none else bindings.lookup name := by
  induction bindings with
  | nil => exact (ite_self _).symm
  | cons binding bindings ih =>
    obtain ⟨other, value⟩ := binding
    rw [withoutNames, List.filter_cons, ← withoutNames]
    by_cases heq : name = other
    · subst heq
      by_cases hmem : name ∈ names <;> simp [hmem, ih]
    · have hne : (name == other) = false := beq_eq_false_iff_ne.2 heq
      by_cases hmem : other ∈ names <;> simp [hmem, ih, List.lookup_cons, hne]

/-- Below the binder of a name, the name stands for what it is bound to. -/
theorem update_assign (env : Environment) (bindings : List (String × Value)) (name : String)
    (t : Nameless) :
    Environment.assign (Function.update env name t) (withoutNames [name] bindings)
      = Function.update (env.assign bindings) name t := by
  funext other
  rw [Environment.assign, lookup_withoutNames]
  by_cases h : other = name
  · rw [h, if_pos (List.mem_singleton_self name), Function.update_self, Option.elim_none,
      Function.update_self]
  · rw [if_neg fun hmem => h (List.mem_singleton.1 hmem), Function.update_of_ne h,
      Function.update_of_ne h, Environment.assign]

theorem bind_assign (env : Environment) (bindings : List (String × Value)) (name : String) :
    (env.bind name).assign (withoutNames [name] bindings) = (env.assign bindings).bind name := by
  rw [Environment.bind, update_assign, Environment.bind]
  congr 1
  funext other
  rw [Environment.assign, Environment.assign]
  cases bindings.lookup other with
  | none => rfl
  | some value => exact value.closed_nameless.shift.symm

/-- An expression with values for its variables is read as the expression is where the variables
stand for the values. -/
theorem read_fill (h : Grammar.core.Generates e) (bindings : List (String × Value))
    (env : Environment) : (e.fill bindings).read env = e.read (env.assign bindings) := by
  induction e, h using induction_core generalizing bindings env with
  | var name =>
    rw [fill_var, read, Environment.assign]
    cases bindings.lookup name with
    | none => rfl
    | some value => exact value.read_toExpr env
  | lit _ | con _ | prim _ => rfl
  | app func args _ _ hfunc hargs =>
    rw [fill_app, read_app, read_app, hfunc, List.map_map]
    exact congrArg _ (List.map_congr_left fun arg hmem => hargs arg hmem bindings env)
  | tuple elements _ helements =>
    rw [fill_tuple, read_tuple, read_tuple, List.map_map]
    exact congrArg _ (List.map_congr_left fun element hmem => helements element hmem bindings env)
  | lam param body _ hbody => rw [fill_lam1, read_lam1, read_lam1, hbody, bind_assign]
  | cond condition positive negative _ _ _ hcondition hpositive hnegative =>
    rw [fill_cond, read, read, hcondition, hpositive, hnegative]
  | block body _ hbody => rw [fill_letIn_nil, read, read, hbody]
  | letIn name value body _ _ hvalue hbody =>
    -- the name of the block hides a value for it in the value of the block, too
    have hfixpoint : (env.fixpoint (.var name)
          fun env => (value.fill (withoutNames [name] bindings)).read env)
        = (env.assign bindings).fixpoint (.var name) fun env => value.read env := by
      rw [Environment.fixpoint, Environment.fixpoint, Environment.project_var_shift,
        Environment.project_var_shift, hvalue, bind_assign]
    rw [fill_letIn_var, read_letIn rfl, read_letIn rfl, hfixpoint, Environment.project,
      Environment.project, hbody, update_assign]

end Expr

end Clausal
