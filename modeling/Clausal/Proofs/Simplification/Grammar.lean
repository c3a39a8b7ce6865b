import Clausal.Proofs.Simplification.FirstPlace

/-!
# Grammars of expressions

A grammar tells which lambdas, blocks and cases an expression may hold; every other node is in
every grammar. It looks at one node at a time, and at a block without the right-hand sides of its
declarations, so a change further down never takes a node out of the grammar.

The passes of simplification lead from one grammar to the next. What they build out of the parts
of a match is made of applications, conditionals and lambdas of one variable.

## Main results

* `Grammar.Generates.of_rewrites`: replacing a subexpression within a grammar stays in it;
* `Grammar.generates_lam` and its companions: the expressions of a grammar, by their first node;
* `Matching.generates_elaborate`: a match is expanded within a grammar that has lambdas of one
  variable;
* `Matching.generates_bindLazily`: so is a binding without tests.
-/

namespace Clausal

/-! ## Grammars -/

/-- The nodes that an expression may have. -/
structure Grammar where
  /-- The parameters that a lambda may have. -/
  lambda : List Pattern → Prop
  /-- The declarations that a block may have. -/
  block : List (Decl Unit) → Prop
  /-- Whether there may be cases. -/
  caseOf : Prop

namespace Grammar

variable {g : Grammar}

/-- Whether a grammar has the first node of an expression. -/
def Admits (g : Grammar) : Expr → Prop
  | .lam params _ => g.lambda params
  | .letIn decls _ => g.block (decls.map Decl.outline)
  | .caseOf _ _ => g.caseOf
  | _ => True

/-- The expressions of a grammar. -/
def Generates (g : Grammar) (e : Expr) : Prop := e.Everywhere g.Admits

/-- A grammar does not look at the subexpressions of a node. -/
theorem admits_withChildren {e : Expr} {new : List Expr}
    (hlength : new.length = e.children.length) :
    g.Admits (e.withChildren new) ↔ g.Admits e := by
  cases e with
  | var _ | lit _ | con _ | prim _ | tuple _ => exact Iff.rfl
  | app func args =>
    cases new with
    | nil => exact Iff.rfl
    | cons _ _ => exact Iff.rfl
  | lam params body =>
    obtain ⟨body', rfl⟩ := List.length_eq_one_iff.1 hlength
    exact Iff.rfl
  | cond condition positive negative =>
    obtain ⟨_, _, _, rfl⟩ := List.length_eq_three.1 hlength
    exact Iff.rfl
  | letIn decls body =>
    rw [Expr.withChildren, Admits, Admits, Decl.outline_withBodies]
  | caseOf scrutinee arms =>
    cases new with
    | nil => exact Iff.rfl
    | cons _ _ => exact Iff.rfl

theorem generates_iff {e : Expr} :
    g.Generates e ↔ g.Admits e ∧ ∀ c ∈ e.children, g.Generates c :=
  Expr.everywhere_iff

/-- Other subexpressions make another expression of the grammar. -/
theorem Generates.withChildren {e : Expr} {new : List Expr} (h : g.Generates e)
    (hlength : new.length = e.children.length) (hnew : ∀ c ∈ new, g.Generates c) :
    g.Generates (e.withChildren new) := by
  refine generates_iff.2 ⟨?_, ?_⟩
  · exact (admits_withChildren hlength).2 (generates_iff.1 h).1
  · rw [Expr.children_withChildren hlength]
    exact hnew

/-- An expression stays in the grammar if a subexpression is replaced within the grammar. -/
theorem Generates.of_rewrites {R : Expr → Expr → Prop} {e e' : Expr} (h : g.Generates e)
    (hR : ∀ c c', g.Generates c → R c c' → g.Generates c') (hrewrites : e.Rewrites R e') :
    g.Generates e' := by
  induction hrewrites with
  | root hroot => exact hR _ _ h hroot
  | @child e c c' before after hchildren _ ih =>
    -- only the replaced subexpression is new, and it is in the grammar by induction
    have hparts := (generates_iff.1 h).2
    rw [hchildren, List.forall_mem_append, List.forall_mem_cons] at hparts
    obtain ⟨hbefore, hc, hafter⟩ := hparts
    refine h.withChildren (Expr.length_of_children_eq hchildren c') ?_
    rw [List.forall_mem_append, List.forall_mem_cons]
    exact ⟨hbefore, ih hc, hafter⟩

@[simp] theorem generates_var (name : String) : g.Generates (.var name) :=
  generates_iff.2 ⟨trivial, by simp [Expr.children]⟩

@[simp] theorem generates_lit (literal : Literal) : g.Generates (.lit literal) :=
  generates_iff.2 ⟨trivial, by simp [Expr.children]⟩

@[simp] theorem generates_con (name : String) : g.Generates (.con name) :=
  generates_iff.2 ⟨trivial, by simp [Expr.children]⟩

@[simp] theorem generates_prim (primitive : Primitive) : g.Generates (.prim primitive) :=
  generates_iff.2 ⟨trivial, by simp [Expr.children]⟩

theorem generates_app {func : Expr} {args : List Expr} :
    g.Generates (.app func args) ↔ g.Generates func ∧ ∀ arg ∈ args, g.Generates arg := by
  rw [generates_iff, Expr.children, List.forall_mem_cons]
  exact and_iff_right trivial

theorem generates_tuple {elements : List Expr} :
    g.Generates (.tuple elements) ↔ ∀ element ∈ elements, g.Generates element := by
  rw [generates_iff, Expr.children]
  exact and_iff_right trivial

theorem generates_lam {params : List Pattern} {body : Expr} :
    g.Generates (.lam params body) ↔ g.lambda params ∧ g.Generates body := by
  rw [generates_iff, Expr.children, List.forall_mem_singleton]
  rfl

theorem generates_cond {condition positive negative : Expr} :
    g.Generates (.cond condition positive negative)
      ↔ g.Generates condition ∧ g.Generates positive ∧ g.Generates negative := by
  rw [generates_iff, Expr.children, List.forall_mem_cons, List.forall_mem_cons,
    List.forall_mem_singleton]
  exact and_iff_right trivial

theorem generates_letIn {decls : List (Decl Expr)} {body : Expr} :
    g.Generates (.letIn decls body)
      ↔ g.block (decls.map Decl.outline)
        ∧ (∀ value ∈ Decl.bodies decls, g.Generates value) ∧ g.Generates body := by
  rw [generates_iff, Expr.children_letIn, List.forall_mem_append, List.forall_mem_singleton]
  rfl

theorem generates_caseOf {scrutinee : Expr} {arms : List (Arm Expr)} :
    g.Generates (.caseOf scrutinee arms)
      ↔ g.caseOf ∧ g.Generates scrutinee ∧ ∀ arm ∈ arms, g.Generates arm.body := by
  rw [generates_iff, Expr.children, List.forall_mem_cons, List.forall_mem_map]
  rfl

theorem generates_app1 {func arg : Expr} :
    g.Generates (.app1 func arg) ↔ g.Generates func ∧ g.Generates arg := by
  rw [Expr.app1, generates_app, List.forall_mem_singleton]

theorem generates_lam1 {name : String} {body : Expr} :
    g.Generates (.lam1 name body) ↔ g.lambda [.var name] ∧ g.Generates body :=
  generates_lam

end Grammar

/-! ## Expansion of matches -/

namespace Matching

open Grammar

variable {g : Grammar}

theorem generates_probe {primitive : Primitive} {s : Expr} (hs : g.Generates s) :
    g.Generates (probe primitive s) :=
  generates_app1.2 ⟨generates_prim primitive, hs⟩

/-- The parts of a value of a grammar are in the grammar. -/
theorem generates_of_mem_parts {count : Nat} {s part : Expr} (hs : g.Generates s)
    (h : part ∈ parts count s) : g.Generates part := by
  rw [parts] at h
  split at h
  · exact List.mem_singleton.1 h ▸ hs
  · rw [selectors, List.mem_map] at h
    obtain ⟨i, -, rfl⟩ := h
    exact generates_probe hs

theorem generates_of_mem_components? {count : Nat} {s : Expr} {components : List Expr}
    (hs : g.Generates s) (h : components? count s = some components) :
    ∀ part ∈ components, g.Generates part := by
  rw [components?.eq_def] at h
  split at h
  · split at h
    · exact Option.some.inj h ▸ generates_tuple.1 hs
    · contradiction
  · contradiction

/-- A name is bound by a lambda of one variable. -/
theorem generates_bindName (hvar : ∀ name, g.lambda [.var name]) {name : String}
    {s body : Expr} (hs : g.Generates s) (hbody : g.Generates body) :
    g.Generates (bindName name s body) := by
  have hbound : g.Generates (.app1 (.lam1 name body) s) :=
    generates_app1.2 ⟨generates_lam1.2 ⟨hvar name, hbody⟩, hs⟩
  rw [bindName.eq_def]
  split
  · split
    · exact hbody
    · exact hbound
  · exact hbound

mutual

/-- A match is expanded within the grammar. -/
theorem generates_expand (hvar : ∀ name, g.lambda [.var name]) (p : Pattern)
    {s success failure : Expr} (hs : g.Generates s) (hsuccess : g.Generates success)
    (hfailure : g.Generates failure) : g.Generates (expand p s success failure) := by
  match p with
  | .var name =>
    rw [expand]
    exact generates_bindName hvar hs hsuccess
  | .wildcard =>
    rw [expand]
    exact hsuccess
  | .lit literal =>
    rw [expand]
    exact generates_cond.2 ⟨generates_probe hs, hsuccess, hfailure⟩
  | .con name args =>
    rw [expand]
    refine generates_cond.2 ⟨generates_probe hs, ?_, hfailure⟩
    exact generates_expandAll hvar args
      (fun part hpart => generates_of_mem_parts (generates_probe hs) hpart) hsuccess hfailure
  | .tuple elements =>
    rw [expand]
    split
    · next components hcomponents =>
      exact generates_expandAll hvar elements (generates_of_mem_components? hs hcomponents) hsuccess
        hfailure
    · have hmatched : g.Generates
          (expandAll elements (parts elements.length s) success failure) :=
        generates_expandAll hvar elements (fun part hpart => generates_of_mem_parts hs hpart)
          hsuccess hfailure
      dsimp only
      split
      · exact hmatched
      · exact generates_cond.2 ⟨generates_probe hs, hmatched, hfailure⟩

/-- The same for patterns matched one after the other. -/
theorem generates_expandAll (hvar : ∀ name, g.lambda [.var name]) (ps : List Pattern)
    {ss : List Expr} {success failure : Expr} (hss : ∀ s ∈ ss, g.Generates s)
    (hsuccess : g.Generates success) (hfailure : g.Generates failure) :
    g.Generates (expandAll ps ss success failure) := by
  match ps, ss with
  | [], _ =>
    rw [expandAll_nil_left]
    exact hsuccess
  | _ :: _, [] =>
    rw [expandAll_nil_right]
    exact hsuccess
  | p :: ps, s :: ss =>
    obtain ⟨hs, hss⟩ := List.forall_mem_cons.1 hss
    rw [expandAll]
    exact generates_expand hvar p hs (generates_expandAll hvar ps hss hsuccess hfailure) hfailure

end

/-- A failure that is shared is bound to a variable. -/
theorem generates_elaborate (hvar : ∀ name, g.lambda [.var name]) (share : Bool)
    (p : Pattern) {s success failure : Expr} (supply : FreshSupply) (hs : g.Generates s)
    (hsuccess : g.Generates success) (hfailure : g.Generates failure) :
    g.Generates (elaborate share p s success failure supply).1 := by
  rw [elaborate]
  dsimp only
  split
  · refine generates_app1.2 ⟨generates_lam1.2 ⟨hvar _, ?_⟩, hfailure⟩
    exact generates_expand hvar p hs hsuccess (generates_var _)
  · exact generates_expand hvar p hs hsuccess hfailure

mutual

/-- The names of a pattern are bound within the grammar. -/
theorem generates_bindLazily (hvar : ∀ name, g.lambda [.var name]) (p : Pattern)
    {s body : Expr} (hs : g.Generates s)
    (hbody : g.Generates body) : g.Generates (bindLazily p s body) := by
  match p with
  | .var name =>
    rw [bindLazily]
    exact generates_bindName hvar hs hbody
  | .wildcard =>
    rw [bindLazily]
    exact hbody
  | .lit literal =>
    rw [bindLazily]
    exact generates_expand hvar (.lit literal) hs hbody (generates_prim _)
  | .con name args =>
    rw [bindLazily]
    exact generates_expand hvar (.con name args) hs hbody (generates_prim _)
  | .tuple elements =>
    rw [bindLazily]
    exact generates_bindAllLazily hvar elements
      (fun part hpart => generates_of_mem_parts hs hpart) hbody

/-- The same for patterns bound one after the other. -/
theorem generates_bindAllLazily (hvar : ∀ name, g.lambda [.var name]) (ps : List Pattern)
    {ss : List Expr} {body : Expr}
    (hss : ∀ s ∈ ss, g.Generates s) (hbody : g.Generates body) :
    g.Generates (bindAllLazily ps ss body) := by
  match ps, ss with
  | [], _ =>
    rw [bindAllLazily]
    · exact hbody
    · exact nofun
  | _ :: _, [] =>
    rw [bindAllLazily]
    · exact hbody
    · exact nofun
  | p :: ps, s :: ss =>
    obtain ⟨hs, hss⟩ := List.forall_mem_cons.1 hss
    rw [bindAllLazily]
    exact generates_bindLazily hvar p hs (generates_bindAllLazily hvar ps hss hbody)

end

end Matching

end Clausal
