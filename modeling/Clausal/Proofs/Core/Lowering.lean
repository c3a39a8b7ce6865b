import Clausal.Core.ToTerm
import Clausal.Proofs.Core.FromSurface
import Clausal.Proofs.Surface.Scopes
import Clausal.Proofs.Term.FreeVariables

/-!
# Core expressions by the form of the surface expression

What the core expression of each form of surface expression is made of.

## Main results

* `Core.Lowers`: a surface expression with its core expression, form by form;
* `Core.lowers_of_ofExpr`: so are the core expressions that `Core.ofExpr` gives;
* `Core.mem_free_toTermIn`: the free variables of the lambda term are those of the surface
  expression that no primitive is called by.
-/

namespace Clausal.Core

theorem bind_eq_ok_iff {ε α β : Type} {first : Except ε α} {rest : α → Except ε β} {b : β} :
    first >>= rest = .ok b ↔ ∃ a, first = .ok a ∧ rest a = .ok b := by
  cases first with
  | error error => exact ⟨nofun, nofun⟩
  | ok a =>
    constructor
    · exact fun h => ⟨a, rfl, h⟩
    · rintro ⟨_, h, hrest⟩
      cases h
      exact hrest

/-- A surface expression with its core expression. -/
inductive Lowers : Expr → Core → Prop
  | var (name : String) : Lowers (.var name) (.var name)
  | lit (literal : Literal) : Lowers (.lit literal) (.const (.literal literal))
  | con (name : String) : Lowers (.con name) (.const (.constructor name))
  | prim (primitive : Primitive) : Lowers (.prim primitive) (.const (.primitive primitive))
  | app {func : Expr} {args : List Expr} {func' : Core} {args' : List Core} :
      Lowers func func' → List.Forall₂ Lowers args args' →
      Lowers (.app func args) (args'.foldl .app func')
  | tuple {elements : List Expr} {elements' : List Core} :
      List.Forall₂ Lowers elements elements' → Lowers (.tuple elements) (.tuple elements')
  | lam (param : String) {body : Expr} {body' : Core} :
      Lowers body body' → Lowers (.lam [.var param] body) (.lam param body')
  | cond {condition positive negative : Expr} {condition' positive' negative' : Core} :
      Lowers condition condition' → Lowers positive positive' → Lowers negative negative' →
      Lowers (.cond condition positive negative) (.cond condition' positive' negative')
  | block {body : Expr} {body' : Core} : Lowers body body' → Lowers (.letIn [] body) body'
  | letIn (name : String) {value body : Expr} {value' body' : Core} :
      Lowers value value' → Lowers body body' →
      Lowers (.letIn [.value (.var name) value] body) (.letIn name value' body')

theorem forall₂_lowers_of_ofExprs {es : List Expr} {cores : List Core}
    (hes : ∀ e ∈ es, ∀ core, ofExpr e = .ok core → Lowers e core)
    (h : ofExprs es = .ok cores) : List.Forall₂ Lowers es cores := by
  induction es generalizing cores with
  | nil =>
    cases h
    exact .nil
  | cons e es ih =>
    obtain ⟨he, hes⟩ := List.forall_mem_cons.1 hes
    simp only [ofExprs, bind_eq_ok_iff] at h
    obtain ⟨core, hcore, cores, hcores, heq⟩ := h
    cases heq
    exact .cons (he core hcore) (ih hes hcores)

/-- The core expression of a surface expression has the form that goes with it. -/
theorem lowers_of_ofExpr {e : Expr} {core : Core} (h : ofExpr e = .ok core) : Lowers e core := by
  induction e using Expr.induction_children generalizing core with
  | step e ih =>
    cases e with
    | var name => cases h; exact .var name
    | lit literal => cases h; exact .lit literal
    | con name => cases h; exact .con name
    | prim primitive => cases h; exact .prim primitive
    | app func args =>
      obtain ⟨hfunc, hargs⟩ := List.forall_mem_cons.1 ih
      simp only [ofExpr, bind_eq_ok_iff] at h
      obtain ⟨func', hfunc', args', hargs', heq⟩ := h
      cases heq
      exact .app (hfunc hfunc') (forall₂_lowers_of_ofExprs (fun e he _ => hargs e he) hargs')
    | tuple elements =>
      simp only [ofExpr, bind_eq_ok_iff] at h
      obtain ⟨elements', helements', heq⟩ := h
      cases heq
      exact .tuple (forall₂_lowers_of_ofExprs (fun e he _ => ih e he) helements')
    | lam params body =>
      have hbody {core : Core} (h : ofExpr body = .ok core) : Lowers body core :=
        ih body List.mem_cons_self h
      -- only a function of one variable has a core expression
      by_cases hparams : ∃ name, params = [.var name]
      · obtain ⟨name, rfl⟩ := hparams
        rw [ofExpr] at h
        obtain ⟨body', hbody', heq⟩ := bind_eq_ok_iff.1 h
        cases heq
        exact .lam name (hbody hbody')
      · rw [ofExpr] at h
        · contradiction
        · exact fun name heq => hparams ⟨name, heq⟩
    | cond condition positive negative =>
      simp only [Expr.children, List.forall_mem_cons] at ih
      obtain ⟨hcondition, hpositive, hnegative, -⟩ := ih
      simp only [ofExpr, bind_eq_ok_iff] at h
      obtain ⟨condition', hcondition', positive', hpositive', negative', hnegative', heq⟩ := h
      cases heq
      exact .cond (hcondition hcondition') (hpositive hpositive') (hnegative hnegative')
    | letIn decls body =>
      rw [Expr.children_letIn, List.forall_mem_append, List.forall_mem_singleton] at ih
      obtain ⟨hbodies, hbody⟩ := ih
      -- a block with a core expression is empty or binds one variable
      have hblock := block_core_iff.1 (Grammar.generates_letIn.1
        (exists_ofExpr_eq_ok_iff.1 ⟨core, h⟩)).1
      obtain rfl | ⟨name, value, rfl⟩ := hblock
      · rw [ofExpr] at h
        exact .block (hbody h)
      · simp only [ofExpr, bind_eq_ok_iff] at h
        obtain ⟨value', hvalue', body', hbody', heq⟩ := h
        cases heq
        exact .letIn name (hbodies value List.mem_cons_self hvalue') (hbody hbody')
    | caseOf scrutinee arms => cases h

/-! ## Free variables -/

variable {name : String} {scope : List String}

theorem toTermsIn_eq_map (scope : List String) (cores : List Core) :
    toTermsIn scope cores = cores.map (toTermIn scope) := by
  induction cores with
  | nil => rfl
  | cons core cores ih => rw [toTermsIn, ih, List.map_cons]

/-- A tuple of one component is the component. -/
theorem toTermIn_tuple (scope : List String) (elements : List Core) :
    toTermIn scope (.tuple elements) = match elements with
      | [element] => toTermIn scope element
      | elements => (Term.primitive (.tuple elements.length)).applyAll
          (elements.map (toTermIn scope)) := by
  split
  · rw [toTermIn]
  · rw [toTermIn, toTermsIn_eq_map]
    assumption

theorem toTermIn_foldl_app (scope : List String) (func : Core) (args : List Core) :
    toTermIn scope (args.foldl .app func)
      = (toTermIn scope func).applyAll (args.map (toTermIn scope)) := by
  induction args generalizing func with
  | nil => rfl
  | cons arg args ih => rw [List.foldl_cons, ih, toTermIn, List.map_cons, Term.applyAll_cons]

theorem mem_free_recursive {other : String} {value : Term} :
    name ∈ (Term.recursive other value).free ↔ name ∈ value.free ∧ name ≠ other := by
  rw [Term.recursive, Term.mem_free_app, Term.mem_free_abs]
  exact or_iff_right List.not_mem_nil

theorem mem_free_ofName {other : String} (h : name ∈ (Term.ofName scope other).free) :
    name = other ∧ (name ∈ scope ∨ Primitive.ofName? name = none) := by
  rw [Term.ofName] at h
  split at h
  · next hscope =>
    obtain rfl := List.mem_singleton.1 h
    exact ⟨rfl, .inl (List.contains_iff_mem.1 hscope)⟩
  · split at h
    · contradiction
    · next hnone =>
      obtain rfl := List.mem_singleton.1 h
      exact ⟨rfl, .inr hnone⟩

/-- A free variable of the lambda term is one of the surface expression, and no primitive is called
by it unless it is in scope. -/
theorem Lowers.mem_free_toTermIn {e : Expr} {core : Core} (h : Lowers e core)
    (hname : name ∈ (core.toTermIn scope).free) :
    name ∈ e.free ∧ (name ∈ scope ∨ Primitive.ofName? name = none) := by
  induction e using Expr.induction_children generalizing core scope with
  | step e ih =>
    cases h with
    | var other =>
      obtain ⟨rfl, h⟩ := mem_free_ofName (by simpa [toTermIn] using hname)
      exact ⟨Expr.mem_free_var.2 rfl, h⟩
    | lit _ | con _ | prim _ => simp [toTermIn, Term.free] at hname
    | app hfunc hargs =>
      rw [toTermIn_foldl_app, Term.mem_free_applyAll] at hname
      rw [Expr.mem_free_app]
      rcases hname with hname | ⟨_, harg, hname⟩
      · exact (ih _ List.mem_cons_self hfunc hname).imp_left .inl
      · obtain ⟨arg', harg', rfl⟩ := List.mem_map.1 harg
        obtain ⟨arg, harg, hlowers⟩ := exists_mem_of_forall₂ hargs harg'
        exact (ih arg (List.mem_cons_of_mem _ harg) hlowers hname).imp_left
          fun h => .inr ⟨arg, harg, h⟩
    | @tuple elements elements' helements =>
      rw [Expr.mem_free_tuple]
      have helement {core : Core} (hcore : core ∈ elements')
          (hname : name ∈ (core.toTermIn scope).free) :
          (∃ element ∈ elements, name ∈ element.free)
            ∧ (name ∈ scope ∨ Primitive.ofName? name = none) := by
        obtain ⟨element, helement, hlowers⟩ := exists_mem_of_forall₂ helements hcore
        exact (ih element helement hlowers hname).imp_left fun h => ⟨element, helement, h⟩
      rw [toTermIn_tuple] at hname
      split at hname
      · exact helement (List.mem_singleton_self _) hname
      · obtain ⟨core, hcore, hname⟩ : ∃ core ∈ _, name ∈ (toTermIn scope core).free := by
          simpa [Term.mem_free_applyAll, Term.primitive, Term.free] using hname
        exact helement hcore hname
    | @lam param body body' hbody =>
      rw [toTermIn, Term.mem_free_abs] at hname
      -- below the binder the parameter is in scope, but it is not free outside
      obtain ⟨hfree, hscope⟩ := ih body List.mem_cons_self hbody hname.1
      refine ⟨Expr.mem_free_lam1.2 ⟨hfree, hname.2⟩, ?_⟩
      exact hscope.imp_left fun h => (List.mem_cons.1 h).resolve_left hname.2
    | cond hcondition hpositive hnegative =>
      simp only [Expr.children, List.forall_mem_cons] at ih
      obtain ⟨ihcondition, ihpositive, ihnegative, -⟩ := ih
      simp only [toTermIn, Term.mem_free_applyAll, List.exists_mem_cons_iff] at hname
      rw [Expr.mem_free_cond]
      rcases hname with hname | hname | hname | hname | ⟨_, hnil, -⟩
      · simp [Term.primitive, Term.free] at hname
      · exact (ihcondition hcondition hname).imp_left .inl
      · exact (ihpositive hpositive hname).imp_left fun h => .inr (.inl h)
      · exact (ihnegative hnegative hname).imp_left fun h => .inr (.inr h)
      · contradiction
    | block hbody =>
      refine (ih _ List.mem_cons_self hbody hname).imp_left fun h => ?_
      exact Expr.mem_free_letIn.2 ⟨.inr h, List.not_mem_nil⟩
    | @letIn param value body value' body' hvalue hbody =>
      rw [Expr.mem_free_letIn_value, Pattern.boundNames, List.mem_singleton]
      -- the name of the block is in scope in the value as well as in the body
      have hpart {e : Expr} {core : Core}
          (he : e ∈ (Expr.letIn [.value (.var param) value] body).children) (hlowers : Lowers e core)
          (hname : name ∈ (core.toTermIn (param :: scope)).free) (hne : name ≠ param) :
          name ∈ e.free ∧ (name ∈ scope ∨ Primitive.ofName? name = none) :=
        (ih e he hlowers hname).imp_right fun h =>
          h.imp_left fun h => (List.mem_cons.1 h).resolve_left hne
      rw [toTermIn, Term.mem_free_subst] at hname
      rcases hname with ⟨hname, hne⟩ | ⟨-, hname⟩
      · obtain ⟨hfree, hscope⟩ :=
          hpart (List.mem_cons_of_mem _ List.mem_cons_self) hbody hname hne
        exact ⟨⟨.inr hfree, hne⟩, hscope⟩
      · obtain ⟨hname, hne⟩ := mem_free_recursive.1 hname
        obtain ⟨hfree, hscope⟩ := hpart List.mem_cons_self hvalue hname hne
        exact ⟨⟨.inl hfree, hne⟩, hscope⟩

end Clausal.Core
