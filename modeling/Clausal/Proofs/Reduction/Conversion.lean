import Clausal.Proofs.Nameless.Conversion
import Clausal.Proofs.Reduction.Contraction

/-!
# Conversion

Two terms are convertible if contractions lead from one to the other, forwards and backwards.
Names of bound variables do not matter: a change of a binder is a conversion. To see it, the
abstraction is put below a variable that it does not use, and that is replaced by a term with many
free variables. The binder then gets a fresh name, which depends on its stem only. A replacement
without free variables would have left the binder alone.

## Main results

* `Term.convertible_of_read_eq`: terms that are read the same are convertible;
* `Term.convertible_iff`: terms are convertible just if they are without names;
* `Term.Convertible.reduces_const`: what is convertible to a constant reduces to it.
-/

namespace Clausal.Term

variable {env : Environment} {t t' u func func' arg arg' : Term} {name : String}

/-- Whether contractions, forwards and backwards, lead from one term to another. -/
def Convertible : Term → Term → Prop := Relation.EqvGen Contracts

namespace Convertible

theorem refl (t : Term) : Convertible t t := Relation.EqvGen.refl t

theorem symm (h : Convertible t u) : Convertible u t := Relation.EqvGen.symm _ _ h

theorem trans (h : Convertible t t') (h' : Convertible t' u) : Convertible t u :=
  Relation.EqvGen.trans _ _ _ h h'

theorem of_contracts (h : Contracts t u) : Convertible t u := Relation.EqvGen.rel _ _ h

theorem of_reduces (h : Reduces t u) : Convertible t u := by
  induction h with
  | refl => exact refl t
  | tail _ hstep ih => exact ih.trans (of_contracts hstep)

/-- What takes contractions to contractions takes conversions to conversions. -/
theorem lift {f : Term → Term} (hf : ∀ t u, Contracts t u → Contracts (f t) (f u))
    (h : Convertible t u) : Convertible (f t) (f u) := by
  induction h with
  | rel _ _ hstep => exact of_contracts (hf _ _ hstep)
  | refl _ => exact refl _
  | symm _ _ _ ih => exact ih.symm
  | trans _ _ _ _ _ ih ih' => exact ih.trans ih'

theorem app (hfunc : Convertible func func') (harg : Convertible arg arg') :
    Convertible (.app func arg) (.app func' arg') :=
  (hfunc.lift (f := (.app · arg)) fun _ _ => .func arg).trans
    (harg.lift (f := .app func') fun _ _ => .arg func')

theorem abs (param : String) {body body' : Term} (h : Convertible body body') :
    Convertible (.abs param body) (.abs param body') :=
  h.lift fun _ _ => .abs param

/-- A conversion is read as one. -/
theorem read (h : Convertible t u) (env : Environment) :
    Nameless.Conv (t.read env) (u.read env) := by
  induction h with
  | rel _ _ hstep => exact .of_step (hstep.read env)
  | refl _ => exact .refl _
  | symm _ _ _ ih => exact ih.symm
  | trans _ _ _ _ _ ih ih' => exact ih.trans ih'

end Convertible

/-! ## Substitution for a variable that is not free -/

/-- A closed term for a variable that is not free changes nothing, not even a binder. -/
theorem subst_of_not_mem (hclosed : u.free = []) (h : name ∉ t.free) : t.subst name u = t := by
  rw [subst, hclosed]
  induction t using size_induction with
  | step t ih =>
    rw [substWith.eq_def]
    cases t with
    | var other => exact if_neg fun heq => h (List.mem_singleton.2 heq.symm)
    | const _ => rfl
    | app func arg =>
      rw [mem_free_app, not_or] at h
      exact congrArg₂ Term.app (ih func (by simp only [size]; omega) h.1)
        (ih arg (by simp only [size]; omega) h.2)
    | abs param body =>
      dsimp only
      split
      · rfl
      · next hparam =>
        rw [if_neg (by simp)]
        refine congrArg (Term.abs param) (ih body (by simp only [size]; omega) fun hbody => ?_)
        exact h (mem_free_abs.2 ⟨hbody, fun heq => hparam heq.symm⟩)

/-- A term for a variable that is not free renames binders at most. -/
theorem size_subst_of_not_mem (h : name ∉ t.free) : (t.subst name u).size = t.size := by
  rw [subst]
  induction t using size_induction with
  | step t ih =>
    rw [substWith.eq_def]
    cases t with
    | var other =>
      dsimp only
      rw [if_neg fun heq => h (List.mem_singleton.2 heq.symm)]
    | const _ => rfl
    | app func arg =>
      rw [mem_free_app, not_or] at h
      simp only [size]
      rw [ih func (by simp only [size]; omega) h.1, ih arg (by simp only [size]; omega) h.2]
    | abs param body =>
      dsimp only
      split
      · rfl
      · next hparam =>
        have hbody : name ∉ body.free := fun hbody =>
          h (mem_free_abs.2 ⟨hbody, fun heq => hparam heq.symm⟩)
        split
        · generalize hfresh : freshName param (body.free ++ u.free ++ [name]) = fresh
          have hnot : fresh ∉ body.free ++ u.free ++ [name] := hfresh ▸ freshName_not_mem _ _
          simp only [size]
          rw [ih _ (by simp only [size, size_rename]; omega), size_rename]
          rw [mem_free_rename]
          rintro (⟨rfl, -⟩ | ⟨hname, -⟩)
          · simp at hnot
          · exact hbody hname
        · simp only [size]
          rw [ih body (by simp only [size]; omega) hbody]

/-! ## Names of binders -/

/-- A term with the given free variables that contracts to a closed term. -/
def discarding (names : List String) : Term :=
  .app (.abs "x" (.primitive .bot)) ((Term.primitive .bot).applyAll (names.map .var))

theorem mem_free_discarding {names : List String} :
    name ∈ (discarding names).free ↔ name ∈ names := by
  simp [discarding, mem_free_applyAll, primitive, free]

theorem contracts_discarding (names : List String) :
    Contracts (discarding names) (.primitive .bot) := by
  have h := Contracts.beta "x" (.primitive .bot) ((Term.primitive .bot).applyAll (names.map .var))
  rwa [primitive, subst, substWith] at h

/-- By conversion a binder gets a fresh name, which depends on its stem and on the names around. -/
theorem exists_convertible_abs (param : String) (body : Term) {unused : String}
    {names : List String} (hbody : ∀ name ∈ body.free, name ∈ names) (hparam : param ∈ names)
    (hunused : unused ∉ names) :
    ∃ body', Convertible (.abs param body) (.abs (freshName param (names ++ [unused])) body')
      ∧ body'.size = body.size
      ∧ ∀ env : Environment, body'.read (env.bind (freshName param (names ++ [unused])))
        = body.read (env.bind param) := by
  have hfree : unused ∉ body.free := fun hname => hunused (hbody _ hname)
  -- a redex that drops its argument gives the abstraction
  have hleft : Contracts (.app (.abs unused (.abs param body)) (.primitive .bot))
      (.abs param body) := by
    have h := Contracts.beta unused (.abs param body) (.primitive .bot)
    rwa [subst_of_not_mem rfl fun hname => hfree (mem_free_abs.1 hname).1] at h
  -- the same redex with an argument that uses all the names has to rename the binder
  have hright := Contracts.beta unused (.abs param body) (discarding names)
  rw [subst, substWith, if_neg (ne_of_mem_of_not_mem hparam hunused),
    if_pos (List.contains_iff_mem.2 (mem_free_discarding.2 hparam))] at hright
  have hfresh : freshName param (body.free ++ (discarding names).free ++ [unused])
      = freshName param (names ++ [unused]) := by
    refine freshName_congr rfl fun name => ?_
    simp only [List.mem_append, mem_free_discarding]
    rw [or_iff_right_of_imp (hbody name)]
  dsimp only at hright
  rw [hfresh] at hright
  have hnot := freshName_not_mem param (names ++ [unused])
  generalize freshName param (names ++ [unused]) = fresh at hright hnot
  rw [List.mem_append, not_or, List.mem_singleton] at hnot
  have hrenamed : unused ∉ (rename param fresh body).free := by
    rw [mem_free_rename]
    rintro (⟨heq, -⟩ | ⟨hname, -⟩)
    · exact hnot.2 heq.symm
    · exact hfree hname
  refine ⟨(rename param fresh body).subst unused (discarding names), ?_, ?_, fun env => ?_⟩
  · exact (Convertible.of_contracts hleft).symm.trans
      (((Convertible.refl _).app (.of_contracts (contracts_discarding names))).symm.trans
        (.of_contracts hright))
  · rw [size_subst_of_not_mem hrenamed, size_rename]
  · rw [read_subst, read_update_of_not_mem hrenamed,
      read_rename_bind fun hname => hnot.1 (hbody _ hname)]

/-- Terms that are read the same in leaves are convertible. -/
theorem convertible_of_read_eq (h : env.Leaves) (hread : t.read env = u.read env) :
    Convertible t u := by
  induction t using size_induction generalizing u env with
  | step t ih =>
    cases t with
    | var name => rw [eq_var_of_read h hread.symm]; exact .refl _
    | const c => rw [eq_const_of_read h hread.symm]; exact .refl _
    | app func arg =>
      obtain ⟨func', arg', rfl, hfunc, harg⟩ := exists_app_of_read h hread.symm
      exact (ih func (by simp only [size]; omega) h hfunc).app
        (ih arg (by simp only [size]; omega) h harg)
    | abs param body =>
      obtain ⟨param', body', rfl, hbody⟩ := exists_abs_of_read h hread.symm
      have hstem : stem param = stem param' := (Nameless.abs.inj hread).1
      -- both binders get the same name, apart from all names around
      generalize hnames : param :: param' :: (body.free ++ body'.free) = names
      obtain ⟨unused, hunused⟩ : ∃ unused, unused ∉ names := ⟨_, freshName_not_mem param names⟩
      obtain ⟨body₁, hconv₁, hsize₁, hread₁⟩ := exists_convertible_abs param body
        (fun name hname => hnames ▸ by simp [hname]) (hnames ▸ by simp) hunused
      obtain ⟨body₂, hconv₂, -, hread₂⟩ := exists_convertible_abs param' body'
        (fun name hname => hnames ▸ by simp [hname]) (hnames ▸ by simp) hunused
      rw [← freshName_congr hstem fun _ => Iff.rfl] at hconv₂ hread₂
      have hbodies : Convertible body₁ body₂ := by
        refine ih body₁ ?_ (h.bind (freshName param (names ++ [unused]))) ?_
        · rw [hsize₁]
          simp only [size]
          omega
        · rw [hread₁, hread₂, hbody]
      exact hconv₁.trans ((hbodies.abs _).trans hconv₂.symm)

/-- Terms are convertible just if they are without the names of their variables. -/
theorem convertible_iff : Convertible t u ↔ Nameless.Conv t.nameless u.nameless := by
  refine ⟨fun h => h.read .free, fun h => ?_⟩
  obtain ⟨v, ht, hu⟩ := h.exists_steps
  obtain ⟨t', htt', ht'⟩ := exists_reduces_of_read .free ht
  obtain ⟨u', huu', hu'⟩ := exists_reduces_of_read .free hu
  exact (Convertible.of_reduces htt').trans
    ((convertible_of_read_eq .free (ht'.trans hu'.symm)).trans (Convertible.of_reduces huu').symm)

/-- What is convertible to a constant reduces to it, since a constant has no contraction. -/
theorem Convertible.reduces_const {c : Constant} (h : Convertible t (.const c)) :
    Reduces t (.const c) := by
  obtain ⟨v, ht, hc⟩ := (h.read .free).exists_steps
  obtain ⟨t', hreduces, hread⟩ := exists_reduces_of_read .free ht
  rw [hc.eq_const] at hread
  rwa [eq_const_of_read .free hread] at hreduces

end Clausal.Term
