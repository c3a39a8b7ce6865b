import Mathlib
import Clausal.Typing.Substitution

/-!
# Instances of types

A type is an instance of another if it arises from it by an image for each variable. The laws
here are about images as functions on all variables; `Subst.apply_compose` is where the finite
substitutions of type inference meet them.

## Main results

* `Subst.apply_compose`: a composition acts as its two parts, one after the other;
* `Ty.generalizes_normalized_iff`: numbering the variables of a type changes none of its
  instances.
-/

namespace Clausal

namespace Ty

theorem bindList_eq_map (image : TypeVar → Ty) (ts : List Ty) :
    bindList image ts = ts.map (bind image) := by
  induction ts with
  | nil => rfl
  | cons t ts ih => rw [bindList, ih, List.map_cons]

theorem varsList_eq_flatMap (ts : List Ty) : varsList ts = ts.flatMap vars := by
  induction ts with
  | nil => rfl
  | cons t ts ih => rw [varsList, ih, List.flatMap_cons]

@[simp] theorem bind_con (image : TypeVar → Ty) (c : TyCon) (args : List Ty) :
    (Ty.con c args).bind image = .con c (args.map (bind image)) := by
  rw [bind, bindList_eq_map]

@[simp] theorem bind_var (image : TypeVar → Ty) (v : TypeVar) :
    (Ty.var v).bind image = image v := rfl

@[simp] theorem mem_vars_con {v : TypeVar} {c : TyCon} {args : List Ty} :
    v ∈ (Ty.con c args).vars ↔ ∃ t ∈ args, v ∈ t.vars := by
  rw [vars, varsList_eq_flatMap, List.mem_flatMap]

@[simp] theorem mem_vars_var {v w : TypeVar} : v ∈ (Ty.var w).vars ↔ v = w := by
  rw [vars, List.mem_singleton]

/-- Induction on types with the arguments of a type constructor as one list. -/
theorem args_induction {motive : Ty → Prop} (var : ∀ v, motive (.var v))
    (con : ∀ c args, (∀ t ∈ args, motive t) → motive (.con c args)) (t : Ty) : motive t :=
  @Ty.rec motive (fun args => ∀ t ∈ args, motive t) var con (fun _ h => absurd h List.not_mem_nil)
    (fun _ _ ht hts => List.forall_mem_cons.2 ⟨ht, hts⟩) t

/-- An image is read only at the variables of the type. Two images give the same type exactly if
they agree there. -/
theorem bind_eq_bind_iff {image image' : TypeVar → Ty} {t : Ty} :
    t.bind image = t.bind image' ↔ ∀ v ∈ t.vars, image v = image' v := by
  induction t using args_induction with
  | var v => simp
  | con c args ih =>
    simp only [bind_con, con.injEq, true_and, List.map_inj_left, mem_vars_con]
    constructor
    · rintro h v ⟨t, ht, hv⟩
      exact (ih t ht).1 (h t ht) v hv
    · intro h t ht
      exact (ih t ht).2 fun v hv => h v ⟨t, ht, hv⟩

theorem bind_congr {image image' : TypeVar → Ty} {t : Ty}
    (h : ∀ v ∈ t.vars, image v = image' v) : t.bind image = t.bind image' :=
  bind_eq_bind_iff.2 h

/-- The image of every variable as itself changes nothing. -/
@[simp] theorem bind_self (t : Ty) : t.bind .var = t := by
  induction t using args_induction with
  | var v => rfl
  | con c args ih =>
    rw [bind_con, List.map_congr_left ih, List.map_id']

/-- The type of a function of several arguments under an image. -/
theorem bind_arrows (image : TypeVar → Ty) (params : List Ty) (result : Ty) :
    (arrows params result).bind image
      = arrows (params.map (bind image)) (result.bind image) := by
  induction params with
  | nil => rfl
  | cons param params ih =>
    change (Ty.arrow param (arrows params result)).bind image = _
    rw [bind_con, List.map_cons, List.map_singleton, ih]
    rfl

@[simp] theorem arrows_nil (result : Ty) : arrows [] result = result := rfl

@[simp] theorem arrows_cons (param : Ty) (params : List Ty) (result : Ty) :
    arrows (param :: params) result = .arrow param (arrows params result) := rfl

/-! ## Generality -/

/-- A type is at least as general as each type that a substitution makes of it. -/
def Generalizes (t u : Ty) : Prop := ∃ s : Subst, s.apply t = u

/-- Bindings of some variables to their images. -/
theorem lookup_map_image {image : TypeVar → Ty} {vars : List TypeVar} {v : TypeVar}
    (h : v ∈ vars) : (vars.map fun v => (v, image v)).lookup v = some (image v) := by
  induction vars with
  | nil => contradiction
  | cons w vars ih =>
    rw [List.map_cons, List.lookup_cons]
    by_cases hw : v = w
    · rw [hw, beq_self_eq_true]
    · rw [beq_false_of_ne hw]
      exact ih ((List.mem_cons.1 h).resolve_left hw)

/-- Of an image, the bindings of the variables of a type are enough. -/
theorem generalizes_bind (t : Ty) (image : TypeVar → Ty) : t.Generalizes (t.bind image) := by
  refine ⟨⟨t.vars.map fun v => (v, image v)⟩, bind_congr fun v hv => ?_⟩
  rw [Subst.image, Subst.find?, lookup_map_image hv, Option.getD_some]

theorem generalizes_iff_exists_bind {t u : Ty} :
    t.Generalizes u ↔ ∃ image, t.bind image = u := by
  constructor
  · rintro ⟨s, rfl⟩
    exact ⟨s.image, rfl⟩
  · rintro ⟨image, rfl⟩
    exact generalizes_bind t image

namespace Generalizes

theorem refl (t : Ty) : t.Generalizes t := ⟨.empty, bind_self t⟩

theorem trans {t u w : Ty} (h : t.Generalizes u) (h' : u.Generalizes w) : t.Generalizes w := by
  obtain ⟨s, rfl⟩ := h
  obtain ⟨s', rfl⟩ := h'
  rw [Subst.apply, Subst.apply, bind_bind]
  exact generalizes_bind t _

end Generalizes

theorem mem_distinctVars {v : TypeVar} {t : Ty} : v ∈ t.distinctVars ↔ v ∈ t.vars := by
  rw [distinctVars, List.mem_eraseDups]

/-- The numbers given to the variables of a type can be taken back. -/
theorem exists_bind_normalized (t : Ty) : ∃ image, t.normalized.bind image = t := by
  -- a number is the place of its variable among the distinct ones
  refine ⟨fun w => .var (t.distinctVars[w.id]?.getD w), ?_⟩
  rw [normalized, bind_bind]
  refine (bind_congr fun v hv => ?_).trans (bind_self t)
  have hlt := List.idxOf_lt_length_of_mem (mem_distinctVars.2 hv)
  simp [numbered, TypeVar.numbered, List.getElem?_eq_getElem hlt, List.getElem_idxOf hlt]

/-- A type with its variables numbered anew has the same instances. -/
theorem generalizes_normalized_iff {t u : Ty} :
    t.normalized.Generalizes u ↔ t.Generalizes u := by
  constructor
  · exact Generalizes.trans (generalizes_bind t _)
  · exact Generalizes.trans (generalizes_iff_exists_bind.2 (exists_bind_normalized t))

end Ty

/-! ## Substitutions as images -/

namespace Subst

@[simp] theorem image_empty (v : TypeVar) : empty.image v = .var v := rfl

@[simp] theorem apply_empty (t : Ty) : empty.apply t = t := Ty.bind_self t

/-- A look-up in bindings under a substitution. -/
theorem lookup_map_apply {α : Type} [BEq α] (s : Subst) (bindings : List (α × Ty)) (key : α) :
    (bindings.map fun (other, t) => (other, s.apply t)).lookup key
      = (bindings.lookup key).map s.apply := by
  induction bindings with
  | nil => rfl
  | cons binding bindings ih =>
    rw [List.map_cons, List.lookup_cons, List.lookup_cons, ih]
    split <;> rfl

/-- A look-up in the bindings that are kept, if all those of the variable are. -/
theorem lookup_filter {bindings : List (TypeVar × Ty)} {keep : TypeVar × Ty → Bool}
    {v : TypeVar} (h : ∀ t, keep (v, t) = true) :
    (bindings.filter keep).lookup v = bindings.lookup v := by
  induction bindings with
  | nil => rfl
  | cons binding bindings ih =>
    obtain ⟨w, t⟩ := binding
    by_cases hw : v = w
    · subst hw
      rw [List.filter_cons_of_pos (h t), List.lookup_cons_self, List.lookup_cons_self]
    · have hne : (v == w) = false := beq_false_of_ne hw
      rw [List.filter_cons, List.lookup_cons, hne]
      split
      · rw [List.lookup_cons, hne]
        exact ih
      · exact ih

theorem image_compose (later earlier : Subst) (v : TypeVar) :
    (later.compose earlier).image v = later.apply (earlier.image v) := by
  rw [image, find?, compose, List.lookup_append, lookup_map_apply, ← find?, image]
  cases hv : earlier.find? v with
  | some t => rfl
  -- only bindings of variables that the earlier part binds are dropped from the later one
  | none =>
    rw [lookup_filter fun _ => Option.isNone_iff_eq_none.2 hv]
    rfl

/-- The substitution that a list makes binds exactly the variables of the list, each to one of the
types that the list has for it. -/
theorem find?_ofList_spec (bindings : List (TypeVar × Ty)) (v : TypeVar) :
    (∀ t, (ofList bindings).find? v = some t → (v, t) ∈ bindings)
      ∧ ((ofList bindings).find? v = none → ∀ t, (v, t) ∉ bindings) := by
  rw [find?, ofList]
  induction bindings with
  | nil => simp
  | cons binding bindings ih =>
    obtain ⟨w, u⟩ := binding
    rw [List.foldr_cons]
    dsimp only
    generalize bindings.foldr _ _ = later at ih ⊢
    split
    -- a later binding of the variable counts
    · next hlater =>
      refine ⟨fun t h => List.mem_cons_of_mem _ (ih.1 t h), fun h t hmem => ?_⟩
      rcases List.mem_cons.1 hmem with heq | hmem
      · obtain ⟨rfl, rfl⟩ := Prod.mk.inj heq
        rw [h] at hlater
        contradiction
      · exact ih.2 h t hmem
    · rw [List.lookup_cons]
      split
      · next hv =>
        obtain rfl := eq_of_beq hv
        refine ⟨fun t h => Option.some.inj h ▸ List.mem_cons_self, fun h => ?_⟩
        contradiction
      · next hv =>
        refine ⟨fun t h => List.mem_cons_of_mem _ (ih.1 t h), fun h t hmem => ?_⟩
        rcases List.mem_cons.1 hmem with heq | hmem
        · rw [(Prod.mk.inj heq).1, beq_self_eq_true] at hv
          contradiction
        · exact ih.2 h t hmem

/-- A composition acts as its earlier part and then its later one. -/
theorem apply_compose (later earlier : Subst) (t : Ty) :
    (later.compose earlier).apply t = later.apply (earlier.apply t) := by
  rw [apply, apply, apply, Ty.bind_bind]
  exact Ty.bind_congr fun v _ => image_compose later earlier v

end Subst

end Clausal
