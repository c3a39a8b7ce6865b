import Clausal.Typing.Ty

/-!
# Substitutions of types

A finite map from type variables to types. Variables outside of it stand for themselves.
-/

namespace Clausal

/-- A substitution: bindings of different variables. -/
structure Subst where
  /-- The bindings. -/
  bindings : List (TypeVar × Ty)

namespace Subst

/-- The substitution that changes nothing. -/
def empty : Subst := ⟨[]⟩

/-- The substitution of one variable. -/
def single (v : TypeVar) (t : Ty) : Subst := ⟨[(v, t)]⟩

/-- The type to which a substitution binds a variable. -/
def find? (s : Subst) (v : TypeVar) : Option Ty := s.bindings.lookup v

/-- The type that a variable stands for. -/
def image (s : Subst) (v : TypeVar) : Ty := (s.find? v).getD (.var v)

/-- A type under a substitution. -/
def apply (s : Subst) (t : Ty) : Ty := t.bind s.image

/-- The substitution that a list of bindings makes. Of two for one variable the later counts. -/
def ofList (bindings : List (TypeVar × Ty)) : Subst :=
  ⟨bindings.foldr (fun (v, t) later => if (later.lookup v).isSome then later else (v, t) :: later)
    []⟩

/-- The substitution that acts as `earlier` and then `later`. -/
def compose (later earlier : Subst) : Subst where
  bindings := earlier.bindings.map (fun (v, t) => (v, later.apply t))
    ++ later.bindings.filter fun (v, _) => (earlier.find? v).isNone

/-- Whether a substitution binds no variable. -/
def isEmpty (s : Subst) : Bool := s.bindings.isEmpty

/-- The bindings in the order of their variables. -/
def sortedBindings (s : Subst) : List (TypeVar × Ty) :=
  s.bindings.mergeSort fun a b => a.1.le b.1

/-! ## Laws -/

theorem image_single (v w : TypeVar) (t : Ty) :
    (single v t).image w = if w = v then t else .var w := by
  by_cases h : w = v
  · simp [image, find?, single, h]
  · simp [image, find?, single, h, List.lookup_cons, beq_false_of_ne h]

/-- The variables of a type under a substitution are those of what its variables stand for. -/
theorem mem_vars_apply {s : Subst} {t : Ty} {v : TypeVar} :
    v ∈ (s.apply t).vars ↔ ∃ w ∈ t.vars, v ∈ (s.image w).vars := by
  simp [apply, Ty.vars_bind]

/-- Replacing a variable leaves no other variables than those of the type and of the
replacement, and leaves the variable only if it is in the replacement. -/
theorem mem_vars_apply_single {v w : TypeVar} {t replacement : Ty} :
    w ∈ ((single v replacement).apply t).vars ↔
      w ∈ t.vars ∧ w ≠ v ∨ v ∈ t.vars ∧ w ∈ replacement.vars := by
  simp only [mem_vars_apply, image_single]
  constructor
  · rintro ⟨u, hu, hw⟩
    by_cases h : u = v
    · subst h
      exact .inr ⟨hu, by simpa using hw⟩
    · simp only [h, if_false, Ty.vars, List.mem_singleton] at hw
      subst hw
      exact .inl ⟨hu, h⟩
  · rintro (⟨hw, hne⟩ | ⟨hv, hw⟩)
    · exact ⟨w, hw, by simp [hne, Ty.vars]⟩
    · exact ⟨v, hv, by simpa using hw⟩

end Subst

end Clausal
