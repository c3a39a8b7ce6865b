/-!
# Totals

The sum of a measure over the members of a list, which the measures of nested data are made of.
-/

namespace Clausal

/-- The sum of a measure over a list. -/
def total {α : Type} (measure : α → Nat) : List α → Nat
  | [] => 0
  | a :: as => measure a + total measure as

section

variable {α β : Type} (measure : α → Nat)

@[simp] theorem total_nil : total measure [] = 0 := rfl

@[simp] theorem total_cons (a : α) (as : List α) :
    total measure (a :: as) = measure a + total measure as := rfl

@[simp] theorem total_append (as bs : List α) :
    total measure (as ++ bs) = total measure as + total measure bs := by
  induction as with
  | nil => simp
  | cons a as ih => simp only [List.cons_append, total_cons, ih, Nat.add_assoc]

@[simp] theorem total_map (f : β → α) (bs : List β) :
    total measure (bs.map f) = total (measure ∘ f) bs := by
  induction bs with
  | nil => rfl
  | cons b bs ih => simp only [List.map_cons, total_cons, ih, Function.comp_apply]

end

end Clausal
