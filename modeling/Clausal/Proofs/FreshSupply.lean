import Clausal.FreshSupply
import Clausal.Proofs.Decimal.Digits
import Clausal.Proofs.Term.FreeVariables

/-!
# Fresh supplies

A supply that starts past all names of a program hands out none of them, as long as the numbers are
in the machine's range. A name with a greater number is none that the supply was told of.

## Main results

* `FreshSupply.number?_nameOf`: the number of a fresh variable is read back;
* `FreshSupply.nameOf_inj`: fresh variables with different numbers are different;
* `FreshSupply.avoids_of_past`: a supply that starts past some names avoids them.
-/

namespace Clausal

/-- Whether a variable was drawn between two numbers. -/
def DrawnFrom (low high : Nat) (name : String) : Prop :=
  ∃ number, low ≤ number ∧ number < high ∧ name = FreshSupply.nameOf number

theorem DrawnFrom.mono {low high low' high' : Nat} {name : String} (h : DrawnFrom low high name)
    (hlow : low' ≤ low) (hhigh : high ≤ high') : DrawnFrom low' high' name := by
  obtain ⟨number, hle, hlt, rfl⟩ := h
  exact ⟨number, hlow.trans hle, hlt.trans_le hhigh, rfl⟩

namespace FreshSupply

variable {names : List String} {name : String} {number : Nat} {supply : FreshSupply}

theorem toList_nameOf (number : Nat) : (nameOf number).toList = 'x' :: Nat.toDigits 10 number := by
  rw [nameOf, String.toList_append, ← Nat.toList_repr]
  rfl

/-- The number of a fresh variable is read back, in the machine's range. -/
theorem number?_nameOf (h : number < Digits.indexBound) :
    number? (nameOf number) = some number := by
  simp only [number?, toList_nameOf]
  exact Digits.readIndex?_toDigits h

/-- Fresh variables with different numbers are different. -/
theorem nameOf_inj {number' : Nat} (h : nameOf number = nameOf number') : number = number' := by
  have hlist := congrArg String.toList h
  rw [toList_nameOf, toList_nameOf] at hlist
  have hread := congrArg Digits.read? (List.cons.inj hlist).2
  rw [Digits.read?_toDigits, Digits.read?_toDigits] at hread
  exact Option.some.inj hread

/-- There are more variables than names in a list. -/
theorem exists_draw_not_mem (names : List String) :
    ∃ supply : FreshSupply, supply.draw.1 ∉ names := by
  have hinjective : Function.Injective nameOf := fun _ _ => nameOf_inj
  obtain ⟨_, ⟨number, rfl⟩, hnot⟩ :=
    (Set.infinite_range_of_injective hinjective).exists_notMem_finset names.toFinset
  exact ⟨⟨number⟩, fun hmem => hnot (List.mem_toFinset.2 hmem)⟩

/-- The variables drawn at once are different. -/
theorem nodup_drawMany (supply : FreshSupply) (count : Nat) : (supply.drawMany count).1.Nodup :=
  List.Nodup.map (fun _ _ h => Nat.add_left_cancel (nameOf_inj h)) List.nodup_range

theorem le_foldl_max (numbers : List Nat) (start : Nat) :
    start ≤ numbers.foldl (fun next number => max next (number + 1)) start
      ∧ ∀ number ∈ numbers,
        number < numbers.foldl (fun next number => max next (number + 1)) start := by
  induction numbers generalizing start with
  | nil => exact ⟨Nat.le_refl _, List.forall_mem_nil _⟩
  | cons first numbers ih =>
    obtain ⟨hstart, hnumbers⟩ := ih (max start (first + 1))
    rw [List.foldl_cons, List.forall_mem_cons]
    exact ⟨by omega, by omega, hnumbers⟩

theorem foldl_max_of_lt {numbers : List Nat} {start : Nat}
    (h : ∀ number ∈ numbers, number < start) :
    numbers.foldl (fun next number => max next (number + 1)) start = start := by
  induction numbers with
  | nil => rfl
  | cons first numbers ih =>
    obtain ⟨hfirst, hnumbers⟩ := List.forall_mem_cons.1 h
    rw [List.foldl_cons, max_eq_left hfirst, ih hnumbers]

/-- A supply that starts past some names is past their numbers. -/
theorem lt_past (hname : name ∈ names) (hnumber : number? name = some number) :
    number < (past names).next :=
  (le_foldl_max _ 0).2 number (List.mem_filterMap.2 ⟨name, hname, hnumber⟩)

/-- A supply that starts past some names starts past them with more of the same. -/
theorem past_append_of_subset {names' : List String} (h : names' ⊆ names) :
    past (names ++ names') = past names := by
  rw [past, List.filterMap_append, List.foldl_append]
  refine congrArg FreshSupply.mk (foldl_max_of_lt fun number hnumber => ?_)
  obtain ⟨name, hname, hnumber⟩ := List.mem_filterMap.1 hnumber
  exact lt_past (h hname) hnumber

/-- Whether none of the next `count` variables is among some names. -/
def Avoids (supply : FreshSupply) (count : Nat) (names : List String) : Prop :=
  ∀ number, supply.next ≤ number → number < supply.next + count → nameOf number ∉ names

theorem mem_drawMany {count : Nat} (h : name ∈ (supply.drawMany count).1) :
    DrawnFrom supply.next (supply.next + count) name := by
  obtain ⟨i, hi, rfl⟩ := List.mem_map.1 h
  have := List.mem_range.1 hi
  exact ⟨supply.next + i, by omega, by omega, rfl⟩

theorem Avoids.mono {count : Nat} {names' : List String} (h : supply.Avoids count names)
    (hnames : names' ⊆ names) : supply.Avoids count names' :=
  fun number hnext hlt hmem => h number hnext hlt (hnames hmem)

/-- A supply that starts past some names avoids them, in the machine's range. -/
theorem avoids_of_past {count : Nat} (hpast : (past names).next ≤ supply.next)
    (hrange : supply.next + count ≤ Digits.indexBound) : supply.Avoids count names := by
  intro number hnext hlt hmem
  have := lt_past hmem (number?_nameOf (hlt.trans_le hrange))
  omega

end FreshSupply

end Clausal
