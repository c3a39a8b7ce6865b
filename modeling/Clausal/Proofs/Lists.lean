import Mathlib.Data.List.Forall2

/-!
# Lists

What the proofs about lists of subexpressions and of arguments need beside the library.

## Main results

* `findSome?_rel`: a search for related things finds related things;
* `exists_mem_of_forall₂`: each member of a related list comes from one of the other;
* `exists_mem_zip`: what is zipped with a list is zipped with a related one;
* `eraseDups_map`: different elements stay different under a map that is injective on the list.
-/

namespace Clausal

theorem mem_removeAll_iff {α : Type} [BEq α] [LawfulBEq α] {a : α} {as bs : List α} :
    a ∈ as.removeAll bs ↔ a ∈ as ∧ a ∉ bs := by
  simp [List.removeAll]

/-- The one element that leads to something is found. -/
theorem findSome?_eq_of_forall_ne {α β : Type} {f : α → Option β} {x : α} {xs : List α}
    (hx : x ∈ xs) (h : ∀ y ∈ xs, y ≠ x → f y = none) : xs.findSome? f = f x := by
  cases hfx : f x with
  | none =>
    refine List.findSome?_eq_none_iff.2 fun y hy => ?_
    by_cases hne : y = x
    · rw [hne, hfx]
    · exact h y hy hne
  | some b =>
    cases hfind : xs.findSome? f with
    | none =>
      rw [List.findSome?_eq_none_iff.1 hfind x hx] at hfx
      contradiction
    | some b' =>
      obtain ⟨y, hy, hfy⟩ := List.exists_of_findSome?_eq_some hfind
      have hyx : y = x := by
        by_contra hne
        rw [h y hy hne] at hfy
        contradiction
      rw [← hfy, hyx, hfx]

/-- What is found first is related if all that is looked for is. -/
theorem findSome?_rel {α β γ : Type} {R : β → γ → Prop} {f : α → Option β} {g : α → Option γ}
    {xs : List α} (h : ∀ x ∈ xs, Option.Rel R (f x) (g x)) :
    Option.Rel R (xs.findSome? f) (xs.findSome? g) := by
  induction xs with
  | nil => exact .none
  | cons x xs ih =>
    have ih := ih fun y hy => h y (List.mem_cons_of_mem _ hy)
    have hx := h x List.mem_cons_self
    rw [List.findSome?_cons, List.findSome?_cons]
    cases hf : f x with
    | none =>
      cases hg : g x with
      | none => exact ih
      | some _ =>
        rw [hf, hg] at hx
        contradiction
    | some _ =>
      cases hg : g x with
      | none =>
        rw [hf, hg] at hx
        contradiction
      | some _ => rwa [hf, hg] at hx

/-- The elements of related lists at one index are related. -/
theorem getElem?_rel {α β : Type} {R : α → β → Prop} {as : List α} {bs : List β}
    (h : List.Forall₂ R as bs) (i : Nat) : Option.Rel R as[i]? bs[i]? := by
  induction h generalizing i with
  | nil => exact .none
  | cons hR _ ih =>
    cases i with
    | zero => exact .some hR
    | succ i => exact ih i

/-- Related lists stay related if both get a related element at an index. -/
theorem forall₂_set_set {α β : Type} {R : α → β → Prop} {as : List α} {bs : List β} {a : α} {b : β}
    (h : List.Forall₂ R as bs) (i : Nat) (hab : R a b) :
    List.Forall₂ R (as.set i a) (bs.set i b) := by
  induction h generalizing i with
  | nil => exact .nil
  | cons hR hrest ih =>
    cases i with
    | zero => exact .cons hab hrest
    | succ i => exact .cons hR (ih i)

theorem zip_map_self {α β : Type} (as : List α) (f : α → β) :
    as.zip (as.map f) = as.map fun a => (a, f a) := by
  induction as with
  | nil => rfl
  | cons a as ih => exact congrArg ((a, f a) :: ·) ih

theorem forall₂_trans {α : Type} {R : α → α → Prop} {as bs cs : List α}
    (hR : ∀ a b c, R a b → R b c → R a c) (h : List.Forall₂ R as bs) (h' : List.Forall₂ R bs cs) :
    List.Forall₂ R as cs := by
  induction h generalizing cs with
  | nil => exact h'
  | cons hab _ ih =>
    cases h' with
    | cons hbc hrest => exact .cons (hR _ _ _ hab hbc) (ih hrest)

/-- Each member of a related list comes from one of the other. -/
theorem exists_mem_of_forall₂ {α β : Type} {R : α → β → Prop} {as : List α} {bs : List β} {b : β}
    (h : List.Forall₂ R as bs) (hb : b ∈ bs) : ∃ a ∈ as, R a b := by
  induction h with
  | nil => contradiction
  | cons hR _ ih =>
    rcases List.mem_cons.1 hb with rfl | hb
    · exact ⟨_, List.mem_cons_self, hR⟩
    · obtain ⟨a, ha, hR⟩ := ih hb
      exact ⟨a, List.mem_cons_of_mem _ ha, hR⟩

/-- What is zipped with a list is zipped with a related one. -/
theorem exists_mem_zip {α β γ : Type} {R : α → β → Prop} {as : List α} {bs : List β}
    {cs : List γ} (h : List.Forall₂ R as bs) {b : β} {c : γ} (hmem : (b, c) ∈ bs.zip cs) :
    ∃ a, R a b ∧ (a, c) ∈ as.zip cs := by
  induction h generalizing cs with
  | nil => contradiction
  | cons hR _ ih =>
    cases cs with
    | nil => contradiction
    | cons c' cs =>
      rcases List.mem_cons.1 hmem with heq | hmem
      · obtain ⟨rfl, rfl⟩ := Prod.mk.inj heq
        exact ⟨_, hR, List.mem_cons_self⟩
      · obtain ⟨a, ha, hmem⟩ := ih hmem
        exact ⟨a, ha, List.mem_cons_of_mem _ hmem⟩

/-! ## Injective maps -/

/-- The first appearances in a list are at the same places after an injective map. -/
theorem eraseDups_map {α β : Type} [BEq α] [LawfulBEq α] [BEq β] [LawfulBEq β] {f : α → β}
    {as : List α} (h : ∀ a ∈ as, ∀ b ∈ as, f a = f b → a = b) :
    (as.map f).eraseDups = as.eraseDups.map f := by
  -- each first appearance takes its repetitions out of the rest
  induction hlength : as.length using Nat.strongRecOn generalizing as with
  | ind n ih =>
    subst hlength
    cases as with
    | nil => rfl
    | cons a as =>
      have hsame : ∀ b ∈ as, (!f b == f a) = !b == a := fun b hb => by
        have hiff : f b = f a ↔ b = a :=
          ⟨h b (List.mem_cons_of_mem a hb) a List.mem_cons_self, congrArg f⟩
        rw [Bool.eq_iff_iff]
        simp [hiff]
      have hrest : (as.map f).filter (fun b => !b == f a) = (as.filter fun b => !b == a).map f := by
        rw [List.filter_map]
        exact congrArg (List.map f) (List.filter_congr hsame)
      rw [List.map_cons, List.eraseDups_cons, List.eraseDups_cons, List.map_cons, hrest]
      refine congrArg (f a :: ·) (ih _ (Nat.lt_succ_of_le (List.length_filter_le _ _)) ?_ rfl)
      intro b hb c hc
      exact h b (List.mem_cons_of_mem a (List.mem_of_mem_filter hb))
        c (List.mem_cons_of_mem a (List.mem_of_mem_filter hc))

/-- An element is found at the same place after an injective map. -/
theorem idxOf_map {α β : Type} [BEq α] [LawfulBEq α] [BEq β] [LawfulBEq β] {f : α → β}
    {as : List α} {a : α} (h : ∀ b ∈ as, f b = f a → b = a) :
    (as.map f).idxOf (f a) = as.idxOf a := by
  induction as with
  | nil => rfl
  | cons b as ih =>
    obtain ⟨hhead, htail⟩ := List.forall_mem_cons.1 h
    have hsame : (f b == f a) = (b == a) := by
      rw [Bool.eq_iff_iff, beq_iff_eq, beq_iff_eq]
      exact ⟨hhead, congrArg f⟩
    rw [List.map_cons, List.idxOf_cons, List.idxOf_cons, hsame, ih htail]

end Clausal
