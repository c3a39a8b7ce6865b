import Clausal.Term.Substitution
import Mathlib.Data.List.DropRight

/-!
# Free variables under renaming

A fresh name is none of the names to avoid, and so a change of binder neither captures nor loses
a free variable.

The functions on terms that change binders recur on sizes, and so do the proofs about them
(`size_induction`).

## Main results

* `Term.freshName_not_mem`: a fresh name is not to be avoided;
* `Term.mem_free_rename`, `Term.mem_free_subst`: the free variables of a term in which a variable
  was renamed or replaced.
-/

namespace Clausal.Term

/-- Induction on the size of a term. -/
theorem size_induction {motive : Term → Prop}
    (step : ∀ t : Term, (∀ t' : Term, t'.size < t.size → motive t') → motive t) (t : Term) :
    motive t := by
  induction hsize : t.size using Nat.strongRecOn generalizing t with
  | ind n ih =>
    subst hsize
    exact step t fun t' h => ih t'.size h t' rfl

/-! ## Spines -/

theorem head_ne_app (t func arg : Term) : t.head ≠ .app func arg := by
  induction t with
  | app func' _ ih _ => exact ih
  | var _ | const _ | abs _ _ => exact Term.noConfusion

/-- The head of a term has no arguments, and it is its own head. -/
theorem head_head_args (t : Term) : t.head.head = t.head ∧ t.head.args = [] := by
  cases hhead : t.head with
  | app func arg => exact absurd hhead (t.head_ne_app func arg)
  | var _ | const _ | abs _ _ => exact ⟨rfl, rfl⟩

/-- A spine with other arguments has the same head. -/
@[simp] theorem head_head_applyAll (t : Term) (args : List Term) :
    (t.head.applyAll args).head = t.head := by
  rw [head_applyAll, t.head_head_args.1]

@[simp] theorem args_head_applyAll (t : Term) (args : List Term) :
    (t.head.applyAll args).args = args := by
  rw [args_applyAll, t.head_head_args.2, List.nil_append]

/-- A variable at the head of a term is free in it. -/
theorem mem_free_of_head {t : Term} {name : String} (h : t.head = .var name) : name ∈ t.free := by
  induction t with
  | app func arg ih _ => exact mem_free_app.2 (.inl (ih h))
  | var other => exact List.mem_singleton.2 (Term.var.inj h).symm
  | const _ | abs _ _ => contradiction

/-- The arguments of a closed term are closed. -/
theorem isClosed_of_mem_args {t arg : Term} (h : t.isClosed = true) (harg : arg ∈ t.args) :
    arg.isClosed = true := by
  induction t with
  | app func last ih _ =>
    have hparts : func.isClosed = true ∧ last.isClosed = true := by
      simp only [isClosed_iff, mem_free_app, not_or, forall_and] at h ⊢
      exact h
    rcases List.mem_append.1 harg with harg | harg
    · exact ih hparts.1 harg
    · exact List.mem_singleton.1 harg ▸ hparts.2
  | var _ | const _ | abs _ _ => contradiction

theorem mem_free_applyAll {name : String} {func : Term} {args : List Term} :
    name ∈ (func.applyAll args).free ↔ name ∈ func.free ∨ ∃ arg ∈ args, name ∈ arg.free := by
  induction args generalizing func with
  | nil => simp
  | cons arg args ih =>
    rw [applyAll_cons, ih, mem_free_app, List.exists_mem_cons_iff, or_assoc]

/-! ## Fresh names -/

/-- Different numbers make different candidates. -/
theorem candidate_injective (name : String) {i j : Nat}
    (h : stem name ++ toString i = stem name ++ toString j) : i = j := by
  have htext : i.repr = j.repr := (String.append_right_inj (stem name)).1 h
  -- the decimal digits of a number can be read back
  have hdigits := congrArg String.toList htext
  rw [Nat.toList_repr, Nat.toList_repr] at hdigits
  rw [← Nat.ofDigitChars_ten_toDigits (n := i), hdigits, Nat.ofDigitChars_ten_toDigits]

/-- A fresh name is the first candidate that is not to be avoided. -/
theorem freshName_spec (name : String) (avoid : List String) :
    ∃ i : Nat, freshName name avoid = stem name ++ toString i ∧ stem name ++ toString i ∉ avoid
      ∧ ∀ j < i, stem name ++ toString j ∈ avoid := by
  rw [freshName]
  rw [List.find?_map]
  cases hfind : (List.range (avoid.length + 1)).find?
      ((fun candidate => !avoid.contains candidate) ∘ fun i => stem name ++ toString i) with
  | some i =>
    obtain ⟨hi, -, hbefore⟩ := List.find?_range_eq_some.1 hfind
    exact ⟨i, rfl, by simpa using hi, fun j hj => by simpa using hbefore j hj⟩
  | none =>
    -- otherwise all candidates are to be avoided, and they are one more than those
    have hsubset : (List.range (avoid.length + 1)).map (fun i => stem name ++ toString i)
        ⊆ avoid := by
      intro candidate hmem
      obtain ⟨i, hi, rfl⟩ := List.mem_map.1 hmem
      simpa using List.find?_eq_none.1 hfind i hi
    have hnodup : ((List.range (avoid.length + 1)).map
        fun i => stem name ++ toString i).Nodup := by
      rw [List.nodup_iff_pairwise_ne, List.pairwise_map]
      exact List.nodup_range.imp fun hne heq => hne (candidate_injective name heq)
    have hlength := hnodup.length_le_of_subset hsubset
    rw [List.length_map, List.length_range] at hlength
    omega

/-- A fresh name is none of those to be avoided. -/
theorem freshName_not_mem (name : String) (avoid : List String) :
    freshName name avoid ∉ avoid := by
  obtain ⟨i, heq, hi, -⟩ := freshName_spec name avoid
  rwa [heq]

/-- A fresh name depends on the stem and on which names are to be avoided. -/
theorem freshName_congr {name name' : String} {avoid avoid' : List String}
    (hstem : stem name = stem name') (havoid : ∀ x, x ∈ avoid ↔ x ∈ avoid') :
    freshName name avoid = freshName name' avoid' := by
  obtain ⟨i, heq, hi, hbefore⟩ := freshName_spec name avoid
  obtain ⟨j, heq', hj, hbefore'⟩ := freshName_spec name' avoid'
  rw [hstem, havoid] at hi
  have hij : i = j := by
    rcases Nat.lt_trichotomy i j with h | h | h
    · exact absurd (hbefore' i h) hi
    · exact h
    · exact absurd ((havoid _).1 (hstem ▸ hbefore j h)) hj
  rw [heq, heq', hstem, hij]

/-- A stem is not empty. -/
theorem stem_ne_empty (name : String) : stem name ≠ "" := by
  rw [stem]
  split
  · decide
  · next hkept => simpa using hkept

/-- A stem does not end with a digit. -/
theorem dropWhile_isDigit_stem (name : String) :
    (stem name).toList.reverse.dropWhile Char.isDigit = (stem name).toList.reverse := by
  rw [stem]
  split
  · decide
  · rw [String.toList_ofList, List.reverse_reverse, List.dropWhile_idempotent]

/-- The stem of a stem with digits after it is that stem. -/
theorem stem_append_toString (name : String) (i : Nat) :
    stem (stem name ++ toString i) = stem name := by
  have hdigits : ∀ c ∈ i.repr.toList.reverse, c.isDigit = true := by
    intro c hc
    rw [List.mem_reverse, Nat.toList_repr] at hc
    exact Nat.isDigit_of_mem_toDigits (by decide) (by decide) hc
  have hkept : (stem name ++ toString i).toList.reverse.dropWhile Char.isDigit
      = (stem name).toList.reverse := by
    rw [String.toList_append, List.reverse_append]
    exact (List.dropWhile_append_of_pos hdigits).trans (dropWhile_isDigit_stem name)
  rw [stem, hkept, List.reverse_reverse, String.ofList_toList]
  exact if_neg (by simpa using stem_ne_empty name)

/-- A fresh name keeps the stem. -/
theorem stem_freshName (name : String) (avoid : List String) :
    stem (freshName name avoid) = stem name := by
  obtain ⟨i, heq, -⟩ := freshName_spec name avoid
  rw [heq]
  exact stem_append_toString name i

/-! ## Renaming -/

/-- Renaming takes away the old variable, and brings the new one where the old one was free. -/
theorem mem_free_rename {name old new : String} {t : Term} :
    name ∈ (rename old new t).free
      ↔ name = new ∧ old ∈ t.free ∨ name ∈ t.free ∧ name ≠ old := by
  induction t using size_induction generalizing name old new with
  | step t ih =>
    cases t with
    | var other =>
      rw [rename_var]
      by_cases h : other = old
      · simp only [h, if_true, free, List.mem_singleton]
        grind
      · simp only [h, if_false, free, List.mem_singleton]
        grind
    | const c => simp [free]
    | app func arg =>
      rw [rename_app, mem_free_app, mem_free_app, mem_free_app,
        ih func (by simp only [size]; omega), ih arg (by simp only [size]; omega)]
      grind
    | abs param body =>
      rw [rename_abs]
      split
      -- the binder shadows the old variable
      · next hold => grind [mem_free_abs]
      · next hold =>
        split
        -- the binder would capture the new variable, and is renamed first
        · next hnew =>
          dsimp only
          generalize hfresh : freshName param (body.free ++ [new, old]) = fresh
          have hnot : fresh ∉ body.free ++ [new, old] := hfresh ▸ freshName_not_mem _ _
          rw [mem_free_abs, ih _ (by simp only [size, size_rename]; omega),
            ih body (by simp only [size]; omega), ih body (by simp only [size]; omega)]
          grind [mem_free_abs]
        · next hnew =>
          rw [mem_free_abs, ih body (by simp only [size]; omega)]
          grind [mem_free_abs]

/-! ## Substitution -/

/-- Substitution takes away the variable, and brings the variables of the replacement where the
variable was free. -/
theorem mem_free_subst {name x : String} {t u : Term} :
    name ∈ (t.subst x u).free ↔ name ∈ t.free ∧ name ≠ x ∨ x ∈ t.free ∧ name ∈ u.free := by
  rw [subst]
  induction t using size_induction generalizing name with
  | step t ih =>
    rw [substWith.eq_def]
    cases t with
    | var other =>
      by_cases h : other = x
      · simp only [h, if_true, free, List.mem_singleton]
        grind
      · simp only [h, if_false, free, List.mem_singleton]
        grind
    | const c => simp [free]
    | app func arg =>
      dsimp only
      rw [mem_free_app, mem_free_app, mem_free_app, ih func (by simp only [size]; omega),
        ih arg (by simp only [size]; omega)]
      grind
    | abs param body =>
      dsimp only
      split
      -- the binder shadows the variable
      · next hx => grind [mem_free_abs]
      · next hx =>
        split
        -- the binder would capture a variable of the replacement, and is renamed first
        · next hcapture =>
          generalize hfresh : freshName param (body.free ++ u.free ++ [x]) = fresh
          have hnot : fresh ∉ body.free ++ u.free ++ [x] := hfresh ▸ freshName_not_mem _ _
          rw [mem_free_abs, ih _ (by simp only [size, size_rename]; omega), mem_free_rename,
            mem_free_rename]
          grind [mem_free_abs]
        · next hcapture =>
          rw [mem_free_abs, ih body (by simp only [size]; omega)]
          grind [mem_free_abs]

end Clausal.Term
