import Clausal.Proofs.Nameless.Alpha

/-!
# Confluence

Whatever redexes are contracted, two results of one term can be reduced further to terms that are
equal up to the names of bound variables. So a term has at most one literal value.

The proof reads the term without names, joins the two reductions there, and reads the contractions
of the joining reductions off again. Terms that are read the same differ only in names.

## Main results

* `Term.reduces_join`: two reductions of one term can be joined, and end in the same literal if
  they end in literals.
-/

namespace Clausal.Term

/-- Two reductions of one term, with any redexes and in any order, can be joined up to the names
of bound variables; literals that they end in are the same. -/
theorem reduces_join {t a b : Term} (ha : Reduces t a) (hb : Reduces t b) :
    (∃ a' b', Reduces a a' ∧ Reduces b b' ∧ Alpha a' b')
      ∧ ∀ v w : Literal, a = .literal v → b = .literal w → v = w := by
  obtain ⟨u, hau, hbu⟩ := (ha.read .free).confluent (hb.read .free)
  refine ⟨?_, ?_⟩
  · obtain ⟨a', haa', ha'⟩ := exists_reduces_of_read .free hau
    obtain ⟨b', hbb', hb'⟩ := exists_reduces_of_read .free hbu
    exact ⟨a', b', haa', hbb', alpha_of_read_eq .free (ha'.trans hb'.symm)⟩
  · -- a literal has no contraction, and so both literals are the term that joins them
    rintro v w rfl rfl
    have hvw := hau.eq_const.symm.trans hbu.eq_const
    exact Constant.literal.inj (Nameless.const.inj hvw)

/-- A function that discards its argument, applied to an argument that reduces forever: the two
redexes can be joined. -/
theorem reduces_join_discarded :
    ∃ a' b', Reduces (.literal (.int 1)) a'
      ∧ Reduces (.app (.abs "x" (.literal (.int 1)))
          (.app (.abs "y" (.var "y")) (.app (.primitive .fix) (.abs "y" (.var "y"))))) b'
      ∧ Alpha a' b' := by
  have hdiscard : Contracts (.app (.abs "x" (.literal (.int 1)))
      (.app (.primitive .fix) (.abs "y" (.var "y")))) (.literal (.int 1)) := by
    have h := Contracts.beta "x" (.literal (.int 1)) (.app (.primitive .fix) (.abs "y" (.var "y")))
    rwa [literal, subst, substWith] at h
  have hunfold : DeltaRule.fixpoint.respond (.primitive .fix) [.abs "y" (.var "y")]
      = .reduced (.app (.abs "y" (.var "y")) (.app (.primitive .fix) (.abs "y" (.var "y")))) := rfl
  exact (reduces_join (.single hdiscard) (.single (.arg _ (.delta (by decide) hunfold)))).1

end Clausal.Term
