/-!
# Sets of names

A set of names is shown as a list without repetitions, in the order of code points.
-/

namespace Clausal

/-- A list of names in the order of code points, each name once. -/
def sortedNames (names : List String) : List String :=
  names.eraseDups.mergeSort fun a b => decide (a ≤ b)

/-- Sorting adds and loses no name. -/
theorem mem_sortedNames {name : String} {names : List String} :
    name ∈ sortedNames names ↔ name ∈ names := by
  rw [sortedNames, List.mem_mergeSort, List.mem_eraseDups]

end Clausal
