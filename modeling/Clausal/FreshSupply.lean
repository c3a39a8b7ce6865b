import Clausal.Surface.Variables

/-!
# Fresh variables

Simplification introduces variables named `x0`, `x1`, …. A supply that starts past every name of
this form that a program mentions never hands out a name of the program.

The machine counts the variables in a word. A run is aborted where the counter would go past the
last word: where it starts past a name with that number, or draws the variable with that number.
`past` and `draw` go on counting, and `past?` and `draw?` say whether the machine does.
-/

namespace Clausal

/-- A supply of fresh variables: the number of the next one. -/
structure FreshSupply where
  /-- The number of the next variable. -/
  next : Nat

namespace FreshSupply

/-- The fresh variable with a given number. -/
def nameOf (number : Nat) : String := "x" ++ toString number

/-- The number in a name of the form of a fresh variable, leading zeros included. A number past
the machine's range is none. -/
def number? (name : String) : Option Nat :=
  match name.toList with
  | 'x' :: digits => Digits.readIndex? digits
  | _ => none

/-- The supply that starts at the beginning. -/
def initial : FreshSupply := ⟨0⟩

/-- The supply that starts past every name in a list. -/
def past (names : List String) : FreshSupply :=
  ⟨(names.filterMap number?).foldl (fun next number => max next (number + 1)) 0⟩

/-- The supply that starts past every variable of a program and of the expression beside it. -/
def forProgram (p : Program) (e : Expr) : FreshSupply := past (p.names e)

/-- The next variable, and the supply without it. -/
def draw (s : FreshSupply) : String × FreshSupply := (nameOf s.next, ⟨s.next + 1⟩)

/-- The next `count` variables, and the supply without them. -/
def drawMany (s : FreshSupply) (count : Nat) : List String × FreshSupply :=
  ((List.range count).map fun i => nameOf (s.next + i), ⟨s.next + count⟩)

/-! ## Counting in the machine -/

/-- Whether the machine can count to the number of the next variable. -/
def inRange (s : FreshSupply) : Bool := s.next < Digits.indexBound

/-- A supply, unless the machine cannot count to the number of its next variable. -/
def checked? (s : FreshSupply) : Option FreshSupply := if s.inRange then some s else none

/-- The supply that starts past every name in a list, unless the machine cannot count so far. -/
def past? (names : List String) : Option FreshSupply := (past names).checked?

/-- The next variable, and the supply without it, unless the machine cannot count past it. -/
def draw? (s : FreshSupply) : Option (String × FreshSupply) :=
  s.draw.2.checked?.map fun rest => (s.draw.1, rest)

/-- The next `count` variables, and the supply without them, unless the machine cannot count past
them. -/
def drawMany? (s : FreshSupply) (count : Nat) : Option (List String × FreshSupply) :=
  (s.drawMany count).2.checked?.map fun rest => ((s.drawMany count).1, rest)

/-- A supply draws as many variables as asked for. -/
theorem length_drawMany (s : FreshSupply) (count : Nat) :
    (s.drawMany count).1.length = count := by
  simp [drawMany]

end FreshSupply

end Clausal
