import Clausal.Primitive

/-!
# Names of primitives

Every primitive has one name, made from the fact that it tests or the part that it extracts:

* `tuple_3` builds a triple, `isa_3-tuple` recognises one, `sel_3_2` is its second component;
* `isa_constr_Cons` recognises a value built with `Cons`, `argof_Cons` is its fields;
* `isa_int_-4`, `isa_float_1.5`, `isa_char_a` and `isa_bool_true` recognise a literal.

`Primitive.ofName?` accepts a name only if it is the name of what it denotes, so `isa_int_007` and
`sel_2_3` name nothing.
-/

namespace Clausal.Primitive

/-- The name of a primitive. -/
def name : Primitive → String
  | .operator op => op.name
  | .branch => "if"
  | .fix => "fix"
  | .bot => "bot"
  | .tuple size => "tuple_" ++ toString size
  | .isTuple size => "isa_" ++ toString size ++ "-tuple"
  | .select size index => "sel_" ++ toString size ++ "_" ++ toString index
  | .isConstructor name => "isa_constr_" ++ name
  | .argOf name => "argof_" ++ name
  | .isLiteral literal => "isa_" ++ literal.kind ++ "_" ++ literal.bareText

/-! ## Reading a name

What follows the first part of a name is read by a reader of its own. A reader may accept more
than one spelling of a primitive. -/

/-- A constructor name: any nonempty text. -/
def readConstructor? (rest : List Char) : Option String :=
  if rest.isEmpty then none else some (String.ofList rest)

/-- A machine integer: a digit string after an optional minus. -/
def readInt? (rest : List Char) : Option Int64 :=
  let value? : Option Int := match rest with
    | '-' :: digits => (Digits.read? digits).map fun n => -(n : Int)
    | digits => (Digits.read? digits).map fun n => (n : Int)
  (value?.filter fun v => Int64.minValue.toInt ≤ v && v ≤ Int64.maxValue.toInt).map Int64.ofInt

/-- A single character. -/
def readChar? : List Char → Option Char
  | [c] => some c
  | _ => none

/-- A boolean. -/
def readBool? (rest : List Char) : Option Bool :=
  if rest == "true".toList then some true
  else if rest == "false".toList then some false
  else none

/-- The size of a tuple before the text `-tuple`. -/
def readTupleTest? (rest : List Char) : Option Nat :=
  let ending := "-tuple".toList
  if ending.isSuffixOf rest then Digits.readIndex? (rest.take (rest.length - ending.length))
  else none

/-- The size of a tuple and the number of one of its components, with `_` between them. -/
def readSelector? (rest : List Char) : Option Primitive := do
  let size ← Digits.readIndex? (rest.takeWhile (· != '_'))
  let index ← match rest.dropWhile (· != '_') with
    | _ :: digits => Digits.readIndex? digits
    | [] => none
  if 1 ≤ index && index ≤ size then some (.select size index) else none

/-- The families of names with a parameter, in the order in which their first parts are tried,
each with the reader of the parameter. -/
def families : List (String × (List Char → Option Primitive)) :=
  [("isa_constr_", fun rest => (readConstructor? rest).map .isConstructor),
    ("argof_", fun rest => (readConstructor? rest).map .argOf),
    ("isa_int_", fun rest => (readInt? rest).map (.isLiteral ∘ .int)),
    ("isa_float_", fun rest => (Binary64.read? (String.ofList rest)).map (.isLiteral ∘ .float)),
    ("isa_char_", fun rest => (readChar? rest).map (.isLiteral ∘ .char)),
    ("isa_bool_", fun rest => (readBool? rest).map (.isLiteral ∘ .bool)),
    ("isa_", fun rest => (readTupleTest? rest).map .isTuple),
    ("tuple_", fun rest => (Digits.readIndex? rest).map .tuple),
    ("sel_", readSelector?)]

/-- The primitive of the first family whose first part a name begins with. -/
def readFamily? (name : String) : Option Primitive :=
  (families.findSome? fun (first, read) => (first.toList.isPrefixOf? name.toList).map read).join

/-- The primitive that a text spells, in any of the spellings that the readers accept. -/
def read? (name : String) : Option Primitive :=
  match name with
  | "if" => some .branch
  | "fix" => some .fix
  | "bot" => some .bot
  | _ => match Operator.ofName? name with
    | some op => some (.operator op)
    | none => readFamily? name

/-- The primitive with a given name. -/
def ofName? (text : String) : Option Primitive :=
  (read? text).filter fun primitive => primitive.name == text

/-- What a name denotes has that name. -/
theorem name_of_ofName? {text : String} {primitive : Primitive}
    (h : ofName? text = some primitive) : primitive.name = text := by
  simp only [ofName?, Option.filter_eq_some_iff, beq_iff_eq] at h
  exact h.2

end Clausal.Primitive
