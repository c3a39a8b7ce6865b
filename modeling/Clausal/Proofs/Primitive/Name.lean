import Clausal.Primitive.Name
import Clausal.Proofs.Decimal.Digits

/-!
# Names are read back

The name of a primitive is the name of that primitive alone. No operator has an underscore in its
name, and every family of names begins with a first part that has one. A first part that is tried
before the right one differs from the name in a character: `isa_` is followed by a letter or by the
first digit of a size.

## Main results

* `Primitive.read?_name`: the readers find the primitive that a name was made from;
* `Primitive.ofName?_of_nameable`: a primitive that can be named is found under its name, and is the
  only one of that name.
-/

namespace Clausal.Primitive

/-! ## Readers -/

theorem readConstructor?_toList {name : String} (h : name ≠ "") :
    readConstructor? name.toList = some name := by
  rw [readConstructor?, if_neg (by simpa using h), String.ofList_toList]

/-- A number in the range of machine integers is one. -/
theorem map_filter_toInt (v : Int64) :
    (((some v.toInt).filter fun value =>
      Int64.minValue.toInt ≤ value && value ≤ Int64.maxValue.toInt).map Int64.ofInt) = some v := by
  have hrange : (decide (Int64.minValue.toInt ≤ v.toInt)
      && decide (v.toInt ≤ Int64.maxValue.toInt)) = true := by
    rw [decide_eq_true v.minValue_le_toInt, decide_eq_true v.toInt_le]
    rfl
  rw [Option.filter_some, if_pos hrange, Option.map_some, Int64.ofInt_toInt]

/-- A machine integer is read back. -/
theorem readInt?_toString (v : Int64) : readInt? (toString v.toInt).toList = some v := by
  rw [readInt?.eq_def, ← map_filter_toInt v]
  refine congrArg (fun value? : Option Int => (value?.filter fun value =>
    Int64.minValue.toInt ≤ value && value ≤ Int64.maxValue.toInt).map Int64.ofInt) ?_
  cases v.toInt with
  | ofNat n =>
    have htext : (toString (Int.ofNat n)).toList = Nat.toDigits 10 n := Nat.toList_repr
    rw [htext]
    split
    · next hminus =>
      have hdigit := Digits.isDigit_of_mem_toDigits (hminus ▸ List.mem_cons_self)
      contradiction
    · rw [Digits.read?_toDigits]
      rfl
  | negSucc n =>
    have htext : (toString (Int.negSucc n)).toList = '-' :: Nat.toDigits 10 (n + 1) := by
      change ("-" ++ (n + 1).repr).toList = _
      rw [String.toList_append, Nat.toList_repr]
      rfl
    rw [htext]
    simp only [Digits.read?_toDigits]
    rfl

/-- The size of a tuple is read back. -/
theorem readTupleTest?_toDigits {size : Nat} (h : size < Digits.indexBound) :
    readTupleTest? (Nat.toDigits 10 size ++ "-tuple".toList) = some size := by
  have hsuffix : "-tuple".toList.isSuffixOf (Nat.toDigits 10 size ++ "-tuple".toList) = true :=
    List.isSuffixOf_iff_suffix.2 (List.suffix_append _ _)
  rw [readTupleTest?]
  simp only [hsuffix, if_true]
  rw [List.length_append, Nat.add_sub_cancel, List.take_left, Digits.readIndex?_toDigits h]

/-- The size of a tuple and the number of a component are read back. -/
theorem readSelector?_toDigits {size index : Nat} (hsize : size < Digits.indexBound)
    (hpos : 1 ≤ index) (hle : index ≤ size) :
    readSelector? (Nat.toDigits 10 size ++ '_' :: Nat.toDigits 10 index)
      = some (.select size index) := by
  have hdigits : ∀ c ∈ Nat.toDigits 10 size, (c != '_') = true := fun c hc => by
    have := Digits.isDigit_of_mem_toDigits hc
    rw [bne_iff_ne]
    rintro rfl
    contradiction
  rw [readSelector?, List.takeWhile_append_of_pos hdigits, List.dropWhile_append_of_pos hdigits]
  simp [Digits.readIndex?_toDigits hsize, Digits.readIndex?_toDigits (hle.trans_lt hsize), hpos,
    hle]

/-! ## Families -/

/-- A name with an underscore is that of a family. -/
theorem read?_eq_readFamily? {text : String} (h : '_' ∈ text.toList) :
    read? text = readFamily? text := by
  have hop : Operator.ofName? text = none := by
    refine List.find?_eq_none.2 fun op _ hname => ?_
    rw [beq_iff_eq] at hname
    rw [← hname] at h
    cases op <;> contradiction
  rw [read?.eq_def]
  split
  · contradiction
  · contradiction
  · contradiction
  · rw [hop]

/-- A name is read by the first family whose first part it begins with. -/
theorem read?_append {text first : String} {rest : List Char} (hfirst : '_' ∈ first.toList)
    (htext : text.toList = first.toList ++ rest) :
    read? text = (families.findSome? fun (part, read) =>
      (part.toList.isPrefixOf? (first.toList ++ rest)).map read).join := by
  rw [read?_eq_readFamily? (htext ▸ List.mem_append_left rest hfirst), readFamily?, htext]

/-- Of the families whose names begin with `isa_`, only that of tuples has a digit there. -/
theorem read?_digit {text : String} {digit : Char} {rest : List Char}
    (hdigit : digit.isDigit = true) (htext : text.toList = "isa_".toList ++ digit :: rest) :
    read? text = (readTupleTest? (digit :: rest)).map .isTuple := by
  have hletter (c : Char) (hc : c.isDigit = false) : (c == digit) = false := by
    refine beq_eq_false_iff_ne.2 ?_
    rintro rfl
    rw [hdigit] at hc
    contradiction
  rw [read?_append (by decide) htext]
  simp [families, List.isPrefixOf?, hletter 'c' rfl, hletter 'i' rfl, hletter 'f' rfl,
    hletter 'b' rfl]

/-! ## Names -/

/-- What a primitive must be to have a name of its own: its numbers are in the machine's range, the
component that it selects is there, its constructor has a name, and it does not test for a value
that is no number. -/
def Nameable : Primitive → Prop
  | .tuple size | .isTuple size => size < Digits.indexBound
  | .select size index => size < Digits.indexBound ∧ 1 ≤ index ∧ index ≤ size
  | .isConstructor name | .argOf name => name ≠ ""
  | .isLiteral (.float x) => x.isNaN = false
  | _ => True

/-- Whether the text of the double that a primitive tests for, if it does, is read back. -/
def TextReadsBack : Primitive → Prop
  | .isLiteral (.float x) => Binary64.read? (Binary64.text Literal.floatFormat x) = some x
  | _ => True

theorem read?_name_isLiteral {literal : Literal} (htext : TextReadsBack (.isLiteral literal)) :
    read? (name (.isLiteral literal)) = some (.isLiteral literal) := by
  cases literal with
  | int value =>
    have hname : (name (.isLiteral (.int value))).toList
        = "isa_int_".toList ++ (toString value.toInt).toList := by
      simp [name, Literal.kind, Literal.bareText]
    rw [read?_append (by decide) hname]
    change (readInt? (toString value.toInt).toList).map _ = _
    rw [readInt?_toString]
    rfl
  | float x =>
    have hname : (name (.isLiteral (.float x))).toList
        = "isa_float_".toList ++ (Binary64.text Literal.floatFormat x).toList := by
      simp [name, Literal.kind, Literal.bareText]
    have hread : Binary64.read? (Binary64.text Literal.floatFormat x) = some x := htext
    rw [read?_append (by decide) hname]
    generalize Binary64.text Literal.floatFormat x = digits at hread
    change (Binary64.read? (String.ofList digits.toList)).map (Primitive.isLiteral ∘ .float) = _
    rw [String.ofList_toList, hread]
    rfl
  | char c =>
    have hname : (name (.isLiteral (.char c))).toList = "isa_char_".toList ++ [c] := by
      simp [name, Literal.kind, Literal.bareText]
    rw [read?_append (by decide) hname]
    change (readChar? [c]).map (Primitive.isLiteral ∘ .char) = _
    rfl
  | bool value => cases value <;> decide

/-- The readers find the primitive that a name was made from. -/
theorem read?_name {p : Primitive} (h : p.Nameable) (htext : p.TextReadsBack) :
    read? p.name = some p := by
  cases p with
  | operator op => cases op <;> decide
  | branch | fix | bot => rfl
  | tuple size =>
    have hname : (Primitive.tuple size).name.toList = "tuple_".toList ++ Nat.toDigits 10 size := by
      simp [name]
    rw [read?_append (by decide) hname]
    change (Digits.readIndex? (Nat.toDigits 10 size)).map _ = _
    rw [Digits.readIndex?_toDigits h, Option.map_some]
  | isTuple size =>
    have hname : (Primitive.isTuple size).name.toList
        = "isa_".toList ++ (Nat.toDigits 10 size ++ "-tuple".toList) := by
      simp [name]
    obtain ⟨digit, digits, hdigits⟩ :=
      List.exists_cons_of_ne_nil (Nat.toDigits_ne_nil (n := size) (b := 10))
    have hread := readTupleTest?_toDigits h
    rw [hdigits] at hname hread
    have hdigit := Digits.isDigit_of_mem_toDigits (hdigits ▸ List.mem_cons_self)
    rw [read?_digit hdigit hname]
    exact congrArg (Option.map Primitive.isTuple) hread
  | select size index =>
    have hname : (Primitive.select size index).name.toList
        = "sel_".toList ++ (Nat.toDigits 10 size ++ '_' :: Nat.toDigits 10 index) := by
      simp [name]
    rw [read?_append (by decide) hname]
    exact readSelector?_toDigits h.1 h.2.1 h.2.2
  | isConstructor constructor =>
    have hname : (Primitive.isConstructor constructor).name.toList
        = "isa_constr_".toList ++ constructor.toList := by
      simp [name]
    rw [read?_append (by decide) hname]
    change (readConstructor? constructor.toList).map _ = _
    rw [readConstructor?_toList h, Option.map_some]
  | argOf constructor =>
    have hname : (Primitive.argOf constructor).name.toList
        = "argof_".toList ++ constructor.toList := by
      simp [name]
    rw [read?_append (by decide) hname]
    change (readConstructor? constructor.toList).map _ = _
    rw [readConstructor?_toList h, Option.map_some]
  | isLiteral literal => exact read?_name_isLiteral htext

/-- A primitive that can be named is found under its name, and no other one that can be named has
that name. -/
theorem ofName?_of_nameable {p : Primitive} (h : p.Nameable) (htext : p.TextReadsBack) :
    ofName? p.name = some p
      ∧ ∀ q : Primitive, q.Nameable → q.TextReadsBack → q.name = p.name → q = p := by
  have hfound {p : Primitive} (h : p.Nameable) (htext : p.TextReadsBack) :
      ofName? p.name = some p := by
    rw [ofName?, read?_name h htext, Option.filter_some, beq_self_eq_true, if_pos rfl]
  refine ⟨hfound h htext, fun q hq hqtext hname => ?_⟩
  have hfoundq := hfound hq hqtext
  rw [hname, hfound h htext] at hfoundq
  exact (Option.some.inj hfoundq).symm

/-- The test for a double is found under its name, and so is that for a constructor whose name
looks like the end of two other names. -/
theorem ofName?_of_nameable_float :
    ofName? "isa_float_1.5" = some (.isLiteral (.float 1.5))
      ∧ ofName? "isa_constr_int_7-tuple" = some (.isConstructor "int_7-tuple") := by
  have hnumber : Nameable (.isLiteral (.float 1.5)) := by
    change (1.5 : Float).isNaN = false
    decide +kernel
  have htext : TextReadsBack (.isLiteral (.float 1.5)) := by
    change Binary64.read? (Binary64.text Literal.floatFormat 1.5) = some 1.5
    decide +kernel
  have hname : name (.isLiteral (.float 1.5)) = "isa_float_1.5" := by decide +kernel
  have hconstructor : Nameable (.isConstructor "int_7-tuple") := by
    change "int_7-tuple" ≠ ""
    decide
  exact ⟨hname ▸ (ofName?_of_nameable hnumber htext).1,
    (ofName?_of_nameable hconstructor trivial).1⟩

end Clausal.Primitive
