import Clausal.Proofs.Typing.Reachable

/-!
# Consistent registries

What holds of the declarations of a registry. An accepted declaration comes last and has passed the
checks against those before it (`Registry.Accepted`), so each fact is about one more declaration at
the end.

## Main results

* `Registry.consistent_of_reachable`: names are distinct, and fields are made of parameters and of
  types that are known;
* `Registry.Consistent.owner?_eq_some_iff`: the owner of a constructor is the declaration that
  lists it;
* `Registry.owner?_eq_ownerIndex`: the search for an owner agrees with an index of positions that
  is filled as declarations are accepted.
-/

namespace Clausal

/-! ## Sound fields -/

/-- A type that may stand in a field of a declaration: it uses the parameters only, and applies the
built-in types, the declared type and those declared earlier to as many types as they take. -/
inductive TypeExpr.Sound (earlier : List DataDecl) (d : DataDecl) : TypeExpr → Prop
  | param {name : String} (h : name ∈ d.params) : Sound earlier d (.var name)
  | primitive {name : String} (h : isPrimitiveType name = true) : Sound earlier d (.con name [])
  | self {args : List TypeExpr} (hlength : args.length = d.params.length)
      (hargs : ∀ arg ∈ args, Sound earlier d arg) : Sound earlier d (.con d.name args)
  | known {other : DataDecl} {args : List TypeExpr} (hother : other ∈ earlier)
      (hlength : args.length = other.params.length)
      (hargs : ∀ arg ∈ args, Sound earlier d arg) : Sound earlier d (.con other.name args)
  | tuple {elements : List TypeExpr} (h : ∀ element ∈ elements, Sound earlier d element) :
      Sound earlier d (.tuple elements)
  | func {source target : TypeExpr} (hsource : Sound earlier d source)
      (htarget : Sound earlier d target) : Sound earlier d (.func source target)

namespace Registry

variable {r r' : Registry} {d : DataDecl}

/-- A type that takes a number of arguments is built in, the declared one or an earlier one. -/
theorem paramCount?_eq_some {name : String} {count : Nat}
    (h : r.paramCount? d name = some count) :
    isPrimitiveType name = true ∧ count = 0 ∨ name = d.name ∧ count = d.params.length
      ∨ ∃ other ∈ r.decls, other.name = name ∧ count = other.params.length := by
  rw [paramCount?] at h
  split at h
  · next hprimitive => exact .inl ⟨hprimitive, (Option.some.inj h).symm⟩
  · split at h
    · next hself => exact .inr (.inl ⟨hself, (Option.some.inj h).symm⟩)
    · obtain ⟨other, hother, rfl⟩ := Option.map_eq_some_iff.1 h
      have hname := List.find?_some hother
      exact .inr (.inr ⟨other, List.mem_of_find?_eq_some hother, by simpa using hname, rfl⟩)

mutual

/-- A field without a fault is sound. -/
theorem sound_of_fieldFault (t : TypeExpr) (h : r.fieldFault? d t = none) :
    t.Sound r.decls d := by
  match t with
  | .var name =>
    rw [fieldFault?] at h
    split at h
    · next hname => exact .param (by simpa using hname)
    · contradiction
  | .con name args =>
    rw [fieldFault?] at h
    split at h
    · contradiction
    · next count hcount =>
      split at h
      · next hlength =>
        have hargs := sound_of_fieldsFault args h
        -- a type that is applied is primitive, the declared one itself, or declared before
        rcases paramCount?_eq_some hcount with ⟨hprimitive, rfl⟩ | ⟨rfl, rfl⟩ |
          ⟨other, hother, rfl, rfl⟩
        · rw [List.length_eq_zero_iff.1 hlength]
          exact .primitive hprimitive
        · exact .self hlength hargs
        · exact .known hother hlength hargs
      · contradiction
  | .tuple elements => exact .tuple (sound_of_fieldsFault elements (by rwa [fieldFault?] at h))
  | .func source target =>
    rw [fieldFault?, Option.or_eq_none_iff] at h
    exact .func (sound_of_fieldFault source h.1) (sound_of_fieldFault target h.2)

/-- The same for several fields. -/
theorem sound_of_fieldsFault (ts : List TypeExpr) (h : r.fieldsFault? d ts = none) :
    ∀ t ∈ ts, t.Sound r.decls d := by
  match ts with
  | [] => exact nofun
  | t :: ts =>
    rw [fieldsFault?, Option.or_eq_none_iff] at h
    exact List.forall_mem_cons.2 ⟨sound_of_fieldFault t h.1, sound_of_fieldsFault ts h.2⟩

end

/-! ## What an accepted declaration has passed -/

/-- Names without a repetition, also of those before them, are distinct. -/
theorem firstRepeated?_eq_none {before names : List String}
    (h : firstRepeated? before names = none) :
    names.Nodup ∧ ∀ name ∈ names, name ∉ before := by
  induction names generalizing before with
  | nil => exact ⟨List.nodup_nil, nofun⟩
  | cons name names ih =>
    rw [firstRepeated?] at h
    split at h
    · contradiction
    · next hname =>
      obtain ⟨hnodup, hbefore⟩ := ih h
      refine ⟨List.nodup_cons.2 ⟨fun hmem => hbefore name hmem List.mem_cons_self, hnodup⟩, ?_⟩
      refine List.forall_mem_cons.2 ⟨by simpa using hname, fun other hother hmem => ?_⟩
      exact hbefore other hother (List.mem_cons_of_mem name hmem)

/-- Constructors without a fault have distinct names, which no constructor of the registry has. -/
theorem constructorsFault?_eq_none {before : List String} {constructors : List ConstructorDecl}
    (h : r.constructorsFault? d before constructors = none) :
    (constructors.map (·.name)).Nodup
      ∧ ∀ c ∈ constructors, c.name ∉ before ∧ r.owner? c.name = none := by
  induction constructors generalizing before with
  | nil => exact ⟨List.nodup_nil, nofun⟩
  | cons c cs ih =>
    rw [constructorsFault?, Option.or_eq_none_iff] at h
    obtain ⟨hnodup, hrest⟩ := ih h.2
    have hfirst : c.name ∉ before ∧ r.owner? c.name = none := by
      have hfault := h.1
      rw [constructorFault?] at hfault
      split at hfault
      · contradiction
      · next hbefore =>
        split at hfault
        · contradiction
        · next howner => exact ⟨by simpa using hbefore, howner⟩
    refine ⟨List.nodup_cons.2 ⟨fun hmem => ?_, hnodup⟩, List.forall_mem_cons.2 ⟨hfirst, ?_⟩⟩
    · obtain ⟨c', hc', hname⟩ := List.mem_map.1 hmem
      exact (hrest c' hc').1 (hname ▸ List.mem_cons_self)
    · exact fun c' hc' => ⟨fun hmem => (hrest c' hc').1 (List.mem_cons_of_mem _ hmem),
        (hrest c' hc').2⟩

/-- What is known of a declaration that the registry accepts at its end. -/
structure Accepted (r : Registry) (d : DataDecl) : Prop where
  /-- No declaration of that name is there. -/
  name_new : ∀ other ∈ r.decls, other.name ≠ d.name
  /-- The type is not built in. -/
  not_primitive : isPrimitiveType d.name = false
  /-- The parameters are distinct. -/
  params_nodup : d.params.Nodup
  /-- The constructors are distinct. -/
  constructors_nodup : (d.constructors.map (·.name)).Nodup
  /-- No constructor belongs to another type. -/
  constructors_new : ∀ c ∈ d.constructors, r.owner? c.name = none
  /-- The fields are sound. -/
  fields_sound : ∀ c ∈ d.constructors, ∀ field ∈ c.fields, field.Sound r.decls d

theorem accepted_of_fault (hname : r.declaration? d.name = none) (h : r.fault? d = none) :
    r.Accepted d := by
  rw [fault?] at h
  split at h
  · contradiction
  · next hprimitive =>
    split at h
    · contradiction
    · next hparams =>
      obtain ⟨hnodup, hnew⟩ := constructorsFault?_eq_none h
      exact {
        name_new := fun other hother heq => by
          have := List.find?_eq_none.1 hname other hother
          simp [heq] at this
        not_primitive := by simpa using hprimitive
        params_nodup := (firstRepeated?_eq_none hparams).1
        constructors_nodup := hnodup
        constructors_new := fun c hc => (hnew c hc).2
        fields_sound := fun c hc =>
          sound_of_fieldsFault c.fields (fieldsFault_of_constructorsFault h c hc) }

/-! ## Consistent registries -/

/-- What is known of the declarations of a registry. -/
structure Consistent (r : Registry) : Prop where
  /-- The types are distinct. -/
  names_nodup : (r.decls.map (·.name)).Nodup
  /-- No type is built in. -/
  not_primitive : ∀ d ∈ r.decls, isPrimitiveType d.name = false
  /-- The parameters of each declaration are distinct. -/
  params_nodup : ∀ d ∈ r.decls, d.params.Nodup
  /-- No constructor is listed twice, in one declaration or in two. -/
  constructors_nodup : (r.decls.flatMap fun d => d.constructors.map (·.name)).Nodup
  /-- The fields of a declaration are sound after the declarations before it. -/
  fields_sound : ∀ (i : Nat) (d : DataDecl), r.decls[i]? = some d →
    ∀ c ∈ d.constructors, ∀ field ∈ c.fields, field.Sound (r.decls.take i) d

/-- The owner of a constructor lists it. -/
theorem mem_of_owner? {name : String} {c : ConstructorDecl} (h : r.owner? name = some (d, c)) :
    d ∈ r.decls ∧ c ∈ d.constructors ∧ c.name = name := by
  obtain ⟨d', hd', hc⟩ := List.exists_of_findSome?_eq_some h
  obtain ⟨c', hc', heq⟩ := Option.map_eq_some_iff.1 hc
  obtain ⟨rfl, rfl⟩ := Prod.mk.inj heq
  have hname := List.find?_some hc'
  exact ⟨hd', List.mem_of_find?_eq_some hc', by simpa using hname⟩

/-- A constructor that is listed has an owner. -/
theorem owner?_ne_none {c : ConstructorDecl} (hd : d ∈ r.decls) (hc : c ∈ d.constructors) :
    r.owner? c.name ≠ none := by
  intro hnone
  have hd := List.findSome?_eq_none_iff.1 hnone d hd
  have := List.find?_eq_none.1 (Option.map_eq_none_iff.1 hd) c hc
  simp at this

/-- Of consistent declarations, one lists a constructor of a given name at most. -/
theorem Consistent.eq_of_mem (hr : r.Consistent) {d' : DataDecl} {c c' : ConstructorDecl}
    (hd : d ∈ r.decls) (hd' : d' ∈ r.decls) (hc : c ∈ d.constructors) (hc' : c' ∈ d'.constructors)
    (hname : c.name = c'.name) : d = d' ∧ c = c' := by
  obtain ⟨hnodup, hdisjoint⟩ := List.nodup_flatMap.1 hr.constructors_nodup
  have hdecl : d = d' := by
    by_contra hne
    have hsymm : Std.Symm (Function.onFun List.Disjoint
        fun d : DataDecl => d.constructors.map (·.name)) := ⟨fun _ _ h => h.symm⟩
    refine hdisjoint.forall hd hd' hne (List.mem_map_of_mem hc) ?_
    exact hname ▸ List.mem_map_of_mem hc'
  subst hdecl
  exact ⟨rfl, List.inj_on_of_nodup_map (hnodup d hd) hc hc' hname⟩

/-- The owner of a constructor is the declaration that lists it. -/
theorem Consistent.owner?_eq_some_iff (hr : r.Consistent) {name : String} {c : ConstructorDecl} :
    r.owner? name = some (d, c) ↔ d ∈ r.decls ∧ c ∈ d.constructors ∧ c.name = name := by
  refine ⟨mem_of_owner?, ?_⟩
  rintro ⟨hd, hc, rfl⟩
  obtain ⟨⟨d', c'⟩, howner⟩ := Option.ne_none_iff_exists'.1 (owner?_ne_none hd hc)
  obtain ⟨hd', hc', hname⟩ := mem_of_owner? howner
  obtain ⟨rfl, rfl⟩ := hr.eq_of_mem hd hd' hc hc' hname.symm
  exact howner

theorem consistent_empty : empty.Consistent where
  names_nodup := List.nodup_nil
  not_primitive := nofun
  params_nodup := nofun
  constructors_nodup := List.nodup_nil
  fields_sound := by simp [empty]

/-- A declaration that is accepted keeps the registry consistent. -/
theorem Consistent.append (hr : r.Consistent) (hd : r.Accepted d) :
    Consistent ⟨r.decls ++ [d]⟩ where
  names_nodup := by
    rw [List.map_append, List.map_singleton]
    refine hr.names_nodup.append (List.nodup_singleton _) ?_
    simpa [List.disjoint_singleton] using hd.name_new
  not_primitive := by
    simpa [or_imp, forall_and] using ⟨hr.not_primitive, hd.not_primitive⟩
  params_nodup := by
    simpa [or_imp, forall_and] using ⟨hr.params_nodup, hd.params_nodup⟩
  constructors_nodup := by
    rw [List.flatMap_append, List.flatMap_singleton]
    refine hr.constructors_nodup.append hd.constructors_nodup fun name hname hmem => ?_
    obtain ⟨other, hother, hname⟩ := List.mem_flatMap.1 hname
    obtain ⟨c', hc', rfl⟩ := List.mem_map.1 hname
    obtain ⟨c, hc, heq⟩ := List.mem_map.1 hmem
    exact owner?_ne_none hother hc' (heq ▸ hd.constructors_new c hc)
  fields_sound := by
    intro i d' hget c hc field hfield
    -- earlier declarations have the same ones before them, and the new one has all of them
    rcases Nat.lt_or_ge i r.decls.length with hlt | hge
    · rw [List.getElem?_append_left hlt] at hget
      rw [List.take_append_of_le_length hlt.le]
      exact hr.fields_sound i d' hget c hc field hfield
    · rw [List.getElem?_append_right hge, List.getElem?_singleton] at hget
      obtain ⟨hi, rfl⟩ : i - r.decls.length = 0 ∧ d = d' := by
        split at hget
        · next hi => exact ⟨hi, Option.some.inj hget⟩
        · contradiction
      have hlength : i = r.decls.length := by omega
      rw [hlength, List.take_left]
      exact hd.fields_sound c hc field hfield

/-- A reachable registry is consistent. -/
theorem consistent_of_reachable (hr : r.Reachable) : r.Consistent := by
  induction hr with
  | empty => exact consistent_empty
  | add _ hadd ih =>
    rcases add_cases hadd with ⟨rfl, -⟩ | ⟨rfl, hname, hfault⟩
    · exact ih
    · exact ih.append (accepted_of_fault hname hfault)

/-- Adding a declaration that is there changes nothing. -/
theorem Consistent.add_eq_self (hr : r.Consistent) (hd : d ∈ r.decls) : r.add d = .ok r := by
  have hdecl : r.declaration? d.name = some d := by
    obtain ⟨other, hother⟩ : ∃ other, r.declaration? d.name = some other := by
      refine Option.ne_none_iff_exists'.1 fun hnone => ?_
      have := List.find?_eq_none.1 hnone d hd
      simp at this
    have hname := List.find?_some hother
    rw [hother, List.inj_on_of_nodup_map hr.names_nodup (List.mem_of_find?_eq_some hother) hd
      (by simpa using hname)]
  rw [add, hdecl]
  exact if_pos rfl

/-! ## The index of constructors -/

/-- Enters the constructors of a declaration at a position of the list. -/
def enter (index : String → Option Nat) (d : DataDecl) (position : Nat) : String → Option Nat :=
  d.constructors.foldl (fun index c => Function.update index c.name (some position)) index

/-- The position of the declaration that each constructor belongs to. Every declaration is entered
over what was entered for those before it. -/
def ownerIndex (r : Registry) : String → Option Nat :=
  r.decls.zipIdx.foldl (fun index (d, position) => enter index d position) fun _ => none

/-- What is entered is the position, for the constructors of the declaration alone. -/
theorem enter_eq (index : String → Option Nat) (d : DataDecl) (position : Nat) (name : String) :
    enter index d position name
      = if (d.constructor? name).isSome then some position else index name := by
  rw [enter, DataDecl.constructor?]
  induction d.constructors generalizing index with
  | nil => rfl
  | cons c cs ih =>
    rw [List.foldl_cons, ih, List.find?_cons]
    by_cases hname : c.name = name
    · simp [hname]
    · rw [Function.update_of_ne (Ne.symm hname), beq_false_of_ne hname]

theorem ownerIndex_append (r : Registry) (d : DataDecl) :
    ownerIndex ⟨r.decls ++ [d]⟩ = enter r.ownerIndex d r.decls.length := by
  simp [ownerIndex, List.zipIdx_append]

/-- The search for an owner in one more declaration. -/
theorem owner?_append (r : Registry) (d : DataDecl) (name : String) :
    owner? ⟨r.decls ++ [d]⟩ name
      = (r.owner? name).or ((d.constructor? name).map (d, ·)) := by
  simp [owner?, List.findSome?_append]

/-- The declaration at an indexed position owns the constructor. -/
theorem owner?_eq_ownerIndex (hr : r.Reachable) (name : String) :
    (∀ i, r.ownerIndex name = some i → i < r.decls.length)
      ∧ r.owner? name = (r.ownerIndex name).bind fun i => r.decls[i]?.bind fun d =>
        (d.constructor? name).map (d, ·) := by
  induction hr with
  | empty => exact ⟨nofun, rfl⟩
  | @add r _ d _ hadd ih =>
    rcases add_cases hadd with ⟨rfl, -⟩ | ⟨rfl, hname, hfault⟩
    · exact ih
    · obtain ⟨hlt, howner⟩ := ih
      rw [ownerIndex_append, enter_eq, owner?_append]
      cases hc : d.constructor? name with
      | some c =>
        -- the constructor is new, and the new position is entered
        have hnew := (accepted_of_fault hname hfault).constructors_new c
          (List.mem_of_find?_eq_some hc)
        have hcname : c.name = name := by simpa using List.find?_some hc
        rw [hcname] at hnew
        simp [hnew, hc]
      | none =>
        refine ⟨fun i hi => ?_, ?_⟩
        · have := hlt i (by simpa using hi)
          simp only [List.length_append, List.length_singleton]
          omega
        · cases hindex : r.ownerIndex name with
          | none => simp [howner, hindex]
          | some i =>
            simp [howner, hindex, List.getElem?_append_left (hlt i hindex)]

end Registry

end Clausal
