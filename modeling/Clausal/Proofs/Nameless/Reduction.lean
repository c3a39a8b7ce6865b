import Clausal.Proofs.Delta.Answer
import Clausal.Proofs.Lists
import Clausal.Proofs.Nameless.Reading

/-!
# Reduction of nameless terms

Contraction of beta and delta redexes anywhere in a nameless term, and its confluence. Parallel
reduction contracts several redexes at once. A delta redex is contracted together with redexes
inside of its arguments, since the answer of a rule stays when the arguments reduce.

## Main results

* `Nameless.Delta.par`: the answer of a delta rule is stable under reduction of the arguments;
* `Nameless.Par.diamond`: parallel reduction has the diamond property;
* `Nameless.Steps.confluent`: reduction is confluent.
-/

namespace Clausal

open Relation (ReflTransGen)

/-- The term that packs the fields of a value. -/
def Nameless.fieldsTerm : List Nameless → Nameless
  | [field] => field
  | fields => (Nameless.const (.primitive (.tuple fields.length))).applyAll fields

/-- The nameless term of an answer, from the parts of the first argument. -/
def Answer.nameless? (parts : List Nameless) : Answer → Option Nameless
  | literal value => some (.const (.literal value))
  | choice first => some (if first then firstOfTwo else secondOfTwo).nameless
  | component index => parts[index]?
  | fields => some (Nameless.fieldsTerm parts)

/-- Whether a constant still lacks arguments that its rule consumes. -/
def Constant.Unsaturated (c : Constant) (count : Nat) : Prop :=
  ∀ p arity, c = .primitive p → p.arity? = some arity → count < arity

/-- A constant that is not pending lacks arguments. -/
theorem Constant.unsaturated_of_kind {c : Constant} {count : Nat} (h : c.kind count ≠ .pending) :
    c.Unsaturated count := by
  rintro p arity rfl harity
  rw [kind_of_arity? harity] at h
  by_contra hnot
  exact h (if_neg hnot)

namespace Nameless

variable {t t' u u' f f' a a' : Nameless} {c : Constant} {depth : Nat} {σ σ' : Nat → Nameless}

/-- How far a term is evaluated. -/
def kind (t : Nameless) : Kind :=
  match t.head with
  | const c => c.kind t.args.length
  | abs _ _ => if t.args.isEmpty then .function else .pending
  | _ => .pending

/-- A delta redex, and what it contracts to. -/
inductive Delta : Nameless → Nameless → Prop
  | fix (function : Nameless) :
      Delta (app (const (.primitive .fix)) function)
        (app function (app (const (.primitive .fix)) function))
  | answer {c : Constant} {init : List Nameless} {last result : Nameless} {answer : Answer}
      (closed : ∀ arg ∈ init ++ [last], arg.Closed)
      (hanswer : c.answer? ((init ++ [last]).map kind) = some answer)
      (hresult : answer.nameless? ((init ++ [last]).head?.elim [] args) = some result) :
      Delta (app ((const c).applyAll init) last) result

/-- A contraction anywhere in a term. -/
inductive Step : Nameless → Nameless → Prop
  | beta (stem : String) (body arg : Nameless) :
      Step (app (abs stem body) arg) (body.instantiate arg)
  | delta {t t' : Nameless} : Delta t t' → Step t t'
  | func {f f' : Nameless} (a : Nameless) : Step f f' → Step (app f a) (app f' a)
  | arg (f : Nameless) {a a' : Nameless} : Step a a' → Step (app f a) (app f a')
  | abs (stem : String) {body body' : Nameless} : Step body body' →
      Step (abs stem body) (abs stem body')

/-- Any number of contractions. -/
abbrev Steps : Nameless → Nameless → Prop := ReflTransGen Step

/-- Contractions in several places at once. -/
inductive Par : Nameless → Nameless → Prop
  | bound (index : Nat) : Par (bound index) (bound index)
  | free (name : String) : Par (free name) (free name)
  | const (constant : Constant) : Par (const constant) (const constant)
  | abs (stem : String) {body body' : Nameless} : Par body body' →
      Par (abs stem body) (abs stem body')
  | app {f f' a a' : Nameless} : Par f f' → Par a a' → Par (app f a) (app f' a')
  | beta (stem : String) {body body' arg arg' : Nameless} : Par body body' → Par arg arg' →
      Par (app (abs stem body) arg) (body'.instantiate arg')
  | delta {f f' a a' t t' : Nameless} : Par f f' → Par a a' → Delta (app f a) t →
      Delta (app f' a') t' → Par (app f a) t'

/-! ## Kinds -/

theorem kind_const_applyAll (c : Constant) (args : List Nameless) :
    ((const c).applyAll args).kind = c.kind args.length := by
  rw [kind, head_applyAll, args_applyAll]
  rfl

/-- The fields of a value are a tuple, unless there is one. -/
theorem kind_fieldsTerm {fields : List Nameless} (h : fields.length ≠ 1) :
    (fieldsTerm fields).kind = .tuple fields.length := by
  rw [fieldsTerm.eq_2, kind_const_applyAll, Constant.kind, if_pos rfl]
  exact fun single heq => h (by rw [heq, List.length_singleton])

/-- What does not change its kind: a constant that still lacks arguments, with its arguments, or an
abstraction. -/
theorem kind_cases (h : t.kind ≠ .pending) :
    (∃ stem body, t = abs stem body)
      ∨ ∃ c, t = (const c).applyAll t.args ∧ c.Unsaturated t.args.length := by
  have hwhole := t.applyAll_head_args
  rw [kind] at h
  cases hhead : t.head with
  | const c =>
    rw [hhead] at h hwhole
    exact .inr ⟨c, hwhole.symm, c.unsaturated_of_kind h⟩
  | abs stem body =>
    rw [hhead] at h hwhole
    cases hargs : t.args with
    | nil =>
      rw [hargs, applyAll_nil] at hwhole
      exact .inl ⟨stem, body, hwhole.symm⟩
    | cons _ _ =>
      rw [hargs] at h
      exact absurd rfl h
  | bound _ | free _ | app _ _ =>
    rw [hhead] at h
    exact absurd rfl h

/-! ## Delta redexes -/

theorem args_closedAt (h : t.ClosedAt depth) : ∀ arg ∈ t.args, arg.ClosedAt depth := by
  rw [← t.applyAll_head_args] at h
  exact (closedAt_applyAll.1 h).2

theorem fieldsTerm_closedAt {fields : List Nameless} (h : ∀ field ∈ fields, field.ClosedAt depth) :
    (fieldsTerm fields).ClosedAt depth := by
  unfold fieldsTerm
  split
  · exact h _ (List.mem_singleton_self _)
  · exact closedAt_applyAll.2 ⟨trivial, h⟩

/-- An answer is closed if the parts are that it is made of. -/
theorem nameless?_closed {answer : Answer} {parts : List Nameless} {result : Nameless}
    (hparts : ∀ part ∈ parts, part.Closed) (h : answer.nameless? parts = some result) :
    result.Closed := by
  cases answer with
  | literal value =>
    rw [← Option.some.inj h]
    trivial
  | choice first =>
    rw [← Option.some.inj h]
    refine Term.closed_read ?_ _
    cases first <;> decide
  | component index => exact hparts _ (List.mem_of_getElem? h)
  | fields =>
    rw [← Option.some.inj h]
    exact fieldsTerm_closedAt hparts

theorem head_args_closed {args : List Nameless} (h : ∀ arg ∈ args, arg.Closed) :
    ∀ part ∈ args.head?.elim [] Nameless.args, part.Closed := by
  cases args with
  | nil => exact nofun
  | cons first _ => exact args_closedAt (h first List.mem_cons_self)

namespace Delta

/-- A rule that answers contracts the constant with all of its arguments. -/
theorem of_args {args : List Nameless} {answer : Answer} (closed : ∀ arg ∈ args, arg.Closed)
    (hanswer : c.answer? (args.map kind) = some answer)
    (hresult : answer.nameless? (args.head?.elim [] Nameless.args) = some t) :
    Delta ((const c).applyAll args) t := by
  rcases List.eq_nil_or_concat' args with rfl | ⟨init, last, rfl⟩
  · obtain ⟨p, rfl, harity⟩ := Constant.arity_of_answer? hanswer
    exact absurd harity p.arity?_ne_zero
  · rw [applyAll_concat]
    exact .answer closed hanswer hresult

/-- A redex that is not one of the fixpoint is closed, and so is what it contracts to. -/
theorem fix_or_closed (h : Delta t u) :
    (∃ function, t = app (const (.primitive .fix)) function
        ∧ u = app function (app (const (.primitive .fix)) function))
      ∨ t.Closed ∧ u.Closed := by
  cases h with
  | fix function => exact .inl ⟨function, rfl, rfl⟩
  | @answer c init last _ _ closed hanswer hresult =>
    have ht : ((const c).applyAll (init ++ [last])).Closed := closedAt_applyAll.2 ⟨trivial, closed⟩
    rw [applyAll_concat] at ht
    exact .inr ⟨ht, nameless?_closed (head_args_closed closed) hresult⟩

theorem closedAt (h : Delta t u) (ht : t.ClosedAt depth) : u.ClosedAt depth := by
  rcases h.fix_or_closed with ⟨function, rfl, rfl⟩ | ⟨-, hu⟩
  · exact ⟨ht.2, ht⟩
  · exact hu.closedAt depth

/-- A redex is one under every substitution. -/
theorem subst (h : Delta t u) (σ : Nat → Nameless) : Delta (t.subst σ) (u.subst σ) := by
  rcases h.fix_or_closed with ⟨function, rfl, rfl⟩ | ⟨ht, hu⟩
  · exact .fix _
  · rwa [ht.subst, hu.subst]

/-- A redex is headed by a constant that has all of its arguments. -/
theorem saturated (h : Delta t u) :
    ∃ p args, t = (const (.primitive p)).applyAll args ∧ p.arity? = some args.length := by
  cases h with
  | fix function => exact ⟨.fix, [function], rfl, rfl⟩
  | @answer c init last _ _ _ hanswer _ =>
    obtain ⟨p, rfl, harity⟩ := Constant.arity_of_answer? hanswer
    rw [List.length_map] at harity
    exact ⟨p, init ++ [last], (applyAll_concat _ _ _).symm, harity⟩

/-- An abstraction heads no delta redex. -/
theorem ne_abs {stem : String} {body arg : Nameless} : ¬Delta (app (Nameless.abs stem body) arg) t := by
  intro h
  obtain ⟨p, args, hargs, -⟩ := h.saturated
  have hhead := congrArg head hargs
  rw [head_applyAll] at hhead
  contradiction

theorem exists_app (h : Delta t u) : ∃ f a, t = app f a := by
  cases h with
  | fix _ => exact ⟨_, _, rfl⟩
  | answer _ _ _ => exact ⟨_, _, rfl⟩

theorem fix_applyAll (function : Nameless) :
    (const (.primitive .fix)).applyAll [function] = app (const (.primitive .fix)) function := rfl

/-- A redex contracts in one way. -/
theorem unique (h : Delta t u) (h' : Delta t u') : u = u' := by
  cases h with
  | fix function =>
    generalize hredex : app (const (.primitive .fix)) function = redex at h'
    cases h' with
    | fix _ => cases hredex; rfl
    | answer _ hanswer _ =>
      rw [← applyAll_concat] at hredex
      rw [← (const_applyAll_inj.1 ((fix_applyAll function).trans hredex)).1] at hanswer
      contradiction
  | @answer c init last _ answer closed hanswer hresult =>
    generalize hredex : app ((const c).applyAll init) last = redex at h'
    cases h' with
    | fix function =>
      rw [← applyAll_concat] at hredex
      rw [(const_applyAll_inj.1 (hredex.trans (fix_applyAll function).symm)).1] at hanswer
      contradiction
    | @answer c' init' last' _ answer' closed' hanswer' hresult' =>
      rw [← applyAll_concat, ← applyAll_concat, const_applyAll_inj] at hredex
      obtain ⟨rfl, hargs⟩ := hredex
      rw [← hargs] at hanswer' hresult'
      rw [hanswer] at hanswer'
      obtain rfl := Option.some.inj hanswer'
      exact Option.some.inj (hresult.symm.trans hresult')

end Delta

/-! ## Parallel reduction -/

namespace Par

theorem refl (t : Nameless) : Par t t := by
  induction t with
  | bound i => exact .bound i
  | free name => exact .free name
  | const c => exact .const c
  | abs stem body ih => exact .abs stem ih
  | app func arg ihf iha => exact .app ihf iha

theorem closedAt (h : Par t u) (ht : t.ClosedAt depth) : u.ClosedAt depth := by
  induction h generalizing depth with
  | bound _ | free _ | const _ => exact ht
  | abs stem _ ih => exact ih ht
  | app _ _ ihf iha => exact ⟨ihf ht.1, iha ht.2⟩
  | beta stem _ _ ihb iha => exact (ihb ht.1).instantiate (iha ht.2)
  | delta _ _ _ hdelta ihf iha => exact hdelta.closedAt ⟨ihf ht.1, iha ht.2⟩

/-- Contractions are the same under a substitution. -/
theorem subst_left (h : Par t u) (σ : Nat → Nameless) : Par (t.subst σ) (u.subst σ) := by
  induction h generalizing σ with
  | bound i => exact refl (σ i)
  | free name => exact .free name
  | const c => exact .const c
  | abs stem _ ih => exact .abs stem (ih _)
  | app _ _ ihf iha => exact .app (ihf σ) (iha σ)
  | beta stem _ _ ihb iha =>
    rw [instantiate_subst]
    exact .beta stem (ihb _) (iha σ)
  | delta _ _ hredex hredex' ihf iha =>
    exact .delta (ihf σ) (iha σ) (hredex.subst σ) (hredex'.subst σ)

theorem under (h : ∀ i, Par (σ i) (σ' i)) (i : Nat) :
    Par (Nameless.under σ i) (Nameless.under σ' i) := by
  cases i with
  | zero => exact .bound 0
  | succ i =>
    simp only [Nameless.under, Nameless.cons, shift, rename_eq_subst]
    exact (h i).subst_left _

/-- Contractions in a term and in what replaces its indices go together. -/
theorem subst (h : Par t u) (hσ : ∀ i, Par (σ i) (σ' i)) : Par (t.subst σ) (u.subst σ') := by
  induction h generalizing σ σ' with
  | bound i => exact hσ i
  | free name => exact .free name
  | const c => exact .const c
  | abs stem _ ih => exact .abs stem (ih (under hσ))
  | app _ _ ihf iha => exact .app (ihf hσ) (iha hσ)
  | beta stem _ _ ihb iha =>
    rw [instantiate_subst]
    exact .beta stem (ihb (under hσ)) (iha hσ)
  | delta _ _ hredex hredex' ihf iha =>
    exact .delta (ihf hσ) (iha hσ) (hredex.subst σ) (hredex'.subst σ')

theorem instantiate {body body' arg arg' : Nameless} (hbody : Par body body')
    (harg : Par arg arg') : Par (body.instantiate arg) (body'.instantiate arg') := by
  refine hbody.subst fun i => ?_
  cases i with
  | zero => exact harg
  | succ i => exact .bound i

/-! ### Delta redexes reduce to delta redexes -/

theorem applyAll {func func' : Nameless} {args args' : List Nameless} (hfunc : Par func func')
    (hargs : List.Forall₂ Par args args') : Par (func.applyAll args) (func'.applyAll args') := by
  induction hargs generalizing func func' with
  | nil => exact hfunc
  | cons harg _ ih => exact ih (.app hfunc harg)

theorem fieldsTerm {fields fields' : List Nameless} (h : List.Forall₂ Par fields fields') :
    Par (Nameless.fieldsTerm fields) (Nameless.fieldsTerm fields') := by
  have hlength := h.length_eq
  unfold Nameless.fieldsTerm
  split
  · obtain ⟨field', rfl⟩ := List.length_eq_one_iff.1 hlength.symm
    cases h with
    | cons hfield _ => exact hfield
  · next hne =>
    split
    · obtain ⟨field, rfl⟩ := List.length_eq_one_iff.1 hlength
      exact absurd rfl (hne field)
    · rw [hlength]
      exact (refl _).applyAll h

/-- A constant that lacks arguments reduces only in those that it has. -/
theorem const_applyAll {args : List Nameless} (hc : c.Unsaturated args.length)
    (h : Par ((Nameless.const c).applyAll args) u) :
    ∃ args', u = (Nameless.const c).applyAll args' ∧ List.Forall₂ Par args args' := by
  induction args using List.reverseRecOn generalizing u with
  | nil =>
    cases h
    exact ⟨[], rfl, .nil⟩
  | append_singleton init last ih =>
    rw [List.length_append, List.length_singleton] at hc
    rw [applyAll_concat] at h
    have hinit : c.Unsaturated init.length := fun p arity hp harity =>
      Nat.lt_of_succ_lt (hc p arity hp harity)
    generalize hfunc : (Nameless.const c).applyAll init = func at h ih
    cases h with
    | app hf ha =>
      obtain ⟨init', rfl, hargs⟩ := ih hinit hf
      exact ⟨init' ++ [_], (applyAll_concat _ _ _).symm, List.rel_append hargs (.cons ha .nil)⟩
    | beta _ _ _ =>
      have hhead := congrArg head hfunc
      rw [head_applyAll] at hhead
      contradiction
    | delta _ _ hredex _ =>
      obtain ⟨p, args, hargs, harity⟩ := hredex.saturated
      rw [← hfunc, ← applyAll_concat, const_applyAll_inj] at hargs
      obtain ⟨rfl, rfl⟩ := hargs
      rw [List.length_append, List.length_singleton] at harity
      exact absurd (hc p _ rfl harity) (Nat.lt_irrefl _)

/-- An evaluated term stays what it is; its arguments may reduce. -/
theorem kind_args (h : Par t u) (ht : t.kind ≠ .pending) :
    u.kind = t.kind ∧ List.Forall₂ Par t.args u.args := by
  rcases kind_cases ht with ⟨stem, body, rfl⟩ | ⟨c, hc, hunsaturated⟩
  · cases h with
    | abs _ _ => exact ⟨rfl, .nil⟩
  · generalize t.args = args at hc hunsaturated
    subst hc
    obtain ⟨args', rfl, hargs⟩ := const_applyAll hunsaturated h
    rw [kind_const_applyAll, kind_const_applyAll, args_applyAll, hargs.length_eq]
    exact ⟨rfl, hargs⟩

theorem kind_below (h : Par t u) : Kind.Below t.kind u.kind := by
  by_cases ht : t.kind = .pending
  · exact .inl ht
  · exact .inr (h.kind_args ht).1.symm

/-- What an answer is made of may reduce before the answer is taken. -/
theorem nameless? {answer : Answer} {parts parts' : List Nameless} {result : Nameless}
    (h : List.Forall₂ Par parts parts') (hresult : answer.nameless? parts = some result) :
    ∃ result', answer.nameless? parts' = some result' ∧ Par result result' := by
  cases answer with
  | literal _ | choice _ =>
    rw [← Option.some.inj hresult]
    exact ⟨_, rfl, refl _⟩
  | component index =>
    obtain ⟨hindex, rfl⟩ := List.getElem?_eq_some_iff.1 hresult
    have hindex' : index < parts'.length := h.length_eq ▸ hindex
    exact ⟨parts'[index], List.getElem?_eq_getElem hindex', h.get hindex hindex'⟩
  | fields =>
    rw [← Option.some.inj hresult]
    exact ⟨_, rfl, .fieldsTerm h⟩

/-- The first argument of a rule that answers is evaluated, and its parts may reduce. -/
theorem head_args {args args' : List Nameless} {answer : Answer}
    (h : List.Forall₂ Par args args') (hanswer : c.answer? (args.map kind) = some answer) :
    List.Forall₂ Par (args.head?.elim [] Nameless.args) (args'.head?.elim [] Nameless.args) := by
  cases h with
  | nil => exact .nil
  | @cons first _ rest _ hfirst _ =>
    refine (hfirst.kind_args fun hpending => ?_).2
    rw [List.map_cons, hpending, Constant.answer?_pending_cons] at hanswer
    contradiction

end Par

/-- The arguments of a delta redex may reduce before it is contracted. -/
theorem Delta.par (h : Delta (app f a) t) (hf : Par f f') (ha : Par a a') :
    ∃ t', Delta (app f' a') t' ∧ Par t t' := by
  cases h with
  | fix =>
    cases hf with
    | const _ => exact ⟨_, .fix a', .app ha (.app (.const _) ha)⟩
  | @answer c init _ _ answer closed hanswer hresult =>
    obtain ⟨p, rfl, harity⟩ := Constant.arity_of_answer? hanswer
    rw [List.length_map, List.length_append, List.length_singleton] at harity
    -- the constant lacks the last argument, and so only the others reduce
    have hunsaturated : (Constant.primitive p).Unsaturated init.length := by
      rintro p' arity hp harity'
      rw [← Constant.primitive.inj hp, harity] at harity'
      exact Option.some.inj harity' ▸ Nat.lt_succ_self _
    obtain ⟨init', rfl, hinit⟩ := Par.const_applyAll hunsaturated hf
    have hargs : List.Forall₂ Par (init ++ [a]) (init' ++ [a']) :=
      List.rel_append hinit (.cons ha .nil)
    have hkinds : List.Forall₂ Kind.Below ((init ++ [a]).map kind) ((init' ++ [a']).map kind) := by
      rw [List.forall₂_map_left_iff, List.forall₂_map_right_iff]
      exact hargs.imp fun _ _ => Par.kind_below
    have hclosed : ∀ arg ∈ init' ++ [a'], arg.Closed := by
      intro arg' harg'
      obtain ⟨arg, harg, hpar⟩ := exists_mem_of_forall₂ hargs harg'
      exact hpar.closedAt (closed arg harg)
    obtain ⟨t', hresult', hpar⟩ := Par.nameless? (Par.head_args hargs hanswer) hresult
    exact ⟨t', .answer hclosed (Constant.answer?_mono hkinds hanswer) hresult', hpar⟩

/-- Parallel contractions of one term can be joined by parallel contractions. -/
theorem Par.diamond (h : Par t u) (h' : Par t u') : ∃ v, Par u v ∧ Par u' v := by
  induction h generalizing u' with
  | bound i => exact ⟨u', h', refl u'⟩
  | free name => exact ⟨u', h', refl u'⟩
  | const c => exact ⟨u', h', refl u'⟩
  | abs stem _ ih =>
    cases h' with
    | abs _ hbody' =>
      obtain ⟨v, hv, hv'⟩ := ih hbody'
      exact ⟨_, .abs stem hv, .abs stem hv'⟩
  | @app f f₁ a a₁ hf ha ihf iha =>
    cases h' with
    | app hf' ha' =>
      obtain ⟨f₃, hf₃, hf₃'⟩ := ihf hf'
      obtain ⟨a₃, ha₃, ha₃'⟩ := iha ha'
      exact ⟨_, .app hf₃ ha₃, .app hf₃' ha₃'⟩
    | beta stem hbody' ha' =>
      obtain ⟨a₃, ha₃, ha₃'⟩ := iha ha'
      obtain ⟨f₃, hf₃, hf₃'⟩ := ihf (.abs stem hbody')
      -- an abstraction reduces to abstractions
      cases hf with
      | abs _ hbody =>
        cases hf₃ with
        | abs _ hbody₃ =>
          cases hf₃' with
          | abs _ hbody₃' =>
            exact ⟨_, .beta stem hbody₃ ha₃, hbody₃'.instantiate ha₃'⟩
    | delta hf' ha' hredex hredex' =>
      obtain ⟨f₃, hf₃, hf₃'⟩ := ihf hf'
      obtain ⟨a₃, ha₃, ha₃'⟩ := iha ha'
      obtain ⟨_, hredex₁, -⟩ := hredex.par hf ha
      obtain ⟨t₃, hredex₃, ht₃⟩ := hredex'.par hf₃' ha₃'
      exact ⟨t₃, .delta hf₃ ha₃ hredex₁ hredex₃, ht₃⟩
  | @beta stem body body₁ arg arg₁ hbody harg ihb iha =>
    cases h' with
    | app hf' ha' =>
      cases hf' with
      | abs _ hbody' =>
        obtain ⟨b₃, hb₃, hb₃'⟩ := ihb hbody'
        obtain ⟨a₃, ha₃, ha₃'⟩ := iha ha'
        exact ⟨_, hb₃.instantiate ha₃, .beta stem hb₃' ha₃'⟩
    | beta _ hbody' ha' =>
      obtain ⟨b₃, hb₃, hb₃'⟩ := ihb hbody'
      obtain ⟨a₃, ha₃, ha₃'⟩ := iha ha'
      exact ⟨_, hb₃.instantiate ha₃, hb₃'.instantiate ha₃'⟩
    | delta _ _ hredex _ => exact absurd hredex Delta.ne_abs
  | @delta f f₁ a a₁ t t₁ hf ha hredex hredex₁ ihf iha =>
    cases h' with
    | app hf' ha' =>
      obtain ⟨f₃, hf₃, hf₃'⟩ := ihf hf'
      obtain ⟨a₃, ha₃, ha₃'⟩ := iha ha'
      obtain ⟨_, hredex', -⟩ := hredex.par hf' ha'
      obtain ⟨t₃, hredex₃, ht₃⟩ := hredex₁.par hf₃ ha₃
      exact ⟨t₃, ht₃, .delta hf₃' ha₃' hredex' hredex₃⟩
    | beta _ _ _ => exact absurd hredex Delta.ne_abs
    | delta hf' ha' _ hredex' =>
      obtain ⟨f₃, hf₃, hf₃'⟩ := ihf hf'
      obtain ⟨a₃, ha₃, ha₃'⟩ := iha ha'
      obtain ⟨t₃, hredex₃, ht₃⟩ := hredex₁.par hf₃ ha₃
      obtain ⟨t₃', hredex₃', ht₃'⟩ := hredex'.par hf₃' ha₃'
      rw [hredex₃'.unique hredex₃] at ht₃'
      exact ⟨t₃, ht₃, ht₃'⟩

/-! ## Reduction -/

theorem Step.par (h : Step t u) : Par t u := by
  induction h with
  | beta stem body arg => exact .beta stem (.refl body) (.refl arg)
  | delta hredex =>
    obtain ⟨f, a, rfl⟩ := hredex.exists_app
    exact .delta (.refl f) (.refl a) hredex hredex
  | func a _ ih => exact .app ih (.refl a)
  | arg f _ ih => exact .app (.refl f) ih
  | abs stem _ ih => exact .abs stem ih

/-- Only applications and abstractions contract. -/
theorem Step.exists_app_or_abs (h : Step t u) :
    (∃ f a, t = app f a) ∨ ∃ stem body, t = Nameless.abs stem body := by
  cases h with
  | beta _ _ _ | func _ _ | arg _ _ => exact .inl ⟨_, _, rfl⟩
  | delta hredex => exact .inl hredex.exists_app
  | abs _ _ => exact .inr ⟨_, _, rfl⟩

namespace Steps

/-- A constant alone has no contraction. -/
theorem eq_const (h : Steps (const c) t) : t = const c := by
  rcases h.cases_head with rfl | ⟨u, hstep, -⟩
  · rfl
  · exact absurd hstep.exists_app_or_abs (by simp)

theorem abs (stem : String) {body body' : Nameless} (h : Steps body body') :
    Steps (abs stem body) (abs stem body') :=
  h.lift (Nameless.abs stem) fun _ _ => Step.abs stem

theorem app (hf : Steps f f') (ha : Steps a a') : Steps (app f a) (app f' a') :=
  (hf.lift (fun f => f.app a) fun _ _ => Step.func a).trans
    (ha.lift (Nameless.app f') fun _ _ => Step.arg f')

end Steps

theorem Step.applyAll (h : Step t u) (args : List Nameless) :
    Step (t.applyAll args) (u.applyAll args) := by
  induction args generalizing t u with
  | nil => exact h
  | cons arg args ih => exact ih (.func arg h)

theorem Par.steps (h : Par t u) : Steps t u := by
  induction h with
  | bound _ | free _ | const _ => exact .refl
  | abs stem _ ih => exact .abs stem ih
  | app _ _ ihf iha => exact .app ihf iha
  | beta stem _ _ ihb iha => exact (Steps.app (.abs stem ihb) iha).tail (.beta stem _ _)
  | delta _ _ _ hredex ihf iha => exact (Steps.app ihf iha).tail (.delta hredex)

/-- Reductions of one term can be joined by reductions. -/
theorem Steps.confluent (h : Steps t u) (h' : Steps t u') : ∃ v, Steps u v ∧ Steps u' v := by
  have hjoin : Relation.Join (ReflTransGen Par) u u' := by
    refine Relation.church_rosser (fun t u u' h h' => ?_) (h.lift id fun _ _ => Step.par)
      (h'.lift id fun _ _ => Step.par)
    obtain ⟨v, hv, hv'⟩ := h.diamond h'
    exact ⟨v, .single hv, .single hv'⟩
  obtain ⟨v, hv, hv'⟩ := hjoin
  have hsteps {a b : Nameless} (h : ReflTransGen Par a b) : Steps a b :=
    h.lift' id fun _ _ => Par.steps
  exact ⟨v, hsteps hv, hsteps hv'⟩

end Nameless

end Clausal
