import Clausal.Proofs.Matching.Copies
import Clausal.Proofs.Nameless.Alpha
import Clausal.Proofs.Surface.Reading

/-!
# Shared failures

A failure that several tests of a match fall back to is bound to a fresh variable or copied to each
of the tests. Either way the lambda term is the same, up to the names of bound variables and to the
one contraction that puts the failure into its places.

The two expansions differ at every place of the failure, below binders of the pattern and within the
expansions of later patterns. `Expr.Inlines` relates two such expressions by what they are read as,
in every environment, and goes through each form of expression that a match is made of.

## Main results

* `Expr.Inlines`: an expression with a definition in the place of a variable;
* `Matching.inlines_expand`: a match with a variable for the failure, and with the failure itself;
* `Matching.conv_elaborate_var`: either is read as a match that falls back to a variable;
* `Matching.elaborate_share_alpha`: sharing a failure or copying it makes no difference.
-/

namespace Clausal

open Clausal.Expr

variable {x : String} {definition : Expr}

namespace Expr

/-- Whether an expression is read, with what the definition is read as for the variable, like
another in which the definition stands in the places of the variable. -/
def Inlines (x : String) (definition e e' : Expr) : Prop :=
  ∀ env : Environment, e.read (Function.update env x (definition.read env)) = e'.read env

namespace Inlines

variable {e e' func func' arg arg' condition condition' : Expr}
  {positive positive' negative negative' : Expr}

/-- Where the variable is not used, nothing changes. -/
theorem of_not_mem (h : x ∉ e.free) : Inlines x definition e e :=
  fun _ => read_update_of_not_mem h _

theorem var (x : String) (definition : Expr) : Inlines x definition (.var x) definition :=
  fun env => Function.update_self x _ env

theorem app1 (hfunc : Inlines x definition func func') (harg : Inlines x definition arg arg') :
    Inlines x definition (app1 func arg) (Expr.app1 func' arg') := by
  intro env
  rw [read_app1, read_app1, hfunc env, harg env]

theorem cond (hcondition : Inlines x definition condition condition')
    (hpositive : Inlines x definition positive positive')
    (hnegative : Inlines x definition negative negative') :
    Inlines x definition (cond condition positive negative)
      (Expr.cond condition' positive' negative') := by
  intro env
  rw [read_cond, read_cond, List.map_cons, List.map_cons, List.map_cons, List.map_nil,
    hcondition env, hpositive env, hnegative env]
  rfl

/-- A binder of another variable, which does not capture one of the definition. -/
theorem lam1 {param : String} (hparam : param ≠ x) (hcapture : param ∉ definition.free)
    (h : Inlines x definition e e') :
    Inlines x definition (lam1 param e) (Expr.lam1 param e') := by
  intro env
  have hdefinition : (definition.read env).shift = definition.read (env.bind param) := by
    rw [Nameless.shift, Nameless.rename_eq_subst, subst_read]
    refine read_congr fun name hname => ?_
    rw [Environment.bind_of_ne (ne_of_mem_of_not_mem hname hcapture), Nameless.shift,
      Nameless.rename_eq_subst]
  rw [read_lam1, read_lam1, Environment.bind_update hparam, hdefinition, h]

end Inlines

end Expr

/-! ## Matches -/

namespace Matching

variable {s success success' : Expr}

theorem inlines_bindName {name : String} (hname : name ≠ x) (hcapture : name ∉ definition.free)
    (hs : x ∉ s.free) (h : Inlines x definition success success') :
    Inlines x definition (bindName name s success) (bindName name s success') := by
  have hbound : Inlines x definition (app1 (lam1 name success) s) (app1 (lam1 name success') s) :=
    (h.lam1 hname hcapture).app1 (.of_not_mem hs)
  unfold bindName
  split
  · split
    · exact h
    · exact hbound
  · exact hbound

theorem inlines_probe (primitive : Primitive) (hs : x ∉ s.free) :
    Inlines x definition (probe primitive s) (probe primitive s) :=
  .of_not_mem fun h => hs (mem_free_probe.1 h)

mutual

/-- A match with a variable for the failure, and with the failure in its place. The pattern neither
binds the variable nor captures a variable of the failure. -/
theorem inlines_expand (pattern : Pattern) {s success success' : Expr}
    (hx : x ∉ pattern.boundNames)
    (hcapture : ∀ name ∈ pattern.boundNames, name ∉ definition.free) (hs : x ∉ s.free)
    (h : Inlines x definition success success') :
    Inlines x definition (expand pattern s success (.var x))
      (expand pattern s success' definition) := by
  have hfailure : Inlines x definition (.var x) definition := .var x definition
  cases pattern with
  | var name =>
    rw [expand, expand]
    have hname : name ∈ (Pattern.var name).boundNames := List.mem_singleton_self name
    exact inlines_bindName (ne_of_mem_of_not_mem hname hx) (hcapture name hname) hs h
  | wildcard =>
    rw [expand, expand]
    exact h
  | lit literal =>
    rw [expand, expand]
    exact (inlines_probe _ hs).cond h hfailure
  | con name args =>
    rw [expand, expand]
    refine (inlines_probe _ hs).cond (inlines_expandAll args hx hcapture (fun part hpart => ?_) h)
      hfailure
    exact fun hmem => hs (mem_free_probe.1 (mem_free_of_mem_parts hpart hmem))
  | tuple elements =>
    rw [expand, expand]
    split
    · next components hcomponents =>
      -- the components that the scrutinee shows are matched in its place
      obtain ⟨rfl, -⟩ := eq_tuple_of_components? hcomponents
      refine inlines_expandAll elements hx hcapture (fun component hcomponent hmem => hs ?_) h
      exact mem_free_tuple.2 ⟨component, hcomponent, hmem⟩
    · have hmatched : Inlines x definition
          (expandAll elements (parts elements.length s) success (.var x))
          (expandAll elements (parts elements.length s) success' definition) :=
        inlines_expandAll elements hx hcapture
          (fun part hpart hmem => hs (mem_free_of_mem_parts hpart hmem)) h
      dsimp only
      split
      · exact hmatched
      · exact (inlines_probe _ hs).cond hmatched hfailure

/-- The same for patterns matched one after the other: the failure is found in the success, too. -/
theorem inlines_expandAll (patterns : List Pattern) {ss : List Expr} {success success' : Expr}
    (hx : x ∉ Pattern.boundNamesList patterns)
    (hcapture : ∀ name ∈ Pattern.boundNamesList patterns, name ∉ definition.free)
    (hss : ∀ s ∈ ss, x ∉ s.free) (h : Inlines x definition success success') :
    Inlines x definition (expandAll patterns ss success (.var x))
      (expandAll patterns ss success' definition) := by
  match patterns, ss with
  | [], _ =>
    rw [expandAll_nil_left, expandAll_nil_left]
    exact h
  | _ :: _, [] =>
    rw [expandAll_nil_right, expandAll_nil_right]
    exact h
  | pattern :: patterns, s :: ss =>
    rw [Pattern.boundNamesList, List.mem_append, not_or] at hx
    rw [Pattern.boundNamesList, List.forall_mem_append] at hcapture
    rw [List.forall_mem_cons] at hss
    rw [expandAll, expandAll]
    exact inlines_expand pattern hx.1 hcapture.1 hss.1
      (inlines_expandAll patterns hx.2 hcapture.2 hss.2 h)

end

theorem not_mem_free_expand {name : String} (pattern : Pattern) {s success failure : Expr}
    (hname : name ∉ pattern.boundNames ++ s.free ++ success.free) (hfailure : name ∉ failure.free) :
    name ∉ (expand pattern s success failure).free := by
  simp only [List.mem_append, not_or] at hname
  intro h
  rcases mem_free_expand pattern h with h | ⟨h, -⟩ | h
  · exact hname.1.2 h
  · exact hname.2 h
  · exact hfailure h

/-- Whether the failure of a match is shared or copied, the match is read, up to conversion, as one
that falls back to a variable which stands for the failure. -/
theorem conv_elaborate_var (share : Bool) (pattern : Pattern) {s success : Expr} (failure : Expr)
    {supply : FreshSupply} (hdrawn : supply.draw.1 ∉ pattern.boundNames ++ s.free ++ success.free)
    {name : String} (hname : name ∉ pattern.boundNames ++ s.free ++ success.free)
    (env : Environment) :
    Nameless.Conv ((elaborate share pattern s success failure supply).1.read env)
      ((expand pattern s success (.var name)).read
        (Function.update env name (failure.read env))) := by
  rw [elaborate]
  dsimp only
  split
  -- the failure is bound to a fresh variable, which is renamed
  · generalize supply.draw = drawn at hdrawn
    obtain ⟨x, supply'⟩ := drawn
    simp only [List.mem_append, not_or] at hdrawn
    have hcapture : ∀ other ∈ pattern.boundNames, other ∉ (Expr.var name).free := by
      intro other hother hmem
      exact hname (List.mem_append_left _ (List.mem_append_left _ (mem_free_var.1 hmem ▸ hother)))
    have hrename : Inlines x (.var name) (expand pattern s success (.var x))
        (expand pattern s success (.var name)) :=
      inlines_expand pattern hdrawn.1.1 hcapture hdrawn.1.2 (.of_not_mem hdrawn.2)
    rw [read_app1]
    refine (conv_lam1 x _ env _).trans (.of_eq ?_)
    rw [← hrename, Expr.read, Function.update_self]
    refine read_congr fun other hother => ?_
    by_cases heq : other = x
    · rw [heq, Function.update_self, Function.update_self]
    · have hne : other ≠ name := by
        rintro rfl
        exact not_mem_free_expand pattern hname (fun hmem => heq (mem_free_var.1 hmem)) hother
      rw [Function.update_of_ne heq, Function.update_of_ne heq, Function.update_of_ne hne]
  · next hcopied =>
    refine .of_eq ?_
    by_cases hcopies : failureCopies pattern (some s) = 0
    -- there is no place for the failure
    · have hbot (fallback : Expr) :=
        expand_of_failureCopies_eq_zero pattern hcopies success fallback .bot
      rw [hbot failure, hbot (.var name)]
      exact (read_update_of_not_mem (not_mem_free_expand pattern hname List.not_mem_nil) _).symm
    -- the failure is copied, and so not captured
    · have hcapture : ∀ other ∈ pattern.boundNames, other ∉ failure.free := by
        intro other hother hmem
        refine hcopied ?_
        have hcaptured : (pattern.boundNames.any fun name => failure.free.contains name) = true :=
          List.any_eq_true.2 ⟨other, hother, List.contains_iff_mem.2 hmem⟩
        rw [hcaptured, Bool.true_or, Bool.and_true, decide_eq_true_eq]
        exact Nat.pos_of_ne_zero hcopies
      simp only [List.mem_append, not_or] at hname
      exact (inlines_expand pattern hname.1.1 hcapture hname.1.2 (.of_not_mem hname.2) env).symm

/-! ## Lambda terms -/

/-- A function of one variable applied to an argument has the lambda term of that form. -/
theorem compiled_app1_lam1 {name : String} {body arg : Expr} {body' arg' : Core}
    (hbody : Core.ofExpr body = .ok body') (harg : Core.ofExpr arg = .ok arg') :
    (app1 (lam1 name body) arg).compiled = .ok ⟨.app (.lam name body') arg',
      .app (.abs name (body'.toTermIn [name])) arg'.toTerm⟩ := by
  have hcore : Core.ofExpr (app1 (lam1 name body) arg) = .ok (.app (.lam name body') arg') := by
    rw [Expr.app1, Expr.lam1, Core.ofExpr, Core.ofExpr, hbody, Core.ofExprs, Core.ofExprs, harg]
    rfl
  rw [Expr.compiled, hcore]
  rfl

/-- The lambda term of a body with that of an argument for its variable is read as the expression
with the argument in the place of the variable. -/
theorem nameless_subst_toTermIn {name : String} {body arg e : Expr} {body' arg' : Core}
    (hbody : Core.ofExpr body = .ok body') (harg : Core.ofExpr arg = .ok arg')
    (h : Inlines name arg body e) :
    ((body'.toTermIn [name]).subst name arg'.toTerm).nameless = e.read Environment.compiling := by
  have hread : arg'.toTerm.nameless = arg.read Environment.compiling :=
    (Core.lowers_of_ofExpr harg).read_toTermIn .free
  rw [Term.nameless, Term.read_subst, (Core.lowers_of_ofExpr hbody).read_toTermIn,
    Core.read_ofName_cons, ← h]
  exact congrArg (fun u => body.read (Function.update Environment.compiling name u)) hread

/-- Sharing the failure of a match does not change what the match means. The lambda terms of the
expansion in which the failure may be shared and of the one in which it is copied are equal up to
the names of bound variables, or the first becomes so by one contraction at its root.

The pattern binds no variable of the failure, and the next fresh variable is used neither by the
pattern nor by the value and the success. -/
theorem elaborate_share_alpha (pattern : Pattern) (s success failure : Expr) (supply : FreshSupply)
    (hs : ∃ core, Core.ofExpr s = .ok core) (hsuccess : ∃ core, Core.ofExpr success = .ok core)
    (hfailure : ∃ core, Core.ofExpr failure = .ok core)
    (hcapture : ∀ name ∈ pattern.boundNames, name ∉ failure.free)
    (hfresh : supply.draw.1 ∉ pattern.boundNames ++ s.free ++ success.free) :
    ∃ shared copied,
      (elaborate true pattern s success failure supply).1.compiled = .ok shared
        ∧ (elaborate false pattern s success failure supply).1.compiled = .ok copied
        ∧ (Term.Alpha shared.term copied.term
          ∨ ∃ param body arg, shared.term = .app (.abs param body) arg
            ∧ Term.Alpha (body.subst param arg) copied.term) := by
  have hvar (name : String) : Grammar.core.lambda [.var name] := ⟨name, rfl⟩
  have hexpand (fallback : Expr) (hfallback : Grammar.core.Generates fallback) :
      Grammar.core.Generates (expand pattern s success fallback) :=
    generates_expand hvar pattern (Core.exists_ofExpr_eq_ok_iff.1 hs)
      (Core.exists_ofExpr_eq_ok_iff.1 hsuccess) hfallback
  obtain ⟨copied, hcopied, hterm⟩ :=
    exists_compiled_read (hexpand failure (Core.exists_ofExpr_eq_ok_iff.1 hfailure))
  -- nothing is captured, so without sharing the failure is copied
  have hany : (pattern.boundNames.any fun name => failure.free.contains name) = false := by
    simpa using hcapture
  have hfalse : (elaborate false pattern s success failure supply).1
      = expand pattern s success failure := by
    rw [elaborate]
    dsimp only
    rw [hany, if_neg (by simp)]
  rw [hfalse, elaborate]
  dsimp only
  split
  · generalize supply.draw = drawn at hfresh
    obtain ⟨x, supply'⟩ := drawn
    simp only [List.mem_append, not_or] at hfresh
    obtain ⟨⟨hpattern, hvalue⟩, hbody⟩ := hfresh
    obtain ⟨core, hcore⟩ :=
      Core.exists_ofExpr_eq_ok_iff.2 (hexpand (.var x) (Grammar.generates_var x))
    obtain ⟨failure', hfailure'⟩ := hfailure
    refine ⟨_, copied, compiled_app1_lam1 hcore hfailure', hcopied, .inr ⟨_, _, _, rfl, ?_⟩⟩
    refine Term.alpha_of_read_eq .free ((nameless_subst_toTermIn hcore hfailure' ?_).trans
      hterm.symm)
    exact inlines_expand pattern hpattern hcapture hvalue (.of_not_mem hbody)
  · exact ⟨copied, copied, hcopied, hcopied, .inl (.refl _)⟩

/-- Two tests fall back to a call that is bound to `x0`. -/
theorem elaborate_share_alpha_call :
    let pattern : Pattern := .con "Pair" [.lit (.int 0), .var "y"]
    let failure : Expr := app1 (.var "retry") (.var "v")
    ∃ shared copied,
      (elaborate true pattern (.var "v") (.var "y") failure .initial).1.compiled = .ok shared
        ∧ (elaborate false pattern (.var "v") (.var "y") failure .initial).1.compiled = .ok copied
        ∧ shared.term ≠ copied.term
        ∧ (Term.Alpha shared.term copied.term
          ∨ ∃ param body arg, shared.term = .app (.abs param body) arg
            ∧ Term.Alpha (body.subst param arg) copied.term) := by
  intro pattern failure
  obtain ⟨shared, copied, hshared, hcopied, h⟩ := elaborate_share_alpha pattern (.var "v")
    (.var "y") failure .initial ⟨_, rfl⟩ ⟨_, rfl⟩ ⟨_, rfl⟩ (by decide) (by decide)
  refine ⟨shared, copied, hshared, hcopied, ?_, h⟩
  cases hshared
  cases hcopied
  decide

end Matching

end Clausal
