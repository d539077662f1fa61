import Amaru.Uplc.Budget
import Amaru.Uplc.SmallStep

/-!
# The machine implements evaluation by substitution

A value of the machine stands for a term, in which the environment is put in for the variables
(`Value.toTerm`), a frame for a context, and so a state of the machine for a whole term
(`MachineState.toTerm`). **A move of the machine is a step of the evaluation of this term, or leaves it as it
is** (`Moves.evaluates`). A state that fails stands for a term whose evaluation is stuck, or comes to an error
(`Fails.stuck`).

Environments hold as many values as a term has free variables, and a builtin function that is a value awaits
forces or arguments (`Value.Good`).
-/

namespace Amaru.Uplc

open List MachineState Term Machine Nat

variable {Fun Atom : Type} {v : Value Fun Atom} {f : Fun}

/-! ### What values stand for -/

namespace Value

/-- The term that a value stands for. -/
def toTerm (v : Value Fun Atom) : Term Fun Atom := v.asTerm fun env t ↦ t.bind env 0

theorem allAsTerms_eq_map (close : List (Term Fun Atom) → Term Fun Atom → Term Fun Atom)
    (values : List (Value Fun Atom)) : allAsTerms close values = values.map (asTerm close) := by
  induction values with
  | nil => rfl
  | cons v values ih => rw [allAsTerms, ih, map_cons]

theorem toTerm_con (c : Constant Atom) : (con c : Value Fun Atom).toTerm = .constant c := by
  rw [toTerm, asTerm]

theorem toTerm_lambda (body : Term Fun Atom) (env : List (Value Fun Atom)) :
    (lambda body env).toTerm = .lambda (body.bind (env.map toTerm) 1) := by
  rw [toTerm, asTerm, allAsTerms_eq_map, Term.bind]
  rfl

theorem toTerm_delay (body : Term Fun Atom) (env : List (Value Fun Atom)) :
    (delay body env).toTerm = .delay (body.bind (env.map toTerm) 0) := by
  rw [toTerm, asTerm, allAsTerms_eq_map, Term.bind]
  rfl

theorem toTerm_builtin (f : Fun) (forces : ℕ) (args : List (Value Fun Atom)) :
    (builtin f forces args).toTerm = .ofSpine f forces (args.map toTerm).reverse := by
  rw [toTerm, asTerm, allAsTerms_eq_map]
  rfl

theorem spine?_toTerm_builtin (f : Fun) (forces : ℕ) (args : List (Value Fun Atom)) :
    (builtin f forces args).toTerm.spine? = some (f, forces, (args.map toTerm).reverse) := by
  rw [toTerm_builtin, spine?_ofSpine]

theorem toTerm_constr (tag : ℕ) (fields : List (Value Fun Atom)) :
    (constr tag fields).toTerm = .constr tag (fields.map toTerm) := by
  rw [toTerm, asTerm, allAsTerms_eq_map]
  rfl

/-- What a value is can be seen from the term that it stands for. -/
theorem eq_of_toTerm_eq {t} (h : v.toTerm = t) (hspine : t.spine? = none) :
    (∃ c, v = .con c ∧ t = .constant c) ∨
    (∃ body env, v = .lambda body env ∧ t = .lambda (body.bind (env.map toTerm) 1)) ∨
    (∃ body env, v = .delay body env ∧ t = .delay (body.bind (env.map toTerm) 0)) ∨
    ∃ tag fields, v = .constr tag fields ∧ t = .constr tag (fields.map toTerm) := by
  subst h
  cases v with
  | con c => exact .inl ⟨c, rfl, toTerm_con c⟩
  | lambda body env => exact .inr (.inl ⟨body, env, rfl, toTerm_lambda body env⟩)
  | delay body env => exact .inr (.inr (.inl ⟨body, env, rfl, toTerm_delay body env⟩))
  | constr tag fields => exact .inr (.inr (.inr ⟨tag, fields, rfl, toTerm_constr tag fields⟩))
  | builtin f forces args =>
    rw [spine?_toTerm_builtin] at hspine
    cases hspine

/-- Only builtins are read back as applied builtins. -/
theorem exists_of_spine?_toTerm {forces args} (h : v.toTerm.spine? = some (f, forces, args)) :
    ∃ values, v = .builtin f forces values ∧ args = (values.map toTerm).reverse := by
  cases v with
  | builtin f' forces' values =>
    rw [spine?_toTerm_builtin] at h
    cases h
    exact ⟨values, rfl, rfl⟩
  | con | lambda | delay | constr => cases h

/-- A builtin sees the same of a value and of its term. -/
theorem view_toTerm (v : Value Fun Atom) : v.toTerm.view = v.view := by
  cases v with
  | con c => rw [toTerm_con, Term.view, view]
  | lambda body env => rw [toTerm_lambda, Term.view, view]
  | delay body env => rw [toTerm_delay, Term.view, view]
  | constr tag fields => rw [toTerm_constr, Term.view, view]
  | builtin f forces args =>
    rw [toTerm_builtin, view_ofSpine, view]

/-- What holds of every value of the machine. -/
inductive Good (bs : Builtins Fun Atom) : Value Fun Atom → Prop
  | con (c : Constant Atom) : Good bs (.con c)
  | lambda {body env} (henv : ∀ v ∈ env, Good bs v) (hbody : body.ClosedAt (env.length + 1)) :
    Good bs (.lambda body env)
  | delay {body env} (henv : ∀ v ∈ env, Good bs v) (hbody : body.ClosedAt env.length) :
    Good bs (.delay body env)
  | builtin {f forces args} (hawaits : bs.Awaits f forces args)
    (hargs : ∀ v ∈ args, Good bs v) : Good bs (.builtin f forces args)
  | constr (tag : ℕ) {fields} (hfields : ∀ v ∈ fields, Good bs v) :
    Good bs (.constr tag fields)

variable {bs : Builtins Fun Atom}

/-- Good values are closed. -/
theorem Good.closedAt (h : v.Good bs) : v.toTerm.ClosedAt 0 := by
  have hall {values : List (Value Fun Atom)} (h : ∀ v ∈ values, v.toTerm.ClosedAt 0) :
      ∀ t ∈ values.map toTerm, t.ClosedAt 0 := forall_mem_map.2 h
  induction h with
  | con c =>
    trivial
  | lambda henv hbody ih =>
    rw [toTerm_lambda]
    refine closedAt_bind (hall ih) ?_
    rw [length_map, add_comm]
    exact hbody
  | delay henv hbody ih =>
    rw [toTerm_delay]
    refine closedAt_bind (hall ih) ?_
    rw [length_map, zero_add]
    exact hbody
  | builtin hawaits hargs ih =>
    rw [toTerm_builtin]
    exact closedAt_ofSpine fun t ht ↦ hall ih t (mem_reverse.1 ht)
  | constr tag hfields ih =>
    rw [toTerm_constr]
    exact allClosedAt_iff.2 (hall ih)

/-- Good values are values of the semantics. -/
theorem Good.isValue (h : v.Good bs) : IsValue bs v.toTerm := by
  induction h with
  | con c =>
    exact .constant c
  | lambda henv hbody ih =>
    exact .lambda _
  | delay henv hbody ih =>
    exact .delay _
  | builtin hawaits hargs ih =>
    refine .awaits (spine?_toTerm_builtin _ _ _) ?_ fun t ht ↦ ?_
    · exact hawaits.of_length_eq (by rw [length_reverse, length_map])
    · obtain ⟨arg, harg, rfl⟩ := mem_map.1 (mem_reverse.1 ht)
      exact ih arg harg
  | constr tag hfields ih =>
    rw [toTerm_constr]
    exact .constr tag (forall_mem_map.2 ih)

end Value

/-! ### What frames stand for -/

/-- The context that a frame stands for. -/
def Frame.context : Frame Fun Atom → Context Fun Atom
  | .awaitArg function => .applyArgument function.toTerm
  | .awaitFunTerm env argument => .applyFunction (argument.bind (env.map Value.toTerm) 0)
  | .awaitFunValue argument => .applyFunction argument.toTerm
  | .force => .force
  | .constr env tag terms values =>
    .constr tag (values.map Value.toTerm) (terms.map fun t ↦ t.bind (env.map Value.toTerm) 0)
  | .cases env branches => .case (branches.map fun t ↦ t.bind (env.map Value.toTerm) 0)

/-- Put a term into frames. -/
def plug (fs : List (Frame Fun Atom)) (t : Term Fun Atom) : Term Fun Atom :=
  fs.foldl (fun t frame ↦ frame.context.fill t) t

/-- The term that a state of the machine stands for. -/
def MachineState.toTerm : MachineState Fun Atom → Term Fun Atom
  | .compute fs env t => plug fs (t.bind (env.map Value.toTerm) 0)
  | .return fs v => plug fs v.toTerm
  | .done v => v.toTerm

/-- What holds of every frame. -/
def Frame.Good (bs : Builtins Fun Atom) : Frame Fun Atom → Prop
  | .awaitArg v | .awaitFunValue v => v.Good bs
  | .awaitFunTerm env argument => (∀ v ∈ env, v.Good bs) ∧ argument.ClosedAt env.length
  | .force => True
  | .constr env _ terms values => (∀ v ∈ env, v.Good bs) ∧
    (∀ t ∈ terms, t.ClosedAt env.length) ∧ ∀ v ∈ values, v.Good bs
  | .cases env branches => (∀ v ∈ env, v.Good bs) ∧ ∀ t ∈ branches, t.ClosedAt env.length

/-- What holds of every state of the machine. -/
def MachineState.Good (bs : Builtins Fun Atom) : MachineState Fun Atom → Prop
  | .compute fs env t => (∀ frame ∈ fs, frame.Good bs) ∧ (∀ v ∈ env, v.Good bs) ∧
    t.ClosedAt env.length
  | .return fs v => (∀ frame ∈ fs, frame.Good bs) ∧ v.Good bs
  | .done v => v.Good bs

section Frames

variable {bs : Builtins Fun Atom} {costs : CostModel Fun Atom} {frame : Frame Fun Atom}
  {fs : List (Frame Fun Atom)} {t t' : Term Fun Atom}

/-- Good frames are evaluation contexts. -/
theorem Frame.Good.valid (h : frame.Good bs) : frame.context.Valid bs := by
  cases frame with
  | awaitArg function => exact Value.Good.isValue h
  | constr env tag terms values => exact forall_mem_map.2 fun v hvalue ↦ (h.2.2 v hvalue).isValue
  | awaitFunTerm | awaitFunValue | force | cases => trivial

theorem plug_cons (frame : Frame Fun Atom) (fs : List (Frame Fun Atom)) (t : Term Fun Atom) :
    plug (frame :: fs) t = plug fs (frame.context.fill t) :=
  rfl

section

variable (hframes : ∀ frame ∈ fs, frame.Good bs)
include hframes

/-- A term steps under the frames. -/
theorem Step.plug (h : Step bs costs.caseOnConstants t t') :
    Step bs costs.caseOnConstants (Uplc.plug fs t) (Uplc.plug fs t') := by
  induction fs generalizing t t' with
  | nil => exact h
  | cons frame fs ih =>
    obtain ⟨hframe, hframes⟩ := forall_mem_cons.1 hframes
    exact ih hframes (.context frame.context hframe.valid rfl rfl h)

/-- A term is stuck under the frames. -/
theorem Stuck.plug (h : Stuck bs costs.caseOnConstants t) :
    Stuck bs costs.caseOnConstants (Uplc.plug fs t) := by
  induction fs generalizing t with
  | nil => exact h
  | cons frame fs ih =>
    obtain ⟨hframe, hframes⟩ := forall_mem_cons.1 hframes
    exact ih hframes (h.fill hframe.valid)

/-- An error goes through all frames. -/
theorem evaluates_plug_error : Evaluates bs costs.caseOnConstants (plug fs .error) .error := by
  induction fs with
  | nil => exact .refl
  | cons frame fs ih =>
    obtain ⟨hframe, hframes⟩ := forall_mem_cons.1 hframes
    refine .head ?_ (ih hframes)
    exact Step.plug hframes (.error frame.context hframe.valid rfl)

end

/-- The fields become frames that wait for a function. -/
theorem transferArgStack_eq (fs : List (Frame Fun Atom)) (fields : List (Value Fun Atom)) :
    transferArgStack fs fields = fields.map .awaitFunValue ++ fs := by
  rw [transferArgStack]
  induction fields with
  | nil => rfl
  | cons field fields ih => rw [reverse_cons, foldl_append, ih, map_cons]; rfl

/-- The branch is applied to the fields. -/
theorem plug_transferArgStack (fs : List (Frame Fun Atom)) (fields : List (Value Fun Atom))
    (t : Term Fun Atom) :
    plug (transferArgStack fs fields) t = plug fs ((fields.map Value.toTerm).foldl .apply t) := by
  rw [transferArgStack_eq, plug, foldl_append, foldl_map, foldl_map]
  rfl

/-- Fields that are good become good frames. -/
theorem good_transferArgStack {fields} (hframes : ∀ frame ∈ fs, frame.Good bs)
    (hfields : ∀ v ∈ fields, v.Good bs) :
    ∀ frame ∈ transferArgStack fs fields, frame.Good bs := by
  rw [transferArgStack_eq]
  exact forall_mem_append.2 ⟨forall_mem_map.2 hfields, hframes⟩

end Frames

/-! ### Moves -/

section Moves

variable {bs : Builtins Fun Atom} {costs : CostModel Fun Atom}
  {st st' : MachineState Fun Atom} {fs : List (Frame Fun Atom)}
  {env : List (Value Fun Atom)} {t : Term Fun Atom} {argument function : Value Fun Atom}
  {charge : Option Charge}

/-- A move leads on to a good state, and is a step of the evaluation or none. -/
structure Simulates (bs : Builtins Fun Atom) (costs : CostModel Fun Atom)
    (st st' : MachineState Fun Atom) : Prop where
  good : st'.Good bs
  evaluates : Evaluates bs costs.caseOnConstants st.toTerm st'.toTerm

theorem Simulates.of_eq (hgood : st'.Good bs) (h : st.toTerm = st'.toTerm) :
    Simulates bs costs st st' :=
  ⟨hgood, h ▸ .refl⟩

theorem Simulates.of_reduces {s s'} (hframes : ∀ frame ∈ fs, frame.Good bs)
    (hgood : st'.Good bs) (h : Reduces bs costs.caseOnConstants s s')
    (hstate : st.toTerm = plug fs s) (hstate' : st'.toTerm = plug fs s') :
    Simulates bs costs st st' := by
  refine ⟨hgood, ?_⟩
  rw [hstate, hstate']
  exact .single (Step.plug hframes (.reduce h))

/-- Computing a term leaves the term of the state as it is. -/
theorem simulates_of_computeNext (hgood : (compute fs env t).Good bs)
    (h : computeNext fs env t = .ok st) :
    Simulates bs costs (.compute fs env t) st := by
  obtain ⟨hframes, henv, hclosed⟩ := hgood
  cases t with
  | var index =>
    obtain ⟨hpos, hle⟩ := hclosed
    obtain ⟨j, rfl⟩ : ∃ j, index = j + 1 := ⟨index - 1, by omega⟩
    have hlookup : Env.lookup env (j + 1) = some env[j] := by
      rw [Env.lookup_succ, getElem?_eq_getElem]
    rw [computeNext, hlookup] at h
    cases h
    refine .of_eq ⟨hframes, henv _ (getElem_mem _)⟩ ?_
    rw [toTerm, toTerm, Term.bind, if_neg (by omega)]
    have hj : j + 1 - 0 - 1 = j := by omega
    rw [hj, getElem?_map, getElem?_eq_getElem]
    rfl
  | lambda body =>
    cases h
    refine .of_eq ⟨hframes, .lambda henv hclosed⟩ ?_
    rw [toTerm, toTerm, Value.toTerm_lambda, Term.bind]
  | apply function argument =>
    cases h
    refine .of_eq ⟨forall_mem_cons.2 ⟨⟨henv, hclosed.2⟩, hframes⟩, henv, hclosed.1⟩ ?_
    rfl
  | delay body =>
    cases h
    refine .of_eq ⟨hframes, .delay henv hclosed⟩ ?_
    rw [toTerm, toTerm, Value.toTerm_delay, Term.bind]
  | force body =>
    cases h
    refine .of_eq ⟨forall_mem_cons.2 ⟨trivial, hframes⟩, henv, hclosed⟩ ?_
    rfl
  | constr tag fields => cases fields with
    | nil =>
      cases h
      refine .of_eq ⟨hframes, .constr tag (forall_mem_nil _)⟩ ?_
      rfl
    | cons first terms =>
      cases h
      obtain ⟨hfirst, hterms⟩ := hclosed
      refine .of_eq ⟨forall_mem_cons.2 ⟨⟨henv, allClosedAt_iff.1 hterms, forall_mem_nil _⟩, hframes⟩,
        henv, hfirst⟩ ?_
      rw [toTerm, toTerm, plug_cons, Term.bind, Term.bindAll_eq_map]
      rfl
  | case scrutinee branches =>
    cases h
    refine .of_eq ⟨forall_mem_cons.2 ⟨⟨henv, allClosedAt_iff.1 hclosed.2⟩, hframes⟩, henv, hclosed.1⟩ ?_
    rw [toTerm, toTerm, plug_cons, Term.bind, Term.bindAll_eq_map]
    rfl
  | constant c =>
    cases h
    refine .of_eq ⟨hframes, .con c⟩ ?_
    rw [toTerm, toTerm, Value.toTerm_con, Term.bind]
  | builtin f =>
    cases h
    refine .of_eq ⟨hframes, .builtin ?_ (forall_mem_nil _)⟩ ?_
    · exact bs.awaits_nil (zero_le _)
    · rw [toTerm, toTerm, Value.toTerm_builtin, Term.bind]
      rfl
  | error => cases h

/-- A builtin function yields the same for values as for the terms that they stand for. -/
theorem eval_map_toTerm (f : Fun) (args : List (Value Fun Atom)) :
    bs.eval view .constant f (args.map Value.toTerm).reverse =
      (callValue bs f args).map Value.toTerm := by
  rw [callValue, Arguments.iter_eq_reverse, ← map_reverse]
  exact bs.eval_map Value.toTerm Value.view_toTerm Value.toTerm_con f args.reverse

/-- Builtins yield good values. -/
theorem good_of_callValue {args : List (Value Fun Atom)}
    (hargs : ∀ arg ∈ args, arg.Good bs) (h : callValue bs f args = some v) :
    v.Good bs := by
  rw [callValue, Arguments.iter_eq_reverse] at h
  exact Builtins.of_eval .con (fun arg harg ↦ hargs arg (mem_reverse.1 harg)) h

theorem toTerm_apply_builtin (f : Fun) (forces : ℕ) (args : List (Value Fun Atom))
    (argument : Value Fun Atom) :
    apply (Value.builtin f forces args).toTerm argument.toTerm =
      (Value.builtin f forces (argument :: args)).toTerm := by
  rw [Value.toTerm_builtin, Value.toTerm_builtin, map_cons, reverse_cons, ofSpine_append]

/-- Applying a value is a step of the semantics or none. -/
theorem simulates_of_applies (hframes : ∀ frame ∈ fs, frame.Good bs)
    (hfunction : function.Good bs) (hargument : argument.Good bs)
    (h : Machine.Applies bs costs fs function argument charge st')
    (hstate : st.toTerm = plug fs (.apply function.toTerm argument.toTerm)) :
    Simulates bs costs st st' := by
  cases h with
  | lambda heq =>
    subst heq
    cases hfunction with
    | lambda henv hbody =>
      refine .of_reduces hframes ⟨hframes, forall_mem_cons.2 ⟨hargument, henv⟩, hbody⟩
        (.beta _ hargument.isValue) (hstate.trans (by rw [Value.toTerm_lambda])) ?_
      rw [toTerm, subst_bind]
      · rfl
      · exact forall_mem_map.2 fun v hvalue ↦ (henv v hvalue).closedAt
      · rw [length_map, zero_add, add_comm]
        exact hbody
  | await heq hforces hargs =>
    subst heq
    cases hfunction with
    | builtin hawaits hgood =>
      refine .of_eq ⟨hframes, .builtin ?_ (forall_mem_cons.2 ⟨hargument, hgood⟩)⟩ ?_
      · rcases hawaits with ⟨hlt, -⟩ | ⟨heq, -⟩
        · exact absurd hlt (not_lt.2 hforces)
        · exact .inr ⟨heq, hargs⟩
      · rw [hstate, toTerm_apply_builtin]
        rfl
  | call heq hforces hargs hvalue =>
    subst heq
    cases hfunction with
    | builtin hawaits hgood =>
      obtain rfl : _ = bs.forceCount _ := by
        rcases hawaits with ⟨hlt, -⟩ | ⟨heq, -⟩
        · exact absurd hlt (not_lt.2 hforces)
        · exact heq
      have hgood' := forall_mem_cons.2 ⟨hargument, hgood⟩
      rw [toTerm_apply_builtin, Value.toTerm_builtin] at hstate
      refine .of_reduces hframes ⟨hframes, good_of_callValue hgood' hvalue⟩
        (.call (spine?_ofSpine _ _ _) ?_ (fun t ht ↦ ?_) ?_) hstate rfl
      · rw [length_reverse, length_map, length_cons]
        exact hargs
      · obtain ⟨arg, harg, rfl⟩ := mem_map.1 (mem_reverse.1 ht)
        exact (hgood' arg harg).isValue
      · rw [eval_map_toTerm, hvalue, Option.map_some]

/-- **A move of the machine is a step of the evaluation, or none.** -/
theorem Machine.Moves.simulates (hgood : st.Good bs)
    (h : Machine.Moves bs costs st charge st') : Simulates bs costs st st' := by
  cases h with
  | compute hnext => exact simulates_of_computeNext hgood hnext
  | finish v => exact .of_eq hgood.2 rfl
  | awaitFunTerm fs v env argument =>
    obtain ⟨hframe, hframes⟩ := forall_mem_cons.1 hgood.1
    exact .of_eq ⟨forall_mem_cons.2 ⟨hgood.2, hframes⟩, hframe⟩ rfl
  | awaitArg happlies =>
    obtain ⟨hframe, hframes⟩ := forall_mem_cons.1 hgood.1
    exact simulates_of_applies hframes hframe hgood.2 happlies rfl
  | awaitFunValue happlies =>
    obtain ⟨hframe, hframes⟩ := forall_mem_cons.1 hgood.1
    exact simulates_of_applies hframes hgood.2 hframe happlies rfl
  | forceDelay fs body env =>
    obtain ⟨-, hframes⟩ := forall_mem_cons.1 hgood.1
    cases hgood.2 with
    | delay henv hbody =>
      refine .of_reduces hframes ⟨hframes, henv, hbody⟩ (.forceDelay _) ?_ rfl
      rw [toTerm, plug_cons, Value.toTerm_delay]
      rfl
  | forceAwait hforces hargs =>
    obtain ⟨-, hframes⟩ := forall_mem_cons.1 hgood.1
    cases hgood.2 with
    | builtin hawaits hall =>
      rcases hawaits with ⟨-, rfl⟩ | ⟨heq, -⟩
      · exact .of_eq ⟨hframes, .builtin (bs.awaits_nil hforces) hall⟩ rfl
      · exact absurd heq hforces.ne
  | forceCall hforces hargs hvalue =>
    cases hgood.2 with
    | builtin hawaits hall => exact absurd hargs (hawaits.length_lt).ne
  | constrNext fs env tag first terms values v =>
    obtain ⟨⟨henv, hterms, hvalues⟩, hframes⟩ := forall_mem_cons.1 hgood.1
    obtain ⟨hfirst, hterms⟩ := forall_mem_cons.1 hterms
    refine .of_eq ⟨forall_mem_cons.2 ⟨⟨henv, hterms, ?_⟩, hframes⟩, henv, hfirst⟩ ?_
    · exact forall_mem_append.2 ⟨hvalues, forall_mem_singleton.2 hgood.2⟩
    · rw [toTerm, toTerm, plug_cons, plug_cons]
      congr 1
      simp [Frame.context, Context.fill]
  | constrLast fs env tag values v =>
    obtain ⟨⟨henv, hterms, hvalues⟩, hframes⟩ := forall_mem_cons.1 hgood.1
    refine .of_eq ⟨hframes, .constr tag (forall_mem_append.2 ⟨hvalues, forall_mem_singleton.2 hgood.2⟩)⟩ ?_
    rw [toTerm, toTerm, plug_cons, Value.toTerm_constr, map_append]
    rfl
  | @caseConstr fs env branches branch tag fields hbranch =>
    obtain ⟨⟨henv, hbranches⟩, hframes⟩ := forall_mem_cons.1 hgood.1
    cases hgood.2 with
    | constr _ hfields =>
      have hreduces : Reduces bs costs.caseOnConstants
          (.case (.constr tag (fields.map Value.toTerm))
            (branches.map fun t ↦ t.bind (env.map Value.toTerm) 0))
          ((fields.map Value.toTerm).foldl .apply (branch.bind (env.map Value.toTerm) 0)) :=
        .caseConstr (forall_mem_map.2 fun v hvalue ↦ (hfields v hvalue).isValue)
          (by rw [getElem?_map, hbranch, Option.map_some])
      refine .of_reduces hframes ⟨good_transferArgStack hframes hfields, henv,
        hbranches _ (mem_of_getElem? hbranch)⟩ hreduces ?_ (plug_transferArgStack _ _ _)
      rw [toTerm, plug_cons, Value.toTerm_constr]
      rfl
  | @caseConstant fs env branches branch c tag maxBranches fields havailable hconstructor hmax hbranch =>
    obtain ⟨⟨henv, hbranches⟩, hframes⟩ := forall_mem_cons.1 hgood.1
    have hreduces : Reduces bs costs.caseOnConstants
        (.case (.constant c) (branches.map fun t ↦ t.bind (env.map Value.toTerm) 0))
        ((fields.map .constant).foldl .apply (branch.bind (env.map Value.toTerm) 0)) :=
      .caseConstant havailable hconstructor (by rwa [length_map])
        (by rw [getElem?_map, hbranch, Option.map_some])
    refine .of_reduces hframes ⟨good_transferArgStack hframes (forall_mem_map.2 fun c _ ↦ .con c), henv,
      hbranches _ (mem_of_getElem? hbranch)⟩ hreduces ?_ ?_
    · rw [toTerm, plug_cons, Value.toTerm_con]
      rfl
    · rw [toTerm, plug_transferArgStack, map_map]
      have hfields : Value.toTerm ∘ (Value.con : Constant Atom → Value Fun Atom) = constant :=
        funext Value.toTerm_con
      rw [hfields]
  | done v => exact .of_eq hgood rfl

/-! ### Failures -/

/-- What the machine cannot apply is stuck. -/
theorem stuck_of_inapplicable (hfunction : function.Good bs) (hargument : argument.Good bs)
    (h : Machine.Inapplicable bs function argument) :
    Stuck bs costs.caseOnConstants (.apply function.toTerm argument.toTerm) := by
  -- a function that is applied once more
  have hbuiltin {f : Fun} {forces : ℕ} {args : List (Value Fun Atom)}
      (heq : function = .builtin f forces args) (hawaits : ¬bs.Awaits f forces (argument :: args))
      (heval : forces = bs.forceCount f → args.length + 1 = bs.arity f →
        callValue bs f (argument :: args) = none) :
      Stuck bs costs.caseOnConstants (.apply function.toTerm argument.toTerm) := by
    subst heq
    refine stuck_apply hfunction.isValue hargument.isValue (fun body hbody ↦ ?_) ?_
    · have hspine := Value.spine?_toTerm_builtin f forces args
      rw [hbody] at hspine
      cases hspine
    · rw [toTerm_apply_builtin, Value.spine?_toTerm_builtin]
      rintro _ _ _ ⟨rfl⟩
      refine ⟨fun h ↦ hawaits (h.of_length_eq ?_), fun hforces hlength ↦ ?_⟩
      · rw [length_reverse, length_map]
      · rw [length_reverse, length_map] at hlength
        rw [eval_map_toTerm, heval hforces hlength, Option.map_none]
  cases h with
  | other hlambda hbuiltin =>
    refine stuck_apply hfunction.isValue hargument.isValue (fun body hbody ↦ ?_) fun f forces args hspine ↦ ?_
    · obtain ⟨_, -, ⟨⟩⟩ | ⟨body, env, heq, -⟩ | ⟨_, _, -, ⟨⟩⟩ | ⟨_, _, -, ⟨⟩⟩ :=
        Value.eq_of_toTerm_eq hbody rfl
      exact absurd heq (hlambda body env)
    · obtain ⟨args', hinner, -⟩ := spine?_apply.1 hspine
      obtain ⟨values, heq, -⟩ := Value.exists_of_spine?_toTerm hinner
      exact absurd heq (hbuiltin f forces values)
  | unexpected heq hunexpected =>
    subst heq
    cases hfunction with
    | builtin hawaits hall =>
      have hforces : _ < bs.forceCount _ := hunexpected.resolve_right (not_le.2 hawaits.length_lt)
      refine hbuiltin rfl (fun h ↦ ?_) fun heq _ ↦ absurd heq hforces.ne
      rcases h with ⟨-, hnil⟩ | ⟨heq, -⟩
      · cases hnil
      · exact absurd heq hforces.ne
  | undefined heq hforces hargs hvalue =>
    exact hbuiltin heq (fun h ↦ absurd hargs h.length_lt.ne) fun _ _ ↦ hvalue

/-- **A state that fails stands for a term whose evaluation is stuck, or comes to an error.** -/
theorem Machine.Fails.stuck (hgood : st.Good bs) (h : Machine.Fails bs costs st) :
    ∃ u, Evaluates bs costs.caseOnConstants st.toTerm u ∧
      (u = .error ∨ Stuck bs costs.caseOnConstants u) := by
  -- a value that its frame has no use for
  have hplug {frame : Frame Fun Atom} {fs : List (Frame Fun Atom)} {v : Value Fun Atom}
      (hgood : (MachineState.return (frame :: fs) v).Good bs)
      (hstuck : Stuck bs costs.caseOnConstants (frame.context.fill v.toTerm)) :
      ∃ u, Evaluates bs costs.caseOnConstants (MachineState.return (frame :: fs) v).toTerm u ∧
        (u = .error ∨ Stuck bs costs.caseOnConstants u) :=
    ⟨plug fs (frame.context.fill v.toTerm), .refl, .inr (hstuck.plug (forall_mem_cons.1 hgood.1).2)⟩
  cases h with
  | error fs env => exact ⟨_, evaluates_plug_error hgood.1, .inl rfl⟩
  | @openTerm fs env index hlookup =>
    -- the environment has a value for every variable
    obtain ⟨-, -, hpos, hle⟩ := hgood
    obtain ⟨j, rfl⟩ : ∃ j, index = j + 1 := ⟨index - 1, by omega⟩
    rw [Env.lookup_succ, getElem?_eq_getElem hle] at hlookup
    cases hlookup
  | awaitArg happly =>
    exact hplug hgood (stuck_of_inapplicable (forall_mem_cons.1 hgood.1).1 hgood.2 happly)
  | awaitFunValue happly =>
    exact hplug hgood (stuck_of_inapplicable hgood.2 (forall_mem_cons.1 hgood.1).1 happly)
  | force hdelay hbuiltin =>
    refine hplug hgood (stuck_force hgood.2.isValue (fun body hbody ↦ ?_) fun f forces hspine ↦ ?_)
    · obtain ⟨_, -, ⟨⟩⟩ | ⟨_, _, -, ⟨⟩⟩ | ⟨body, env, heq, -⟩ | ⟨_, _, -, ⟨⟩⟩ :=
        Value.eq_of_toTerm_eq hbody rfl
      exact absurd heq (hdelay body env)
    · obtain ⟨values, heq, -⟩ := Value.exists_of_spine?_toTerm hspine
      exact absurd heq (hbuiltin f forces values)
  | @forceUnexpected _ f forces args hforces =>
    refine hplug hgood (stuck_force hgood.2.isValue (fun body hbody ↦ ?_) fun f' forces' hspine ↦ ?_)
    · have hspine := Value.spine?_toTerm_builtin f forces args
      rw [hbody] at hspine
      cases hspine
    · obtain ⟨values, heq, -⟩ := Value.exists_of_spine?_toTerm hspine
      cases heq
      exact hforces
  | forceUndefined hforces hargs hvalue =>
    cases hgood.2 with
    | builtin hawaits hall => exact absurd hargs hawaits.length_lt.ne
  | caseConstr hbranch =>
    refine hplug hgood (stuck_case hgood.2.isValue (fun tag' fields' heq ↦ ?_) fun c heq ↦ ?_)
    · rw [Value.toTerm_constr] at heq
      cases heq
      rw [getElem?_map, hbranch, Option.map_none]
    · rw [Value.toTerm_constr] at heq
      cases heq
  | caseConstant hcase =>
    refine hplug hgood (stuck_case hgood.2.isValue (fun tag fields heq ↦ ?_)
      fun c heq havailable tag maxBranches fields hconstructor hmax ↦ ?_)
    · rw [Value.toTerm_con] at heq
      cases heq
    · rw [Value.toTerm_con] at heq
      cases heq
      rw [length_map] at hmax
      rw [getElem?_map, hcase havailable tag maxBranches fields hconstructor hmax, Option.map_none]
  | case hconstr hcon =>
    refine hplug hgood (stuck_case hgood.2.isValue (fun tag fields heq ↦ ?_) fun c heq ↦ ?_)
    · obtain ⟨_, -, ⟨⟩⟩ | ⟨_, _, -, ⟨⟩⟩ | ⟨_, _, -, ⟨⟩⟩ | ⟨tag, fields, heq, -⟩ :=
        Value.eq_of_toTerm_eq heq rfl
      exact absurd heq (hconstr tag fields)
    · obtain ⟨c, heq, -⟩ | ⟨_, _, -, ⟨⟩⟩ | ⟨_, _, -, ⟨⟩⟩ | ⟨_, _, -, ⟨⟩⟩ := Value.eq_of_toTerm_eq heq rfl
      exact absurd heq (hcon c)

/-! ### Whole evaluations -/

/-- A run is simulated. -/
theorem Machine.Trace.simulates {n charges} (hgood : st.Good bs)
    (h : Machine.Trace bs costs n st charges st') : Simulates bs costs st st' := by
  induction h with
  | refl st => exact ⟨hgood, .refl⟩
  | step hmoves htrace ih =>
    obtain ⟨hgood, hevaluates⟩ := hmoves.simulates hgood
    obtain ⟨hgood, hevaluates'⟩ := ih hgood
    exact ⟨hgood, hevaluates.trans hevaluates'⟩

/-- **The machine implements untyped Plutus Core.** A closed term for which the machine yields a value is
evaluated to it, and if the machine fails, not for want of budget, then the evaluation comes to an error or
gets stuck. -/
theorem machine_implements_evaluation (bs : Builtins Fun Atom) (costs : CostModel Fun Atom)
    (budget : ExBudget) (fuel : ℕ) (hclosed : t.ClosedAt 0) :
    (∀ m v, (new bs costs).run fuel (.new budget) t = some (.ok (m, v)) →
      Evaluates bs costs.caseOnConstants t v.toTerm ∧ IsValue bs v.toTerm) ∧
    ∀ error, (new bs costs).run fuel (.new budget) t = some (.error error) →
      (∀ left, error ≠ .outOfEx left) →
      ∃ u, Evaluates bs costs.caseOnConstants t u ∧
        (u = .error ∨ Stuck bs costs.caseOnConstants u) := by
  have hgood : (compute [] [] t).Good bs := ⟨nofun, nofun, hclosed⟩
  have hterm : (compute [] [] t).toTerm = t := bind_of_closedAt hclosed []
  constructor
  · intro m v hrun
    rw [run] at hrun
    split at hrun
    · cases hrun
    · obtain ⟨charges, htrace, -⟩ := loop_eq_ok_iff.1 hrun
      obtain ⟨hvalue, hevaluates⟩ := htrace.simulates hgood
      rw [hterm] at hevaluates
      exact ⟨hevaluates, Value.Good.isValue hvalue⟩
  · intro error hrun hbudget
    rw [run] at hrun
    split at hrun
    · next hspend =>
      cases hrun
      obtain ⟨left, rfl⟩ := Meter.exists_outOfEx_of_spendBudget hspend
      exact absurd rfl (hbudget left)
    · obtain ⟨n, charges, last, m, htrace, -, hstep⟩ := exists_of_loop_eq_error hrun
      obtain ⟨hlast, hevaluates⟩ := htrace.simulates hgood
      rw [hterm] at hevaluates
      rcases fails_of_step hstep with ⟨charge, hpay⟩ | hfails
      · obtain ⟨left, rfl⟩ := Meter.exists_outOfEx hpay
        exact absurd rfl (hbudget left)
      · obtain ⟨u, hu, hstuck⟩ := hfails.stuck hlast
        exact ⟨u, hevaluates.trans hu, hstuck⟩

/-- **An evaluation that starts with a closed term comes to no unbound variable**, and its value is closed. -/
theorem closed_evaluation_stays_closed {n charges} (hclosed : t.ClosedAt 0)
    (h : Machine.Trace bs costs n (compute [] [] t) charges st) :
    (∀ fs env i, st = compute fs env (.var i) → ∃ v, Env.lookup env i = some v) ∧
      ∀ v, st = .done v → v.toTerm.ClosedAt 0 := by
  have hgood : (compute [] [] t).Good bs := ⟨nofun, nofun, hclosed⟩
  obtain ⟨hgood, -⟩ := h.simulates hgood
  constructor
  · rintro fs env i rfl
    obtain ⟨i, rfl⟩ := exists_eq_succ_of_ne_zero (one_le_iff_ne_zero.1 hgood.2.2.1)
    exact ⟨_, (Env.lookup_succ env i).trans (List.getElem?_eq_getElem hgood.2.2.2)⟩
  · rintro v rfl
    exact Value.Good.closedAt hgood

end Moves

/-- The identity is applied to a unit: its variable is bound, and the value is closed. -/
theorem closed_evaluation_stays_closed_identity : ∃ n charges,
    Machine.Trace noBuiltins (flatCosts ⟨0, 0⟩ ⟨0, 0⟩) n
      (compute [] [] (.apply (.lambda (.var 1)) (.constant .unit))) charges
      (compute [] [.con .unit] (.var 1)) ∧
    (∃ v : Value Empty Empty, Env.lookup [.con .unit] 1 = some v) ∧
    (Value.con .unit : Value Empty Empty).toTerm.ClosedAt 0 := by
  have hclosed : (.apply (.lambda (.var 1)) (.constant .unit) : Term Empty Empty).ClosedAt 0 :=
    ⟨⟨le_rfl, le_rfl⟩, trivial⟩
  have hend : ∀ {st charges n}, Machine.Trace noBuiltins (flatCosts ⟨0, 0⟩ ⟨0, 0⟩) n
      (compute [] [.con .unit] (.var 1)) charges st → ∃ n charges,
      Machine.Trace noBuiltins (flatCosts ⟨0, 0⟩ ⟨0, 0⟩) n
        (compute [] [] (.apply (.lambda (.var 1)) (.constant .unit))) charges st := fun h ↦
    ⟨_, _, .step (.compute rfl) (.step (.compute rfl) (.step (.awaitFunTerm ..) (.step (.compute rfl)
      (.step (.awaitArg (.lambda rfl)) h))))⟩
  obtain ⟨n, charges, hvar⟩ := hend (.refl _)
  obtain ⟨_, _, hdone⟩ := hend (.step (.compute rfl) (.step (.finish _) (.refl _)))
  exact ⟨n, charges, hvar, (closed_evaluation_stays_closed hclosed hvar).1 _ _ _ rfl,
    (closed_evaluation_stays_closed hclosed hdone).2 _ rfl⟩

/-- One builtin function, which adds integers. -/
def addition : Builtins Unit Empty where
  arity _ := 2
  forceCount _ := 0
  accepts _ _ := true
  denote _
    | [.con (.integer i), .con (.integer j)] => some (.con (.integer (i + j)))
    | _ => none
  arity_pos _ := by decide

/-- Every step and every addition has the same price. -/
def additionCosts : CostModel Unit Empty :=
  { flatCosts ⟨1, 1⟩ ⟨1, 1⟩ with builtinCosts := fun _ _ ↦ ⟨1, 1⟩, caseOnConstants := .noData }

/-- A branch for a constructor of one field, which adds the field to itself. -/
def doubled (i : ℤ) : Term Unit Empty :=
  .case (.constr 0 [.constant (.integer i)]) [.lambda (.apply (.apply (.builtin ()) (.var 1)) (.var 1))]

/-- Three is doubled, and there is no branch for a boolean that is true. -/
theorem machine_implements_evaluation_doubled :
    Evaluates addition .noData (doubled 3) (.constant (.integer 6)) ∧
    ∃ u, Evaluates addition .noData (.case (.constant (.boolean true)) [doubled 3]) u ∧
      (u = .error ∨ Stuck addition .noData u) := by
  have hclosed : (doubled 3).ClosedAt 0 := by simp [doubled, ClosedAt, AllClosedAt]
  have hyields := (machine_implements_evaluation addition additionCosts ⟨1000, 1000⟩ 18 hclosed).1
  have hfails := (machine_implements_evaluation addition additionCosts ⟨1000, 1000⟩ 18
    (t := .case (.constant (.boolean true)) [doubled 3]) ⟨trivial, hclosed, trivial⟩).2
  obtain ⟨m, hrun⟩ : ∃ m, (new addition additionCosts).run 18 (.new ⟨1000, 1000⟩) (doubled 3) =
    some (.ok (m, .con (.integer 6))) := ⟨_, rfl⟩
  exact ⟨(hyields m _ hrun).1,
    hfails (.missingCaseBranch [doubled 3] (.con (.boolean true))) rfl fun _ h ↦ by cases h⟩

end Amaru.Uplc
