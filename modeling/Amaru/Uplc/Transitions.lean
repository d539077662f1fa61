import Amaru.Data.Except
import Amaru.Uplc.Machine

/-!
# Every step of the machine

What the machine does next depends on its state alone, and not on how it is charged. `Moves` lists every way
in which a step leads on, with the **one charge** that it makes, and `Fails` every way in which it does not.
A step is such a move whose charge is paid (`step_eq_ok_iff`); if there is no step then the charge is not
paid, or the state fails (`fails_of_step`).

`Trace` is a whole evaluation, with all its charges (`loop_eq_ok_iff`).
-/

namespace Amaru.Uplc

open Builtins Except Bool List Uplc.Value

/-- A charge. -/
inductive Charge
  | count (kind : StepKind)
  | spend (budget : ExBudget)
  | settle

/-- Pay a charge. -/
def Metering.pay {σ ε : Type} (metering : Metering σ ε) (m : σ) : Charge → Except ε σ
  | .count kind => metering.count m kind
  | .spend budget => metering.spend m budget
  | .settle => metering.settle m

/-- Pay a charge, if there is one. -/
def Metering.pay? {σ ε : Type} (metering : Metering σ ε) (m : σ) : Option Charge → Except ε σ
  | none => .ok m
  | some charge => metering.pay m charge

namespace Machine

variable {Fun Atom σ : Type} {mc : Machine Fun Atom σ} {m m' : σ}
  {st st' : MachineState Fun Atom} {fs : List (Frame Fun Atom)}
  {env : List (Value Fun Atom)} {error : MachineError Fun Atom} {charges : List Charge}

/-- The price of a call of a builtin function. -/
def callPrice (costs : CostModel Fun Atom) (f : Fun) (args : Arguments (Value Fun Atom)) : ExBudget :=
  costs.builtinCosts f (args.iter.map view)

/-- What a builtin function yields for values. -/
def callValue (bs : Builtins Fun Atom) (f : Fun) (args : Arguments (Value Fun Atom)) :
    Option (Value Fun Atom) :=
  bs.eval view .con f args.iter

/-- Every way in which a value is applied to another. -/
inductive Applies (bs : Builtins Fun Atom) (costs : CostModel Fun Atom) (fs : List (Frame Fun Atom))
    (function argument : Value Fun Atom) : Option Charge → MachineState Fun Atom → Prop
  | lambda {body env} (hfunction : function = .lambda body env) :
    Applies bs costs fs function argument none (.compute fs (argument :: env) body)
  /-- The function awaits more. -/
  | await {f forces args} (hfunction : function = .builtin f forces args)
    (hforces : bs.forceCount f ≤ forces) (hargs : args.length + 1 < bs.arity f) :
    Applies bs costs fs function argument none
      (.return fs (.builtin f forces (argument :: args)))
  /-- The function has all its arguments. -/
  | call {f forces args v} (hfunction : function = .builtin f forces args)
    (hforces : bs.forceCount f ≤ forces) (hargs : args.length + 1 = bs.arity f)
    (hvalue : callValue bs f (argument :: args) = some v) :
    Applies bs costs fs function argument (some (.spend (callPrice costs f (argument :: args))))
      (.return fs v)

/-- Every way in which a step leads on. -/
inductive Moves (bs : Builtins Fun Atom) (costs : CostModel Fun Atom) :
    MachineState Fun Atom → Option Charge → MachineState Fun Atom → Prop
  | compute {fs env term st} (hnext : computeNext fs env term = .ok st) :
    Moves bs costs (.compute fs env term) ((stepKind? term).map .count) st
  | finish (v : Value Fun Atom) : Moves bs costs (.return [] v) (some .settle) (.done v)
  | awaitFunTerm (fs : List (Frame Fun Atom)) (v : Value Fun Atom) (env : List (Value Fun Atom))
    (argument : Term Fun Atom) :
    Moves bs costs (.return (.awaitFunTerm env argument :: fs) v) none
      (.compute (.awaitArg v :: fs) env argument)
  | awaitArg {fs function v charge st}
    (happlies : Applies bs costs fs function v charge st) :
    Moves bs costs (.return (.awaitArg function :: fs) v) charge st
  | awaitFunValue {fs argument v charge st}
    (happlies : Applies bs costs fs v argument charge st) :
    Moves bs costs (.return (.awaitFunValue argument :: fs) v) charge st
  | forceDelay (fs : List (Frame Fun Atom)) (body : Term Fun Atom) (env : List (Value Fun Atom)) :
    Moves bs costs (.return (.force :: fs) (.delay body env)) none (.compute fs env body)
  | forceAwait {fs f forces args} (hforces : forces < bs.forceCount f)
    (hargs : args.length ≠ bs.arity f) :
    Moves bs costs (.return (.force :: fs) (.builtin f forces args)) none
      (.return fs (.builtin f (forces + 1) args))
  | forceCall {fs f forces} {args : List (Value Fun Atom)} {v}
    (hforces : forces < bs.forceCount f)
    (hargs : args.length = bs.arity f) (hvalue : callValue bs f args = some v) :
    Moves bs costs (.return (.force :: fs) (.builtin f forces args))
      (some (.spend (callPrice costs f args))) (.return fs v)
  | constrNext (fs : List (Frame Fun Atom)) (env : List (Value Fun Atom)) (tag : ℕ)
    (first : Term Fun Atom) (terms : List (Term Fun Atom)) (values : List (Value Fun Atom))
    (v : Value Fun Atom) :
    Moves bs costs (.return (.constr env tag (first :: terms) values :: fs) v) none
      (.compute (.constr env tag terms (values ++ [v]) :: fs) env first)
  | constrLast (fs : List (Frame Fun Atom)) (env : List (Value Fun Atom)) (tag : ℕ)
    (values : List (Value Fun Atom)) (v : Value Fun Atom) :
    Moves bs costs (.return (.constr env tag [] values :: fs) v) none
      (.return fs (.constr tag (values ++ [v])))
  | caseConstr {fs env branches branch tag fields} (hbranch : branches[tag]? = some branch) :
    Moves bs costs (.return (.cases env branches :: fs) (.constr tag fields)) none
      (.compute (transferArgStack fs fields) env branch)
  | caseConstant {fs env branches branch constant tag maxBranches fields}
    (havailable : costs.caseOnConstants = .noData)
    (hconstructor : constant.constructor? = some (tag, maxBranches, fields))
    (hmax : branches.length ≤ maxBranches) (hbranch : branches[tag]? = some branch) :
    Moves bs costs (.return (.cases env branches :: fs) (.con constant)) none
      (.compute (transferArgStack fs (fields.map .con)) env branch)
  | done (v : Value Fun Atom) : Moves bs costs (.done v) none (.done v)

/-! ### A step is a move that is paid -/

variable {v : Value Fun Atom} {args : Arguments (Value Fun Atom)} {branches : List (Term Fun Atom)}

/-- A call yields a value if it has one and is paid for. -/
theorem call_eq_ok_iff {f : Fun} :
    mc.call m f args = .ok (m', v) ↔ callValue mc.builtins f args = some v ∧
      mc.metering.spend m (callPrice mc.costs f args) = .ok m' := by
  rcases haccepts : mc.builtins.accepts f (args.iter.map view) with - | -
  · simp [call, callValue, eval, haccepts]
  simp only [call, callValue, callPrice, eval, haccepts, Bool.not_true, Bool.false_eq_true, if_false, if_true]
  generalize (mc.builtins.denote f _).bind _ = outcome
  cases outcome <;> simp [bind_eq_ok_iff, And.comm]

/-- A call fails on payment or has no value. -/
theorem callValue_of_error {f : Fun} (h : mc.call m f args = .error error) :
    (∃ charge, mc.metering.pay m charge = .error error) ∨
      callValue mc.builtins f args = none := by
  rcases haccepts : mc.builtins.accepts f (args.iter.map view) with - | -
  · exact .inr (by simp [callValue, eval, haccepts])
  simp only [call, haccepts, Bool.not_true, Bool.false_eq_true, if_false] at h
  rcases bind_eq_error_iff.1 h with hspend | ⟨next, -, h⟩
  · exact .inl ⟨.spend _, hspend⟩
  split at h
  · next hvalue =>
    refine .inr ?_
    rw [callValue, eval, haccepts, if_pos rfl, hvalue]
  · cases h

/-- Applying makes the moves of `Applies` that are paid for. -/
theorem applyEvaluate_eq_ok_iff {function argument} :
    mc.applyEvaluate m fs function argument = .ok (m', st') ↔
      ∃ charge, Applies mc.builtins mc.costs fs function argument charge st' ∧
        mc.metering.pay? m charge = .ok m' := by
  constructor
  · intro h
    cases function with
    | lambda body env =>
      cases h
      exact ⟨none, .lambda rfl, rfl⟩
    | builtin f forces args =>
      simp only [applyEvaluate, needsForce, isArrow, isReady, and_eq_true,
        not_eq_true', decide_eq_false_iff_not, decide_eq_true_eq, not_lt, length_cons] at h
      split_ifs at h with harrow hready
      · obtain ⟨⟨next, v⟩, hcall, h⟩ := bind_eq_ok_iff.1 h
        cases h
        obtain ⟨hvalue, hspend⟩ := call_eq_ok_iff.1 hcall
        exact ⟨_, .call rfl harrow.1 hready hvalue, hspend⟩
      · cases h
        exact ⟨none, .await rfl harrow.1 (by omega), rfl⟩
    | con | delay | constr => cases h
  · rintro ⟨charge, happlies, hpay⟩
    cases happlies with
    | lambda hfunction =>
      subst hfunction
      cases hpay
      rfl
    | await hfunction hforces hargs =>
      subst hfunction
      cases hpay
      simp only [applyEvaluate, needsForce, isArrow, isReady, and_eq_true,
        not_eq_true', decide_eq_false_iff_not, decide_eq_true_eq, not_lt, length_cons]
      rw [if_pos ⟨hforces, by omega⟩, if_neg (by omega)]
    | call hfunction hforces hargs hvalue =>
      subst hfunction
      simp only [applyEvaluate, needsForce, isArrow, isReady, and_eq_true,
        not_eq_true', decide_eq_false_iff_not, decide_eq_true_eq, not_lt, length_cons]
      rw [if_pos ⟨hforces, by omega⟩, if_pos hargs]
      exact bind_eq_ok_iff.2 ⟨_, call_eq_ok_iff.2 ⟨hvalue, hpay⟩, rfl⟩

/-- Forcing makes the moves that are paid for. -/
theorem forceEvaluate_eq_ok_iff :
    mc.forceEvaluate m fs v = .ok (m', st') ↔
      ∃ charge, Moves mc.builtins mc.costs (.return (.force :: fs) v) charge st' ∧
        mc.metering.pay? m charge = .ok m' := by
  constructor
  · intro h
    cases v with
    | delay body env =>
      cases h
      exact ⟨none, .forceDelay fs body env, rfl⟩
    | builtin f forces args =>
      simp only [forceEvaluate, needsForce, isReady, decide_eq_true_eq] at h
      split_ifs at h with hforces hready
      · obtain ⟨⟨next, v⟩, hcall, h⟩ := bind_eq_ok_iff.1 h
        cases h
        obtain ⟨hvalue, hspend⟩ := call_eq_ok_iff.1 hcall
        exact ⟨_, .forceCall hforces hready hvalue, hspend⟩
      · cases h
        exact ⟨none, .forceAwait hforces hready, rfl⟩
    | con | lambda | constr => cases h
  · rintro ⟨charge, hmoves, hpay⟩
    cases hmoves with
    | forceDelay body env =>
      cases hpay
      rfl
    | forceAwait hforces hargs =>
      cases hpay
      simp only [forceEvaluate, needsForce, isReady, decide_eq_true_eq]
      rw [if_pos hforces, if_neg hargs]
    | forceCall hforces hargs hvalue =>
      simp only [forceEvaluate, needsForce, isReady, decide_eq_true_eq]
      rw [if_pos hforces, if_pos hargs]
      exact bind_eq_ok_iff.2 ⟨_, call_eq_ok_iff.2 ⟨hvalue, hpay⟩, rfl⟩

theorem toOption_constantAsTagFields (constant : Constant Atom) :
    (constantAsTagFields constant : Except (MachineError Fun Atom) _).toOption =
      constant.constructor?.map fun (tag, maxBranches, fields) ↦ (tag, maxBranches, fields.map .con) := by
  rcases constant with i | _ | _ | ⟨_, _ | _⟩ | _ | _
  case integer =>
    rw [constantAsTagFields, Constant.constructor?]
    split_ifs <;> rfl
  case boolean b => cases b <;> rfl
  all_goals rfl

theorem constantAsTagFields_eq_ok_iff {constant : Constant Atom} {tag maxBranches : ℕ}
    {fields : List (Value Fun Atom)} :
    constantAsTagFields constant = .ok (tag, maxBranches, fields) ↔
      ∃ constants, constant.constructor? = some (tag, maxBranches, constants) ∧
        fields = constants.map .con := by
  rw [← toOption_eq_some_iff, toOption_constantAsTagFields, Option.map_eq_some_iff]
  constructor
  · rintro ⟨⟨tag, maxBranches, constants⟩, hconstructor, heq⟩
    cases heq
    exact ⟨constants, hconstructor, rfl⟩
  · rintro ⟨constants, hconstructor, rfl⟩
    exact ⟨_, hconstructor, rfl⟩

/-- Taking a branch makes the moves that are paid for. -/
theorem caseEvaluate_eq_ok_iff :
    mc.caseEvaluate m fs env branches v = .ok (m', st') ↔
      ∃ charge, Moves mc.builtins mc.costs (.return (.cases env branches :: fs) v) charge
        st' ∧ mc.metering.pay? m charge = .ok m' := by
  constructor
  · intro h
    cases v with
    | constr tag fields =>
      rw [caseEvaluate] at h
      split at h
      · next hbranch =>
        cases h
        exact ⟨none, .caseConstr hbranch, rfl⟩
      · cases h
    | con constant =>
      rw [caseEvaluate] at h
      split_ifs at h with havailable
      obtain ⟨⟨tag, maxBranches, fields⟩, hfields, h⟩ := bind_eq_ok_iff.1 h
      obtain ⟨constants, hconstructor, rfl⟩ := constantAsTagFields_eq_ok_iff.1 hfields
      dsimp only at h
      split_ifs at h with hmax
      split at h
      · next hbranch =>
        cases h
        exact ⟨none, .caseConstant havailable hconstructor (not_lt.1 hmax) hbranch, rfl⟩
      · cases h
    | lambda | builtin | delay => cases h
  · rintro ⟨charge, hmoves, hpay⟩
    cases hmoves with
    | caseConstr hbranch =>
      cases hpay
      rw [caseEvaluate, hbranch]
    | caseConstant havailable hconstructor hmax hbranch =>
      cases hpay
      rw [caseEvaluate, if_pos havailable]
      refine bind_eq_ok_iff.2 ⟨_, constantAsTagFields_eq_ok_iff.2 ⟨_, hconstructor, rfl⟩, ?_⟩
      dsimp only
      rw [if_neg (not_lt.2 hmax), hbranch]

variable {term : Term Fun Atom} {bs : Builtins Fun Atom} {costs : CostModel Fun Atom} {fuel : ℕ}

theorem compute_eq :
    mc.compute m fs env term =
      mc.metering.pay? m ((stepKind? term).map .count) >>= fun m ↦
        computeNext fs env term >>= fun st ↦ .ok (m, st) := by
  rw [compute]
  cases stepKind? term <;> rfl

/-- Computing a term is paid for first. -/
theorem compute_eq_ok_iff :
    mc.compute m fs env term = .ok (m', st') ↔
      computeNext fs env term = .ok st' ∧
        mc.metering.pay? m ((stepKind? term).map .count) = .ok m' := by
  simp only [compute_eq, bind_eq_ok_iff, ok.injEq, Prod.mk.injEq, exists_eq_right_right]
  exact And.comm

/-- Returning a value makes the moves that are paid for. -/
theorem returnCompute_eq_ok_iff :
    mc.returnCompute m fs v = .ok (m', st') ↔
      ∃ charge, Moves mc.builtins mc.costs (.return fs v) charge st' ∧
        mc.metering.pay? m charge = .ok m' := by
  rcases fs with - | ⟨frame, fs⟩
  · rw [returnCompute, bind_eq_ok_iff]
    constructor
    · rintro ⟨next, hsettle, h⟩
      cases h
      exact ⟨_, .finish v, hsettle⟩
    · rintro ⟨charge, hmoves, hpay⟩
      cases hmoves
      exact ⟨m', hpay, rfl⟩
  · cases frame with
    | awaitFunTerm argEnv argument =>
      constructor
      · intro h
        cases h
        exact ⟨none, .awaitFunTerm fs v argEnv argument, rfl⟩
      · rintro ⟨charge, hmoves, hpay⟩
        cases hmoves
        cases hpay
        rfl
    | awaitArg function =>
      rw [returnCompute, applyEvaluate_eq_ok_iff]
      exact exists_congr fun charge ↦ and_congr_left' ⟨.awaitArg, fun | .awaitArg happlies => happlies⟩
    | awaitFunValue argument =>
      rw [returnCompute, applyEvaluate_eq_ok_iff]
      exact exists_congr fun charge ↦
        and_congr_left' ⟨.awaitFunValue, fun | .awaitFunValue happlies => happlies⟩
    | force => exact forceEvaluate_eq_ok_iff
    | constr env tag terms values => cases terms with
      | nil =>
        constructor
        · intro h
          cases h
          exact ⟨none, .constrLast fs env tag values v, rfl⟩
        · rintro ⟨charge, hmoves, hpay⟩
          cases hmoves
          cases hpay
          rfl
      | cons first terms =>
        constructor
        · intro h
          cases h
          exact ⟨none, .constrNext fs env tag first terms values v, rfl⟩
        · rintro ⟨charge, hmoves, hpay⟩
          cases hmoves
          cases hpay
          rfl
    | cases env branches => exact caseEvaluate_eq_ok_iff

/-- **A step is a move whose charge is paid.** -/
theorem step_eq_ok_iff :
    mc.step m st = .ok (m', st') ↔
      ∃ charge, Moves mc.builtins mc.costs st charge st' ∧
        mc.metering.pay? m charge = .ok m' := by
  cases st with
  | compute fs env term =>
    rw [step, compute_eq_ok_iff]
    constructor
    · rintro ⟨hnext, hpay⟩
      exact ⟨_, .compute hnext, hpay⟩
    · rintro ⟨charge, hmoves, hpay⟩
      cases hmoves with
      | compute hnext => exact ⟨hnext, hpay⟩
  | «return» fs v => exact returnCompute_eq_ok_iff
  | done v =>
    constructor
    · intro h
      cases h
      exact ⟨none, .done v, rfl⟩
    · rintro ⟨charge, hmoves, hpay⟩
      cases hmoves
      cases hpay
      rfl

/-! ### If there is no step -/

/-- Every way in which a value cannot be applied to another. -/
inductive Inapplicable (bs : Builtins Fun Atom) (function argument : Value Fun Atom) : Prop
  | other (hlambda : ∀ body env, function ≠ .lambda body env)
    (hbuiltin : ∀ f forces args, function ≠ .builtin f forces args)
  /-- The function is to be forced first, or takes no argument. -/
  | unexpected {f forces args} (hfunction : function = .builtin f forces args)
    (hawaits : forces < bs.forceCount f ∨ bs.arity f ≤ args.length)
  /-- The function is undefined for its arguments. -/
  | undefined {f forces args} (hfunction : function = .builtin f forces args)
    (hforces : bs.forceCount f ≤ forces) (hargs : args.length + 1 = bs.arity f)
    (hvalue : callValue bs f (argument :: args) = none)

/-- Every way in which a state does not lead on. -/
inductive Fails (bs : Builtins Fun Atom) (costs : CostModel Fun Atom) : MachineState Fun Atom → Prop
  | error (fs : List (Frame Fun Atom)) (env : List (Value Fun Atom)) :
    Fails bs costs (.compute fs env .error)
  | openTerm {fs env index} (hlookup : Env.lookup env index = none) :
    Fails bs costs (.compute fs env (.var index))
  | awaitArg {fs function v} (happly : Inapplicable bs function v) :
    Fails bs costs (.return (.awaitArg function :: fs) v)
  | awaitFunValue {fs argument v} (happly : Inapplicable bs v argument) :
    Fails bs costs (.return (.awaitFunValue argument :: fs) v)
  | force {fs : List (Frame Fun Atom)} {v} (hdelay : ∀ body env, v ≠ .delay body env)
    (hbuiltin : ∀ f forces args, v ≠ .builtin f forces args) :
    Fails bs costs (.return (.force :: fs) v)
  | forceUnexpected {fs f forces args} (hforces : bs.forceCount f ≤ forces) :
    Fails bs costs (.return (.force :: fs) (.builtin f forces args))
  | forceUndefined {fs f forces} {args : List (Value Fun Atom)} (hforces : forces < bs.forceCount f)
    (hargs : args.length = bs.arity f) (hvalue : callValue bs f args = none) :
    Fails bs costs (.return (.force :: fs) (.builtin f forces args))
  | caseConstr {fs env branches tag fields} (hbranch : branches[tag]? = none) :
    Fails bs costs (.return (.cases env branches :: fs) (.constr tag fields))
  | caseConstant {fs env branches constant}
    (hcase : costs.caseOnConstants = .noData → ∀ tag maxBranches fields,
      constant.constructor? = some (tag, maxBranches, fields) → branches.length ≤ maxBranches →
      branches[tag]? = none) :
    Fails bs costs (.return (.cases env branches :: fs) (.con constant))
  | case {fs : List (Frame Fun Atom)} {env branches v}
    (hconstr : ∀ tag fields, v ≠ .constr tag fields) (hcon : ∀ c, v ≠ .con c) :
    Fails bs costs (.return (.cases env branches :: fs) v)

/-- Applying fails on payment or for want of a function. -/
theorem inapplicable_of_applyEvaluate {function argument}
    (h : mc.applyEvaluate m fs function argument = .error error) :
    (∃ charge, mc.metering.pay m charge = .error error) ∨
      Inapplicable mc.builtins function argument := by
  cases function with
  | lambda body env => cases h
  | builtin f forces args =>
    simp only [applyEvaluate, needsForce, isArrow, isReady, and_eq_true,
      not_eq_true', decide_eq_false_iff_not, decide_eq_true_eq, not_lt, length_cons] at h
    split_ifs at h with harrow hready
    · rcases bind_eq_error_iff.1 h with hcall | ⟨_, -, h⟩
      · exact (callValue_of_error hcall).imp_right (.undefined rfl harrow.1 hready)
      · cases h
    · exact .inr (.unexpected rfl (by omega))
  | con | delay | constr => exact .inr (.other (by simp) (by simp))

/-- Forcing fails on payment or for want of a move. -/
theorem fails_of_forceEvaluate (h : mc.forceEvaluate m fs v = .error error) :
    (∃ charge, mc.metering.pay m charge = .error error) ∨
      Fails mc.builtins mc.costs (.return (.force :: fs) v) := by
  cases v with
  | delay body env => cases h
  | builtin f forces args =>
    simp only [forceEvaluate, needsForce, isReady, decide_eq_true_eq] at h
    split_ifs at h with hforces hready
    · rcases bind_eq_error_iff.1 h with hcall | ⟨_, -, h⟩
      · exact (callValue_of_error hcall).imp_right (.forceUndefined hforces hready)
      · cases h
    · exact .inr (.forceUnexpected (not_lt.1 hforces))
  | con | lambda | constr => exact .inr (.force (by simp) (by simp))

/-- Taking a branch fails for want of a move. -/
theorem fails_of_caseEvaluate (h : mc.caseEvaluate m fs env branches v = .error error) :
    Fails mc.builtins mc.costs (.return (.cases env branches :: fs) v) := by
  cases v with
  | constr tag fields =>
    rcases hbranch : branches[tag]? with - | branch
    · exact .caseConstr hbranch
    · rw [caseEvaluate, hbranch] at h
      cases h
  | con constant =>
    refine .caseConstant fun havailable tag maxBranches fields hconstructor hmax ↦ ?_
    -- otherwise there would be a move, and it costs nothing
    by_contra hbranch
    obtain ⟨branch, hbranch⟩ := Option.ne_none_iff_exists'.1 hbranch
    have hok : mc.caseEvaluate m fs env branches (.con constant) = .ok (m, _) :=
      caseEvaluate_eq_ok_iff.2 ⟨none, .caseConstant havailable hconstructor hmax hbranch, rfl⟩
    rw [hok] at h
    cases h
  | lambda | builtin | delay => exact .case (by simp) (by simp)

/-- Computing a term fails for want of a move. -/
theorem fails_of_computeNext (h : computeNext fs env term = .error error) :
    Fails bs costs (.compute fs env term) := by
  cases term with
  | var index =>
    rcases hlookup : Env.lookup env index with - | v
    · exact .openTerm hlookup
    · rw [computeNext, hlookup] at h
      cases h
  | constr tag fields => cases fields <;> cases h
  | error => exact .error fs env
  | lambda | apply | delay | force | case | constant | builtin => cases h

/-- If there is no step then the charge is not paid, or the state does not lead on. -/
theorem fails_of_step (h : mc.step m st = .error error) :
    (∃ charge, mc.metering.pay m charge = .error error) ∨
      Fails mc.builtins mc.costs st := by
  cases st with
  | done v => cases h
  | compute fs env term =>
    rw [step, compute_eq] at h
    rcases bind_eq_error_iff.1 h with hpay | ⟨_, -, h⟩
    · refine .inl ?_
      rcases hkind : stepKind? term with - | kind <;> rw [hkind] at hpay
      · cases hpay
      · exact ⟨.count kind, hpay⟩
    · rcases bind_eq_error_iff.1 h with hnext | ⟨_, -, h⟩
      · exact .inr (fails_of_computeNext hnext)
      · cases h
  | «return» fs v => cases fs with
    | nil =>
      rcases bind_eq_error_iff.1 h with hsettle | ⟨_, -, h⟩
      · exact .inl ⟨.settle, hsettle⟩
      · cases h
    | cons frame fs => cases frame with
      | awaitFunTerm argEnv argument => cases h
      | awaitArg function => exact (inapplicable_of_applyEvaluate h).imp_right .awaitArg
      | awaitFunValue argument => exact (inapplicable_of_applyEvaluate h).imp_right .awaitFunValue
      | force => exact fails_of_forceEvaluate h
      | constr env tag terms values => cases terms <;> cases h
      | cases env branches => exact .inr (fails_of_caseEvaluate h)

/-! ### Whole evaluations -/

/-- A state leads to another in `n` steps, and these are charged. A value that is there stays. -/
inductive Trace (bs : Builtins Fun Atom) (costs : CostModel Fun Atom) :
    ℕ → MachineState Fun Atom → List Charge → MachineState Fun Atom → Prop
  | refl (st : MachineState Fun Atom) : Trace bs costs 0 st [] st
  | step {n st next last charge charges} (hmoves : Moves bs costs st charge next)
    (htrace : Trace bs costs n next charges last) :
    Trace bs costs (n + 1) st (charge.toList ++ charges) last

/-- Pay charges, one after another. -/
def payAll (metering : Metering σ (MachineError Fun Atom)) (m : σ) (charges : List Charge) :
    Except (MachineError Fun Atom) σ :=
  charges.foldlM metering.pay m

theorem payAll_append_eq_ok_iff {metering : Metering σ (MachineError Fun Atom)} {charge : Option Charge} :
    payAll metering m (charge.toList ++ charges) = .ok m' ↔
      ∃ next, metering.pay? m charge = .ok next ∧ payAll metering next charges = .ok m' := by
  rcases charge with - | charge
  · constructor
    · intro h
      exact ⟨m, rfl, h⟩
    · rintro ⟨next, hpay, h⟩
      cases hpay
      exact h
  · rw [payAll, Option.toList_some, singleton_append, foldlM_cons, bind_eq_ok_iff]
    rfl

/-- A machine that is done stays so. -/
theorem eq_nil_of_trace_done {n : ℕ} (h : Trace bs costs n (.done v) charges st) :
    charges = [] ∧ st = .done v := by
  induction n generalizing charges with
  | zero =>
    cases h
    exact ⟨rfl, rfl⟩
  | succ n ih =>
    cases h with
    | step hmoves htrace =>
      cases hmoves
      exact ih htrace

theorem loop_done (fuel : ℕ) (m : σ) (v : Value Fun Atom) :
    mc.loop fuel m (.done v) = some (.ok (m, v)) := by
  cases fuel <;> rfl

theorem loop_succ (fuel : ℕ) (m : σ) (st : MachineState Fun Atom) :
    mc.loop (fuel + 1) m st = match mc.step m st with
      | .error error => some (.error error)
      | .ok (m, st) => mc.loop fuel m st := by
  cases st with
  | done v => exact (loop_done _ _ _).trans (loop_done _ _ _).symm
  | compute fs env term => rfl
  | «return» fs v => rfl

/-- **An evaluation that yields a value is a sequence of moves to it, with all charges paid.** -/
theorem loop_eq_ok_iff :
    mc.loop fuel m st = some (.ok (m', v)) ↔
      ∃ charges, Trace mc.builtins mc.costs fuel st charges (.done v) ∧
        payAll mc.metering m charges = .ok m' := by
  induction fuel generalizing m st with
  | zero =>
    constructor
    · intro h
      cases st with
      | done value' =>
        cases h
        exact ⟨[], .refl _, rfl⟩
      | compute fs env term => cases h
      | «return» fs value' => cases h
    · rintro ⟨charges, htrace, hpay⟩
      cases htrace
      cases hpay
      exact loop_done _ _ _
  | succ fuel ih =>
    rw [loop_succ]
    constructor
    · intro h
      split at h
      · cases h
      · next hstep =>
        obtain ⟨charge, hmoves, hpay⟩ := step_eq_ok_iff.1 hstep
        obtain ⟨charges, htrace, hpayAll⟩ := ih.1 h
        exact ⟨_, .step hmoves htrace, payAll_append_eq_ok_iff.2 ⟨_, hpay, hpayAll⟩⟩
    · rintro ⟨charges, htrace, hpay⟩
      cases htrace with
      | step hmoves htrace =>
        obtain ⟨next, hpay, hpayAll⟩ := payAll_append_eq_ok_iff.1 hpay
        rw [step_eq_ok_iff.2 ⟨_, hmoves, hpay⟩]
        exact ih.2 ⟨_, htrace, hpayAll⟩

/-- A run that fails does so after a trace that is paid for. -/
theorem exists_of_loop_eq_error (h : mc.loop fuel m st = some (.error error)) :
    ∃ n charges last m', Trace mc.builtins mc.costs n st charges last ∧
      payAll mc.metering m charges = .ok m' ∧ mc.step m' last = .error error := by
  induction fuel generalizing m st with
  | zero => cases st <;> cases h
  | succ fuel ih =>
    rw [loop_succ] at h
    rcases hstep : mc.step m st with error' | next <;> rw [hstep] at h
    · cases h
      exact ⟨0, [], st, m, .refl st, rfl, hstep⟩
    · obtain ⟨charge, hmoves, hpay⟩ := step_eq_ok_iff.1 hstep
      obtain ⟨n, charges, last, m', htrace, hpayAll, hlast⟩ := ih h
      exact ⟨n + 1, _, last, m', .step hmoves htrace, payAll_append_eq_ok_iff.2 ⟨_, hpay, hpayAll⟩, hlast⟩

end Machine

end Amaru.Uplc
