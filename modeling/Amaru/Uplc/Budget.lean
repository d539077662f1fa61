import Amaru.Uplc.Metering
import Mathlib.Algebra.Order.BigOperators.Group.Finset

/-!
# Charging steps in batches

Charges depend on the moves of the machine alone, so two machines that are charged exactly get through the
same evaluations, and have the same left (`Exact.yields_iff`).

If each step costs something then each lowers a potential, which is at most the budget and a batch
(`Meter.potential`). Between two steps the machine only works off frames, so **it comes to an end**.
-/

namespace Amaru.Uplc

open Machine ExBudget Meter Nat Finset List StepKind

/-! ### Whole evaluations are charged exactly -/

section Evaluation

variable {Fun Atom : Type} {bs : Builtins Fun Atom} {costs : CostModel Fun Atom}
  {st st' : MachineState Fun Atom} {budget : ExBudget}

namespace MachineState

/-- The evaluation is over. -/
def IsDone : MachineState Fun Atom → Prop
  | .done _ => True
  | .compute _ _ _ | .return _ _ => False

/-- How many steps are charged for in a state. -/
def steps : MachineState Fun Atom → ℕ
  | .compute _ _ term => if (stepKind? term).isSome then 1 else 0
  | .return _ _ | .done _ => 0

/-- How long the machine may go on without a step that is charged for. -/
def height : MachineState Fun Atom → ℕ
  | .compute _ _ _ | .done _ => 0
  | .return fs _ => fs.length + 1

end MachineState

/-- What is charged for a move. -/
inductive Charged (st : MachineState Fun Atom) : Option Charge → MachineState Fun Atom → Prop
  | finish (v : Value Fun Atom) (hsteps : st.steps = 0) : Charged st (some .settle) (.done v)
  | count {st' : MachineState Fun Atom} (kind : StepKind) (hsteps : st.steps = 1)
    (hdone : ¬st'.IsDone) : Charged st (some (.count kind)) st'
  /-- No step is charged for, but maybe a builtin function. -/
  | work {charge st'} (hsteps : st.steps = 0) (hheight : st'.height < st.height)
    (hdone : ¬st'.IsDone) (hcharge : ∀ c ∈ charge, ∃ budget, c = .spend budget ∧ ∀ r, 0 ≤ budget.of r) :
    Charged st charge st'

variable {term : Term Fun Atom}

/-- Computing a term is charged as a step of its kind. -/
theorem Machine.charged_of_computeNext {fs env} (h : computeNext fs env term = .ok st) :
    Charged (.compute fs env term) ((stepKind? term).map .count) st := by
  cases term with
  | var index =>
    rw [computeNext] at h
    split at h <;> cases h
    exact .count .var rfl not_false
  | constr tag fields =>
    cases fields <;> cases h <;> exact .count .constr rfl not_false
  | lambda | apply | delay | force | case | constant | builtin =>
    cases h
    exact .count _ rfl not_false
  | error => cases h

/-- **A step is charged for, or a frame is worked off, or the evaluation is over.** -/
theorem Machine.Moves.charged (hcosts : costs.NonNeg) {charge}
    (h : Machine.Moves bs costs st charge st') (hstate : ¬st.IsDone) :
    Charged st charge st' := by
  have happly {frame : Frame Fun Atom} {fs : List (Frame Fun Atom)}
      {v function argument : Value Fun Atom} {charge : Option Charge}
      (h : Machine.Applies bs costs fs function argument charge st') :
      Charged (.return (frame :: fs) v) charge st' := by
    cases h with
    | lambda hfunction => exact .work rfl (succ_pos _) not_false nofun
    | await hfunction hforces hargs => exact .work rfl (lt_succ_self _) not_false nofun
    | call hfunction hforces hargs hvalue =>
      refine .work rfl (lt_succ_self _) not_false ?_
      rintro c ⟨rfl⟩
      exact ⟨_, rfl, hcosts.builtin _ _⟩
  cases h with
  | compute hnext => exact charged_of_computeNext hnext
  | finish v => exact .finish v rfl
  | awaitArg happlies | awaitFunValue happlies => exact happly happlies
  | awaitFunTerm | forceDelay | constrNext | caseConstr | caseConstant =>
    exact .work rfl (succ_pos _) not_false nofun
  | forceAwait | constrLast => exact .work rfl (lt_succ_self _) not_false nofun
  | forceCall hforces hargs hvalue =>
    refine .work rfl (lt_succ_self _) not_false ?_
    rintro c ⟨rfl⟩
    exact ⟨_, rfl, hcosts.builtin _ _⟩
  | done v => exact absurd trivial hstate

variable {v : Value Fun Atom} {left : ExBudget} {fuel n : ℕ}

/-- A run to the end settles once, as the last charge. -/
theorem Machine.Trace.exists_settle (hcosts : costs.NonNeg) {charges}
    (h : Machine.Trace bs costs n st charges (.done v)) (hstate : ¬st.IsDone) :
    ∃ paid, charges = paid ++ [.settle] ∧ ∀ charge ∈ paid, charge.Payable := by
  induction n generalizing st charges with
  | zero =>
    cases h
    exact absurd trivial hstate
  | succ n ih =>
    cases h with
    | @step _ _ _ _ charge _ hmoves htrace =>
      cases hmoves.charged hcosts hstate with
      | finish value' =>
        obtain ⟨rfl, -⟩ := eq_nil_of_trace_done htrace
        exact ⟨[], rfl, nofun⟩
      | count kind hsteps hdone =>
        obtain ⟨paid, rfl, hpayable⟩ := ih htrace hdone
        exact ⟨.count kind :: paid, rfl, forall_mem_cons.2 ⟨.count kind, hpayable⟩⟩
      | work hsteps hheight hdone hcharge =>
        obtain ⟨paid, rfl, hpayable⟩ := ih htrace hdone
        refine ⟨charge.toList ++ paid, (append_assoc _ _ _).symm, forall_mem_append.2 ⟨?_, hpayable⟩⟩
        intro c hc
        obtain ⟨budget, rfl, hprice⟩ := hcharge c (Option.mem_toList.1 hc)
        exact .spend hprice

section

variable (mc : Machine Fun Atom Meter)

/-- An evaluation yields a value, and this is left of the budget. -/
def Machine.Yields (fuel : ℕ) (budget : ExBudget) (term : Term Fun Atom)
    (v : Value Fun Atom) (left : ExBudget) : Prop :=
  ∃ m, mc.run fuel (.new budget) term = some (.ok (m, v)) ∧ m.exBudget = left

/-- A run pays for its start first. -/
theorem Machine.run_eq (hcosts : mc.costs.NonNeg)
    (hspend : mc.metering.spend = spendBudget) (hbudget : ∀ r, budget.of r ≤ maxInt64)
    (hle : ∀ r, mc.costs.machineCosts.startup.of r ≤ budget.of r) (fuel : ℕ) (term : Term Fun Atom) :
    mc.run fuel (.new budget) term =
      mc.loop fuel (.new (budget - mc.costs.machineCosts.startup)) (.compute [] [] term) := by
  rw [run, hspend, (spendBudget_eq_ok_iff hbudget hcosts.startup).2 ⟨hle, rfl⟩]
  rfl

theorem Meter.exists_spendBudget_eq_error (m : Meter) {price} (hmax : ∀ r, m.exBudget.of r ≤ maxInt64)
    (hprice : ∀ r, 0 ≤ price.of r) (hlt : ¬∀ r, price.of r ≤ m.exBudget.of r) :
    ∃ error : MachineError Fun Atom, m.spendBudget price = .error error := by
  rcases hspend : (m.spendBudget price : Except (MachineError Fun Atom) Meter) with error | m'
  · exact ⟨error, rfl⟩
  · exact absurd ((spendBudget_eq_ok_iff hmax hprice).1 hspend).1 hlt

/-- A run that cannot pay for its start fails. -/
theorem Machine.exists_run_eq_error (hcosts : mc.costs.NonNeg)
    (hspend : mc.metering.spend = Meter.spendBudget) (hbudget : ∀ r, budget.of r ≤ maxInt64)
    (hlt : ¬∀ r, mc.costs.machineCosts.startup.of r ≤ budget.of r) (fuel : ℕ)
    (term : Term Fun Atom) :
    ∃ error, mc.run fuel (.new budget) term = some (.error error) := by
  obtain ⟨error, hstartup⟩ := (Meter.new budget).exists_spendBudget_eq_error hbudget hcosts.startup hlt
  exact ⟨error, by rw [run, hspend, hstartup]⟩

end

/-- **A machine that is charged exactly yields a value if the budget is enough for all charges**, and has
left what they leave. -/
theorem Exact.yields_iff {mc : Machine Fun Atom Meter} {Inv : Meter → Prop}
    {worth : Meter → ExBudget} (hexact : Exact mc.costs.machineCosts mc.metering Inv worth)
    (hspend : mc.metering.spend = spendBudget)
    (hinv : ∀ left, (∀ r, 0 ≤ left.of r) → (∀ r, left.of r < maxInt64) → Inv (.new left) ∧ worth
      (.new left) = left) (hcosts : mc.costs.NonNeg)
    (hbudget : ∀ r, budget.of r < maxInt64) :
    mc.Yields fuel budget term v left ↔
      (∀ r, mc.costs.machineCosts.startup.of r ≤ budget.of r) ∧
      ∃ charges, Machine.Trace mc.builtins mc.costs fuel (.compute [] [] term)
          (charges ++ [.settle]) (.done v) ∧
        left = remaining mc.costs.machineCosts (budget - mc.costs.machineCosts.startup) charges ∧
        ∀ r, 0 ≤ left.of r := by
  by_cases hle : ∀ r, mc.costs.machineCosts.startup.of r ≤ budget.of r
  · obtain ⟨hinv, hworth⟩ := hinv (budget - mc.costs.machineCosts.startup)
      (fun r ↦ by rw [of_sub]; exact sub_nonneg.2 (hle r))
      (fun r ↦ by rw [of_sub]; exact (sub_le_self _ (hcosts.startup r)).trans_lt (hbudget r))
    rw [Machine.Yields, mc.run_eq hcosts hspend (fun r ↦ (hbudget r).le) hle]
    constructor
    · rintro ⟨m, hloop, hleft⟩
      obtain ⟨charges, htrace, hpay⟩ := loop_eq_ok_iff.1 hloop
      obtain ⟨charges, rfl, hpayable⟩ := htrace.exists_settle hcosts not_false
      have hleft := (hexact.payAll_iff hcosts.step hpayable hinv).1 ⟨m, hpay, hleft⟩
      rw [hworth] at hleft
      exact ⟨hle, charges, htrace, hleft⟩
    · rintro ⟨-, charges, htrace, hleft⟩
      obtain ⟨paid, heq, hpayable⟩ := htrace.exists_settle hcosts not_false
      rw [← hworth, append_cancel_right heq] at hleft
      obtain ⟨m, hpay, hleft⟩ := (hexact.payAll_iff hcosts.step hpayable hinv).2 hleft
      exact ⟨m, loop_eq_ok_iff.2 ⟨_, htrace, heq ▸ hpay⟩, hleft⟩
  · obtain ⟨error, hrun⟩ := mc.exists_run_eq_error hcosts hspend (fun r ↦ (hbudget r).le) hle fuel term
    refine iff_of_false ?_ fun h ↦ hle h.1
    rintro ⟨m, h, -⟩
    rw [hrun] at h
    cases h

/-! ### The number of steps -/

/-- An amount of some resources together. -/
def ExBudget.amount (budget : ExBudget) (resources : Finset Resource) : ℤ := ∑ r ∈ resources, budget.of r

theorem ExBudget.amount_nonneg (h : ∀ r, 0 ≤ budget.of r) (resources : Finset Resource) :
    0 ≤ budget.amount resources :=
  sum_nonneg fun r _ ↦ h r

theorem ExBudget.amount_sub (budget price : ExBudget) (resources : Finset Resource) :
    (budget - price).amount resources = budget.amount resources - price.amount resources := by
  simp only [amount, of_sub, sum_sub_distrib]

/-- A step that costs something costs at least as much as its number, also if the price saturates. -/
theorem ExBudget.le_amount_scale (hnonneg : ∀ r, 0 ≤ budget.of r) {resources}
    (hunit : 1 ≤ budget.amount resources) (hn : (n : ℤ) ≤ maxInt64) :
    (n : ℤ) ≤ (budget.scale n).amount resources := by
  obtain ⟨r, hr, hpos⟩ : ∃ r ∈ resources, 1 ≤ budget.of r := by
    by_contra hzero
    have hle : budget.amount resources ≤ 0 :=
      sum_nonpos fun r hr ↦ not_lt.1 fun hpos ↦ hzero ⟨r, hr, hpos⟩
    omega
  have hscale (r : Resource) : 0 ≤ (budget.scale n).of r := by
    rw [of_scale]
    exact saturate_nonneg (Int.mul_nonneg (hnonneg r) (Int.natCast_nonneg n))
  refine le_trans ?_ (single_le_sum (fun r _ ↦ hscale r) hr)
  have hle : (n : ℤ) ≤ budget.of r * n := le_mul_of_one_le_left (Int.natCast_nonneg n) hpos
  rw [of_scale]
  unfold saturate minInt64
  omega

/-- What the meter shows, and how many steps may still be made before they are paid. -/
def Meter.potential (resources : Finset Resource) (slippage : ℕ) (m : Meter) : ℤ :=
  m.exBudget.amount resources + (slippage - m.unbudgetedTotal)

/-- How many steps are charged for, in an evaluation of at most so many moves. -/
def Machine.countSteps {σ : Type} (mc : Machine Fun Atom σ) : ℕ → σ → MachineState Fun Atom → ℕ
  | 0, _, _ => 0
  | fuel + 1, m, st => st.steps + match mc.step m st with
    | .error _ => 0
    | .ok (m, st) => mc.countSteps fuel m st

/-- How many steps are charged for in the evaluation of a term. -/
def Machine.countRun {σ : Type} (mc : Machine Fun Atom σ) (fuel : ℕ) (m : σ)
    (term : Term Fun Atom) : ℕ :=
  match mc.metering.spend m mc.costs.machineCosts.startup with
  | .error _ => 0
  | .ok m => mc.countSteps fuel m (.compute [] [] term)

section

variable (mc : Machine Fun Atom Meter) (hcosts : mc.costs.NonNeg)
  (hspend : mc.metering.spend = spendBudget) (hbudget : ∀ r, budget.of r ≤ maxInt64)
include hcosts hspend hbudget

theorem Machine.countRun_eq (hle : ∀ r, mc.costs.machineCosts.startup.of r ≤ budget.of r) (fuel : ℕ)
    (term : Term Fun Atom) :
    mc.countRun fuel (.new budget) term =
      mc.countSteps fuel (.new (budget - mc.costs.machineCosts.startup)) (.compute [] [] term) := by
  rw [countRun, hspend, (spendBudget_eq_ok_iff hbudget hcosts.startup).2 ⟨hle, rfl⟩]
  rfl

/-- Nothing is run if the start cannot be paid. -/
theorem Machine.countRun_eq_zero (hlt : ¬∀ r, mc.costs.machineCosts.startup.of r ≤ budget.of r)
    (fuel : ℕ) (term : Term Fun Atom) : mc.countRun fuel (.new budget) term = 0 := by
  obtain ⟨error, hstartup⟩ := (Meter.new budget).exists_spendBudget_eq_error hbudget hcosts.startup hlt
  rw [countRun, hspend, hstartup]

end

section Steps

variable {slippage : ℕ} {resources : Finset Resource} {m m' : Meter}

/-- Each step that is counted is due at a unit or more. -/
theorem Meter.le_sum_due (hcosts : costs.NonNeg)
    (hunit : ∀ kind, 1 ≤ (costs.machineCosts.step kind).amount resources)
    (hmax : ∀ kind, (m.unbudgetedSteps kind : ℤ) ≤ maxInt64) (kinds : List StepKind) :
    ((kinds.map m.unbudgetedSteps).sum : ℤ) ≤ ∑ r ∈ resources, m.due costs.machineCosts kinds r := by
  induction kinds with
  | nil => exact (sum_nonneg fun r _ ↦ le_rfl)
  | cons kind kinds ih =>
    simp only [due_cons, sum_add_distrib]
    rw [List.map_cons, List.sum_cons, cast_add]
    exact add_le_add (le_amount_scale (hcosts.step kind) (hunit kind) (hmax kind)) ih

/-- The steps of one kind are among all of them. -/
theorem Meter.Valid.unbudgetedSteps_le (h : m.Valid) (kind : StepKind) :
    m.unbudgetedSteps kind ≤ m.unbudgetedTotal := by
  rw [h.total]
  exact single_le_sum (fun _ _ ↦ zero_le _) _ (mem_map.2 ⟨kind, kind.mem_enumerate, rfl⟩)

/-- A meter that is in use. -/
structure Meter.InUse (slippage : ℕ) (m : Meter) : Prop where
  valid : m.Valid
  lt : m.unbudgetedTotal < slippage

theorem Meter.potential_new (resources : Finset Resource) (slippage : ℕ) (budget : ExBudget) :
    (new budget).potential resources slippage = budget.amount resources + slippage :=
  congrArg (budget.amount resources + ·) (sub_zero (slippage : ℤ))

/-- A meter in use allows one more step. -/
theorem Meter.InUse.potential_pos (h : m.InUse slippage) (resources : Finset Resource) :
    1 ≤ m.potential resources slippage := by
  have hnonneg := amount_nonneg h.valid.nonneg resources
  have hlt := h.lt
  rw [potential]
  omega

/-- **Every step lowers the potential.** -/
theorem Meter.InUse.count (h : m.InUse slippage) (hslippage : (slippage : ℤ) ≤ maxInt64)
    (hcosts : costs.NonNeg) (hunit : ∀ kind, 1 ≤ (costs.machineCosts.step kind).amount resources)
    {kind : StepKind}
    (hpay : (Metering.batched costs.machineCosts slippage : Metering Meter (MachineError Fun Atom)).pay m
      (.count kind) = .ok m') :
    m'.InUse slippage ∧ m'.potential resources slippage + 1 ≤ m.potential resources slippage := by
  have hlt := h.lt
  have hcounted := h.valid.counted kind
  have htotal : (m.counted kind).unbudgetedTotal = m.unbudgetedTotal + 1 := rfl
  rw [pay_batched_count] at hpay
  split_ifs at hpay with hbatch
  · obtain ⟨hle, rfl⟩ :=
      (spendUnbudgetedSteps_eq_ok_iff hcosts.step hcounted.nonneg hcounted.le_max).1 hpay
    have hsteps (other : StepKind) : ((m.counted kind).unbudgetedSteps other : ℤ) ≤ maxInt64 := by
      have hle := hcounted.unbudgetedSteps_le other
      omega
    have hdue := le_sum_due hcosts hunit hsteps enumerate
    rw [← hcounted.total, htotal] at hdue
    have hamount : ((m.counted kind).paid costs.machineCosts enumerate).exBudget.amount resources =
        m.exBudget.amount resources -
          ∑ r ∈ resources, (m.counted kind).due costs.machineCosts enumerate r := by
      simp only [amount, of_paid, sum_sub_distrib]
      rfl
    refine ⟨⟨valid_new (fun r ↦ ?_) (fun r ↦ ?_), ?_⟩, ?_⟩
    · rw [of_paid]
      exact sub_nonneg.2 (hle r)
    · rw [of_paid]
      exact (sub_le_self _ (due_nonneg hcosts.step _ _ r)).trans (h.valid.le_max r)
    · exact zero_lt_of_lt hlt
    · rw [potential_new, hamount, potential]
      omega
  · cases hpay
    refine ⟨⟨hcounted, not_le.1 hbatch⟩, ?_⟩
    have hpotential : (m.counted kind).potential resources slippage =
        m.exBudget.amount resources + (slippage - ↑(m.unbudgetedTotal + 1)) := rfl
    rw [hpotential, potential]
    omega

/-- Spending keeps the meter in use, and allows no more steps. -/
theorem Meter.InUse.spend (h : m.InUse slippage) (hprice : ∀ r, 0 ≤ budget.of r)
    (hspend : (m.spendBudget budget : Except (MachineError Fun Atom) Meter) = .ok m') :
    m'.InUse slippage ∧ m'.potential resources slippage ≤ m.potential resources slippage := by
  obtain ⟨hle, rfl⟩ := (spendBudget_eq_ok_iff h.valid.le_max hprice).1 hspend
  refine ⟨⟨h.valid.sub hprice hle, h.lt⟩, ?_⟩
  rw [potential, potential, amount_sub]
  exact add_le_add_left (sub_le_self _ (amount_nonneg hprice resources)) _

/-- The machine that pays in batches of a size. -/
def Machine.batched (bs : Builtins Fun Atom) (costs : CostModel Fun Atom) (slippage : ℕ) :
    Machine Fun Atom Meter where
  builtins := bs
  costs
  metering := .batched costs.machineCosts slippage

/-- **A step lowers the potential, or a frame is worked off.** -/
theorem Machine.step_lowers (hslippage : (slippage : ℤ) ≤ maxInt64) (hcosts : costs.NonNeg)
    (hunit : ∀ kind, 1 ≤ (costs.machineCosts.step kind).amount resources) (h : m.InUse slippage)
    (hstate : ¬st.IsDone)
    (hstep : (batched bs costs slippage).step m st = .ok (m', st')) :
    (∃ v, st.steps = 0 ∧ st' = .done v) ∨ m'.InUse slippage ∧ ¬st'.IsDone ∧
      m'.potential resources slippage + st.steps ≤ m.potential resources slippage ∧
      (st.steps = 0 → st'.height < st.height) := by
  obtain ⟨charge, hmoves, hpay⟩ := step_eq_ok_iff.1 hstep
  cases hmoves.charged hcosts hstate with
  | finish v hsteps => exact .inl ⟨v, hsteps, rfl⟩
  | count kind hsteps hdone =>
    obtain ⟨hinUse, hpotential⟩ := h.count hslippage hcosts hunit hpay
    refine .inr ⟨hinUse, hdone, ?_, fun hzero ↦ ?_⟩
    · rw [hsteps]
      exact hpotential
    · omega
  | work hsteps hheight hdone hcharge =>
    rw [hsteps, cast_zero, add_zero]
    rcases charge with - | charge
    · cases hpay
      exact .inr ⟨h, hdone, le_rfl, fun _ ↦ hheight⟩
    · obtain ⟨budget, rfl, hprice⟩ := hcharge charge rfl
      obtain ⟨hinUse, hpotential⟩ := h.spend hprice hpay
      exact .inr ⟨hinUse, hdone, hpotential, fun _ ↦ hheight⟩

theorem Machine.countSteps_done {σ : Type} (mc : Machine Fun Atom σ) (fuel : ℕ) (m : σ)
    (v : Value Fun Atom) : mc.countSteps fuel m (.done v) = 0 := by
  induction fuel with
  | zero => rfl
  | succ fuel ih => exact (zero_add _).trans ih

/-- A state counts one step or none. -/
theorem MachineState.steps_le (st : MachineState Fun Atom) : st.steps ≤ 1 := by
  cases st with
  | compute fs env term =>
    rw [steps]
    split_ifs <;> omega
  | «return» fs v => exact zero_le 1
  | done v => exact zero_le 1

section

variable (hslippage : (slippage : ℤ) ≤ maxInt64) (hcosts : costs.NonNeg)
  (hunit : ∀ kind, 1 ≤ (costs.machineCosts.step kind).amount resources)
include hslippage hcosts hunit

/-- A run takes no more steps than the meter allows. -/
theorem Machine.countSteps_le (fuel : ℕ) (h : m.InUse slippage) (hstate : ¬st.IsDone) :
    ((batched bs costs slippage).countSteps fuel m st : ℤ) ≤
      m.potential resources slippage := by
  have hpos := h.potential_pos resources
  have hsteps := st.steps_le
  induction fuel generalizing m st with
  | zero =>
    rw [countSteps]
    omega
  | succ fuel ih =>
    rw [countSteps]
    rcases hstep : (batched bs costs slippage).step m st with error | next
    · dsimp only
      omega
    obtain ⟨m', st'⟩ := next
    dsimp only
    rcases step_lowers hslippage hcosts hunit h hstate hstep with
      ⟨v, hzero, rfl⟩ | ⟨hinUse, hdone, hpotential, -⟩
    · rw [countSteps_done]
      omega
    · have hle := ih hinUse hdone (hinUse.potential_pos resources) st'.steps_le
      omega

/-- **Every evaluation comes to an end.** -/
theorem Machine.exists_loop_ne_none (h : m.InUse slippage) (hstate : ¬st.IsDone) :
    ∃ fuel, (batched bs costs slippage).loop fuel m st ≠ none := by
  -- by induction on the potential, and then on the frames that are worked off before it is lowered
  obtain ⟨potential, hpotential⟩ : ∃ n : ℕ, m.potential resources slippage ≤ n := ⟨_, Int.self_le_toNat _⟩
  induction potential generalizing m st with
  | zero =>
    have hpos := h.potential_pos resources
    omega
  | succ potential ih =>
    induction hheight : st.height using Nat.strong_induction_on generalizing m st with
    | h height ihh =>
      rcases hstep : (batched bs costs slippage).step m st with error | next
      · refine ⟨1, ?_⟩
        rw [loop_succ, hstep]
        nofun
      obtain ⟨m', st'⟩ := next
      have hnext : ∃ fuel, (batched bs costs slippage).loop fuel m' st' ≠ none := by
        rcases step_lowers hslippage hcosts hunit h hstate hstep with
          ⟨v, -, rfl⟩ | ⟨hinUse, hdone, hlower, hwork⟩
        · exact ⟨0, nofun⟩
        by_cases hzero : st.steps = 0
        · exact ihh st'.height (hheight ▸ hwork hzero) hinUse hdone (by omega) rfl
        · exact ih hinUse hdone (by omega)
      obtain ⟨fuel, hfuel⟩ := hnext
      refine ⟨fuel + 1, ?_⟩
      rw [loop_succ, hstep]
      exact hfuel

end

end Steps

/-- Batches and single payments yield the same. -/
theorem Machine.new_yields_iff (hcosts : costs.NonNeg) (hbudget : ∀ r, budget.of r < maxInt64) :
    (new bs costs).Yields fuel budget term v left ↔
      (immediate bs costs).Yields fuel budget term v left := by
  have hbatched : Exact (new bs costs).costs.machineCosts (new bs costs).metering
      (fun m ↦ m.Valid ∧ ∀ r, m.exBudget.of r < maxInt64) (worth costs.machineCosts) :=
    exact_batched hcosts.step 200
  have himmediate : Exact (immediate bs costs).costs.machineCosts
      (immediate bs costs).metering Meter.Valid exBudget :=
    exact_immediate hcosts.step
  refine (hbatched.yields_iff rfl (fun left hnonneg hmax ↦ ⟨⟨?_, hmax⟩, worth_new _ left⟩) hcosts
    hbudget).trans (himmediate.yields_iff rfl (fun left hnonneg hmax ↦ ⟨?_, rfl⟩) hcosts hbudget).symm
  · exact valid_new hnonneg fun r ↦ (hmax r).le
  · exact valid_new hnonneg fun r ↦ (hmax r).le

/-- **Charging steps in batches is exact, and bounds execution.** With a budget below the largest number of 64
bits, the machine yields a value if and only if the machine that pays for every step when it is made does,
and the same is left. If every step costs a unit, of memory, of time or of both together, then at most as many
steps are charged for as there are units in the budget and steps in a batch, and the evaluation comes to an
end. -/
theorem batches_are_exact (bs : Builtins Fun Atom) (costs : CostModel Fun Atom)
    (hcosts : costs.NonNeg) :
    (∀ budget : ExBudget, (∀ r, budget.of r < maxInt64) → ∀ fuel term v left,
      (new bs costs).Yields fuel budget term v left ↔
        (immediate bs costs).Yields fuel budget term v left) ∧
    ∀ resources : Finset Resource, (∀ kind, 1 ≤ (costs.machineCosts.step kind).amount resources) →
      ∀ budget : ExBudget, (∀ r, budget.of r ≤ maxInt64) → ∀ term,
        (∀ fuel, (new bs costs).countRun fuel (.new budget) term ≤
          (budget.amount resources).toNat + 200) ∧
        ∃ fuel, (new bs costs).run fuel (.new budget) term ≠ none := by
  refine ⟨fun budget hbudget fuel term v left ↦ new_yields_iff hcosts hbudget, ?_⟩
  intro resources hunit budget hbudget term
  have hslippage : ((200 : ℕ) : ℤ) ≤ maxInt64 := by decide
  by_cases hle : ∀ r, costs.machineCosts.startup.of r ≤ budget.of r
  · -- the potential is that of what the start leaves
    have hleft : (new (budget - costs.machineCosts.startup)).InUse 200 := by
      refine ⟨valid_new (fun r ↦ ?_) (fun r ↦ ?_), succ_pos 199⟩
      · rw [of_sub]
        exact sub_nonneg.2 (hle r)
      · rw [of_sub]
        exact (sub_le_self _ (hcosts.startup r)).trans (hbudget r)
    have hpotential : (new (budget - costs.machineCosts.startup)).potential resources 200 ≤
        budget.amount resources + 200 := by
      rw [potential_new, amount_sub]
      exact add_le_add_left (sub_le_self _ (amount_nonneg hcosts.startup resources)) _
    refine ⟨fun fuel ↦ ?_, ?_⟩
    · rw [countRun_eq _ hcosts rfl hbudget hle]
      have hcount : ((new bs costs).countSteps fuel
          (.new (budget - (new bs costs).costs.machineCosts.startup))
          (.compute [] [] term) : ℤ) ≤ (new (budget - costs.machineCosts.startup)).potential resources 200 :=
        countSteps_le hslippage hcosts hunit fuel hleft not_false
      omega
    · obtain ⟨fuel, hfuel⟩ : ∃ fuel, (batched bs costs 200).loop fuel
          (.new (budget - costs.machineCosts.startup)) (.compute [] [] term) ≠ none :=
        exists_loop_ne_none hslippage hcosts hunit hleft not_false
      refine ⟨fuel, ?_⟩
      rw [run_eq _ hcosts rfl hbudget hle]
      exact hfuel
  · refine ⟨fun fuel ↦ ?_, 0, ?_⟩
    · rw [countRun_eq_zero _ hcosts rfl hbudget hle]
      exact zero_le _
    · obtain ⟨error, hrun⟩ := exists_run_eq_error (.new bs costs) hcosts rfl hbudget hle 0 term
      rw [hrun]
      nofun

/-- What remains is the budget less the prices of all charges. -/
theorem of_remaining (costs : MachineCosts) (charges : List Charge) (budget : ExBudget) (r) :
    (remaining costs budget charges).of r =
      budget.of r - (charges.map fun charge ↦ (charge.price costs).of r).sum := by
  induction charges generalizing budget with
  | nil => exact (sub_zero _).symm
  | cons charge charges ih =>
    refine (ih _).trans ?_
    rw [of_sub, List.map_cons, List.sum_cons, sub_sub]

/-- **What an evaluation costs does not depend on the budget.** A larger one yields the same value, and as
much of it is spent. -/
theorem larger_budget_yields_same {budget' : ExBudget} (hcosts : costs.NonNeg)
    (hle : ∀ r, budget.of r ≤ budget'.of r) (hbudget : ∀ r, budget'.of r < maxInt64)
    (h : (new bs costs).Yields fuel budget term v left) :
    ∃ left', (new bs costs).Yields fuel budget' term v left' ∧
      ∀ r, budget'.of r - left'.of r = budget.of r - left.of r := by
  have hiff {budget left : ExBudget} (hmax : ∀ r, budget.of r < maxInt64) :
      (new bs costs).Yields fuel budget term v left ↔ _ :=
    (new_yields_iff hcosts hmax).trans <| (exact_immediate hcosts.step).yields_iff rfl
      (fun left hnonneg hmax ↦ ⟨valid_new hnonneg fun r ↦ (hmax r).le, rfl⟩) hcosts hmax
  obtain ⟨hstart, charges, htrace, rfl, hnonneg⟩ := (hiff fun r ↦ (hle r).trans_lt (hbudget r)).1 h
  simp only [of_remaining, of_sub] at hnonneg
  refine ⟨_, (hiff hbudget).2
    ⟨fun r ↦ (hstart r).trans (hle r), charges, htrace, rfl, fun r ↦ ?_⟩, fun r ↦ ?_⟩
  · rw [of_remaining, of_sub]
    exact (hnonneg r).trans (sub_le_sub_right (sub_le_sub_right (hle r) _) _)
  · simp only [of_remaining, of_sub]
    omega

end Evaluation

/-! ### A budget that saturates -/

/-- No builtin functions. -/
def noBuiltins : Builtins Empty Empty where
  arity := nofun
  forceCount := nofun
  accepts := nofun
  denote := nofun
  arity_pos := nofun

/-- Every step has the same price, but for a force. -/
def flatCosts (price force : ExBudget) : CostModel Empty Empty where
  machineCosts :=
    { startup := price, constant := price, var := price, lambda := price, delay := price, force,
      apply := price, constr := price, case := price, builtin := price }
  builtinCosts := nofun
  caseOnConstants := .unavailable

theorem flatCosts_nonNeg {price force} (hprice : ∀ r, 0 ≤ price.of r) (hforce : ∀ r, 0 ≤ force.of r) :
    (flatCosts price force).NonNeg where
  startup := hprice
  step kind := by cases kind <;> assumption
  builtin := nofun

/-- A unit that is delayed and forced twice. -/
def forcedTwice : Term Empty Empty := .force (.delay (.force (.delay (.constant .unit))))

theorem batches_are_exact_flatCosts :
    (immediate noBuiltins (flatCosts ⟨1, 1⟩ ⟨1, 1⟩)).Yields 10 ⟨1000, 1000⟩ forcedTwice (.con .unit)
      ⟨994, 994⟩ ∧
    (∀ fuel, (new noBuiltins (flatCosts ⟨1, 1⟩ ⟨1, 1⟩)).countRun fuel (.new ⟨1000, 1000⟩)
      forcedTwice ≤ 1200) ∧
    ∃ fuel, (new noBuiltins (flatCosts ⟨1, 1⟩ ⟨1, 1⟩)).run fuel (.new ⟨1000, 1000⟩) forcedTwice ≠
      none := by
  have hone : ∀ r, 0 ≤ (⟨1, 1⟩ : ExBudget).of r := by rintro (_ | _) <;> decide
  have hbudget : ∀ r, (⟨1000, 1000⟩ : ExBudget).of r < maxInt64 := by rintro (_ | _) <;> decide
  obtain ⟨hexact, hbound⟩ := batches_are_exact noBuiltins (flatCosts ⟨1, 1⟩ ⟨1, 1⟩)
    (flatCosts_nonNeg hone hone)
  obtain ⟨hcount, hend⟩ := hbound {.mem} (by rintro (_ | _) <;> decide) ⟨1000, 1000⟩ (fun r ↦ (hbudget r).le)
    forcedTwice
  exact ⟨(hexact _ hbudget 10 forcedTwice (.con .unit) ⟨994, 994⟩).1 ⟨_, rfl, rfl⟩, hcount, hend⟩

theorem larger_budget_yields_same_flatCosts : ∃ left,
    (new noBuiltins (flatCosts ⟨1, 1⟩ ⟨1, 1⟩)).Yields 10 ⟨2000, 2000⟩ forcedTwice (.con .unit) left ∧
      ∀ r, ExBudget.of ⟨2000, 2000⟩ r - left.of r = ExBudget.of ⟨1000, 1000⟩ r - ExBudget.of ⟨994, 994⟩ r :=
  larger_budget_yields_same (flatCosts_nonNeg (by rintro (_ | _) <;> decide) (by rintro (_ | _) <;> decide))
    (by rintro (_ | _) <;> decide) (by rintro (_ | _) <;> decide) ⟨_, rfl, rfl⟩

/-- Two steps that together cost more than 64 bits hold are paid in a batch by the largest budget, but not
one after the other. -/
theorem batch_saturates : (flatCosts ⟨0, 0⟩ ⟨2 ^ 62, 0⟩).NonNeg ∧
    (∃ m, (new noBuiltins (flatCosts ⟨0, 0⟩ ⟨2 ^ 62, 0⟩)).run 10 (.new ⟨maxInt64, 0⟩)
      forcedTwice = some (.ok (m, .con .unit))) ∧
    ∃ left, (immediate noBuiltins (flatCosts ⟨0, 0⟩ ⟨2 ^ 62, 0⟩)).run 10 (.new ⟨maxInt64, 0⟩)
      forcedTwice = some (.error (.outOfEx left)) :=
  ⟨flatCosts_nonNeg (by rintro (_ | _) <;> decide) (by rintro (_ | _) <;> decide), ⟨_, rfl⟩, _, rfl⟩

end Amaru.Uplc
