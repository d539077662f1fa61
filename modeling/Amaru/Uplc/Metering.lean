import Amaru.Uplc.Transitions
import Mathlib.Algebra.Order.BigOperators.Group.List
import Mathlib.Tactic.Ring

/-!
# Two ways of charging

The machine counts its steps and pays for many of them at once. This is compared with a machine that pays
for each step when it is made (`Metering.immediate`). What a meter is **worth** (`Meter.worth`) is what is
left once the steps that it has counted are paid. Every charge lowers what the meter is worth by its price,
whichever way it is paid, and in the end all is paid (`exact_immediate`, `exact_batched`).

Prices saturate at the largest number of 64 bits. A meter that shows this number can pay for a batch that
costs more, so a budget has to be smaller for this.
-/

namespace Amaru.Uplc

open ExBudget List Meter StepKind Except Int Function Machine

variable {i : ℤ} {charge : Charge}

/-! ### Resources -/

/-- What a budget is made of. -/
inductive Resource
  | mem
  | cpu
deriving DecidableEq

/-- The amount of a resource. -/
def ExBudget.of (budget : ExBudget) : Resource → ℤ
  | .mem => budget.mem
  | .cpu => budget.cpu

namespace ExBudget

instance : Sub ExBudget where
  sub budget price := { mem := budget.mem - price.mem, cpu := budget.cpu - price.cpu }

theorem ext_of {budget budget' : ExBudget} (h : ∀ r, budget.of r = budget'.of r) : budget = budget' :=
  ExBudget.ext (h .mem) (h .cpu)

theorem of_sub (budget price : ExBudget) (r : Resource) :
    (budget - price).of r = budget.of r - price.of r := by
  cases r <;> rfl

theorem of_scale (budget : ExBudget) (n : ℕ) (r : Resource) :
    (budget.scale n).of r = saturate (budget.of r * n) := by
  cases r <;> rfl

end ExBudget

theorem saturate_neg_iff : saturate i < 0 ↔ i < 0 := by
  unfold saturate minInt64 maxInt64
  omega

/-- Amounts in range are kept. -/
theorem saturate_of_mem (hnonneg : 0 ≤ i) (hle : i ≤ maxInt64) : saturate i = i := by
  unfold maxInt64 at hle
  unfold saturate minInt64 maxInt64
  omega

/-- An amount below the limit was not cut. -/
theorem saturate_of_lt (hnonneg : 0 ≤ i) (hlt : saturate i < maxInt64) : saturate i = i := by
  unfold saturate minInt64 maxInt64 at *
  omega

theorem saturate_nonneg (hnonneg : 0 ≤ i) : 0 ≤ saturate i := by
  unfold saturate minInt64 maxInt64
  omega

theorem saturate_le (hnonneg : 0 ≤ i) : saturate i ≤ i := by
  unfold saturate minInt64 maxInt64
  omega

/-- Every kind of step is paid for. -/
theorem StepKind.mem_enumerate (kind : StepKind) : kind ∈ enumerate := by
  cases kind <;> decide

theorem StepKind.nodup_enumerate : enumerate.Nodup := by
  decide

/-- No price is negative. -/
structure CostModel.NonNeg {Fun Atom : Type} (costs : CostModel Fun Atom) : Prop where
  startup : ∀ r, 0 ≤ costs.machineCosts.startup.of r
  step : ∀ kind r, 0 ≤ (costs.machineCosts.step kind).of r
  builtin : ∀ f views r, 0 ≤ (costs.builtinCosts f views).of r

/-- Every step is paid when it is made. -/
def Metering.immediate {Fun Atom : Type} (costs : MachineCosts) : Metering Meter (MachineError Fun Atom) where
  count m kind := m.spendBudget (costs.step kind)
  spend := spendBudget
  settle := .ok

/-- The machine that pays for every step when it is made. -/
def Machine.immediate {Fun Atom : Type} (bs : Builtins Fun Atom) (costs : CostModel Fun Atom) :
    Machine Fun Atom Meter where
  builtins := bs
  costs
  metering := .immediate costs.machineCosts

namespace Meter

variable {Fun Atom : Type} {costs : MachineCosts} {m m' : Meter} {budget : ExBudget}
  {kinds : List StepKind}

theorem ext_of (hbudget : ∀ r, m.exBudget.of r = m'.exBudget.of r)
    (hsteps : ∀ kind, m.unbudgetedSteps kind = m'.unbudgetedSteps kind)
    (htotal : m.unbudgetedTotal = m'.unbudgetedTotal) : m = m' := by
  cases m
  cases m'
  cases ext_of hbudget
  cases funext hsteps
  cases htotal
  rfl

/-- A price is spent if and only if the budget covers it. -/
theorem spendBudget_eq_ok_iff (hmax : ∀ r, m.exBudget.of r ≤ maxInt64) (hprice : ∀ r, 0 ≤ budget.of r) :
    (m.spendBudget budget : Except (MachineError Fun Atom) Meter) = .ok m' ↔
      (∀ r, budget.of r ≤ m.exBudget.of r) ∧
        m' = { m with exBudget := m.exBudget - budget } := by
  have hneg (r : Resource) : saturate (m.exBudget.of r - budget.of r) < 0 ↔
      m.exBudget.of r < budget.of r := saturate_neg_iff.trans sub_neg
  have hleft (r : Resource) (hle : budget.of r ≤ m.exBudget.of r) :
      saturate (m.exBudget.of r - budget.of r) = (m.exBudget - budget).of r := by
    rw [of_sub]
    exact saturate_of_mem (sub_nonneg.2 hle) (le_trans (sub_le_self _ (hprice r)) (hmax r))
  rw [spendBudget]
  constructor
  · intro h
    split_ifs at h with hout
    have hle : ∀ r, budget.of r ≤ m.exBudget.of r
      | .mem => not_lt.1 fun hlt ↦ hout (.inl ((hneg .mem).2 hlt))
      | .cpu => not_lt.1 fun hlt ↦ hout (.inr ((hneg .cpu).2 hlt))
    refine ⟨hle, ?_⟩
    rw [← ok.inj h]
    congr 1
    exact ExBudget.ext (hleft .mem (hle .mem)) (hleft .cpu (hle .cpu))
  · rintro ⟨hle, rfl⟩
    rw [if_neg fun hout ↦ hout.elim (fun hlt ↦ not_lt.2 (hle .mem) ((hneg .mem).1 hlt))
      fun hlt ↦ not_lt.2 (hle .cpu) ((hneg .cpu).1 hlt)]
    congr 2
    exact ExBudget.ext (hleft .mem (hle .mem)) (hleft .cpu (hle .cpu))

variable {error : MachineError Fun Atom}

/-- Spending fails for a resource that is short. -/
theorem exists_lt_of_spendBudget_eq_error (hmax : ∀ r, m.exBudget.of r ≤ maxInt64)
    (hprice : ∀ r, 0 ≤ budget.of r) (h : m.spendBudget budget = .error error) :
    ∃ r, m.exBudget.of r < budget.of r := by
  by_contra hlt
  have hle : ∀ r, budget.of r ≤ m.exBudget.of r := fun r ↦ not_lt.1 fun hr ↦ hlt ⟨r, hr⟩
  rw [(spendBudget_eq_ok_iff hmax hprice).2 ⟨hle, rfl⟩] at h
  cases h

/-- Spending fails for want of budget only. -/
theorem exists_outOfEx_of_spendBudget (h : m.spendBudget budget = .error error) :
    ∃ left, error = .outOfEx left := by
  rw [spendBudget] at h
  split_ifs at h
  cases h
  exact ⟨_, rfl⟩

theorem exists_outOfEx_of_spendUnbudgetedSteps (h : m.spendUnbudgetedSteps costs = .error error) :
    ∃ left, error = .outOfEx left := by
  have hfold (kinds : List StepKind) (m : Meter)
      (h : kinds.foldlM (spendStepKind costs) m = .error error) : ∃ left, error = .outOfEx left := by
    induction kinds generalizing m with
    | nil => cases h
    | cons kind kinds ih =>
      rw [foldlM_cons] at h
      rcases bind_eq_error_iff.1 h with hfirst | ⟨next, -, hrest⟩
      · rcases bind_eq_error_iff.1 hfirst with hspend | ⟨_, -, hok⟩
        · exact exists_outOfEx_of_spendBudget hspend
        · cases hok
      · exact ih next hrest
  rcases bind_eq_error_iff.1 h with hfirst | ⟨_, -, hok⟩
  · exact hfold _ _ hfirst
  · cases hok

/-- Paying fails for want of budget only. -/
theorem exists_outOfEx {slippage : ℕ}
    (h : (Metering.batched costs slippage).pay m charge = .error error) :
    ∃ left, error = .outOfEx left := by
  cases charge with
  | spend budget => exact exists_outOfEx_of_spendBudget h
  | count kind =>
    change m.stepAndMaybeSpend costs slippage kind = .error error at h
    rw [stepAndMaybeSpend] at h
    split_ifs at h
    exact exists_outOfEx_of_spendUnbudgetedSteps h
  | settle =>
    change m.settle costs = .error error at h
    rw [Meter.settle] at h
    split_ifs at h
    exact exists_outOfEx_of_spendUnbudgetedSteps h

/-- The price of the steps of some kinds that are not paid yet. -/
def due (costs : MachineCosts) (m : Meter) (kinds : List StepKind) (r : Resource) : ℤ :=
  (kinds.map fun kind ↦ ((costs.step kind).scale (m.unbudgetedSteps kind)).of r).sum

/-- The meter with the steps of some kinds paid. -/
def paid (costs : MachineCosts) (m : Meter) (kinds : List StepKind) : Meter where
  exBudget := m.exBudget - { mem := m.due costs kinds .mem, cpu := m.due costs kinds .cpu }
  unbudgetedSteps kind := if kind ∈ kinds then 0 else m.unbudgetedSteps kind
  unbudgetedTotal := m.unbudgetedTotal

theorem of_paid (kinds : List StepKind) (r : Resource) :
    (m.paid costs kinds).exBudget.of r = m.exBudget.of r - m.due costs kinds r := by
  cases r <;> rfl

/-- The counts of the kinds that are paid are reset. -/
theorem unbudgetedSteps_paid (kinds : List StepKind) (kind : StepKind) :
    (m.paid costs kinds).unbudgetedSteps kind = if kind ∈ kinds then 0 else m.unbudgetedSteps kind :=
  rfl

theorem due_cons (kind : StepKind) (kinds : List StepKind) (r : Resource) :
    m.due costs (kind :: kinds) r =
      ((costs.step kind).scale (m.unbudgetedSteps kind)).of r + m.due costs kinds r := by
  rw [due, map_cons, sum_cons, due]

section

variable (hcosts : ∀ kind r, 0 ≤ (costs.step kind).of r)
include hcosts

theorem scale_nonneg (kind : StepKind) (n : ℕ) (r : Resource) : 0 ≤ ((costs.step kind).scale n).of r := by
  rw [of_scale]
  exact saturate_nonneg (mul_nonneg (hcosts kind r) (natCast_nonneg n))

/-- Nothing is given back. -/
theorem due_nonneg (m : Meter) (kinds : List StepKind) (r : Resource) : 0 ≤ m.due costs kinds r := by
  refine sum_nonneg fun price hprice ↦ ?_
  obtain ⟨kind, -, rfl⟩ := mem_map.1 hprice
  exact scale_nonneg hcosts kind _ r

/-- The steps of a kind are paid if and only if the budget covers them. -/
theorem spendStepKind_eq_ok_iff {kind} (hmax : ∀ r, m.exBudget.of r ≤ maxInt64) :
    (m.spendStepKind costs kind : Except (MachineError Fun Atom) Meter) = .ok m' ↔
      (∀ r, m.due costs [kind] r ≤ m.exBudget.of r) ∧ m' = m.paid costs [kind] := by
  have hdue (r : Resource) : m.due costs [kind] r =
      ((costs.step kind).scale (m.unbudgetedSteps kind)).of r := sum_singleton
  have hpaid : { m with
      exBudget := m.exBudget - (costs.step kind).scale (m.unbudgetedSteps kind)
      unbudgetedSteps := update m.unbudgetedSteps kind 0 } = m.paid costs [kind] := by
    rw [paid, hdue, hdue]
    congr 1
    funext other
    simp only [update_apply, mem_singleton]
  simp only [spendStepKind, bind_eq_ok_iff, spendBudget_eq_ok_iff hmax (scale_nonneg hcosts kind _),
    and_assoc, exists_and_left, exists_eq_left, hdue, ← hpaid]
  exact and_congr_right' ⟨fun h ↦ (ok.inj h).symm, fun h ↦ congrArg _ h.symm⟩

/-- The steps of some kinds are paid if there is enough for all of them. -/
theorem foldlM_spendStepKind_eq_ok_iff (hnodup : kinds.Nodup) (hnonneg : ∀ r, 0 ≤ m.exBudget.of r)
    (hmax : ∀ r, m.exBudget.of r ≤ maxInt64) :
    (kinds.foldlM (spendStepKind costs) m : Except (MachineError Fun Atom) Meter) = .ok m' ↔
      (∀ r, m.due costs kinds r ≤ m.exBudget.of r) ∧ m' = m.paid costs kinds := by
  induction kinds generalizing m with
  | nil =>
    have hpaid : m.paid costs [] = m := by
      rw [paid]
      congr 1
      exact ExBudget.ext (sub_zero _) (sub_zero _)
    rw [hpaid]
    exact ⟨fun h ↦ ⟨hnonneg, (ok.inj h).symm⟩, fun h ↦ congrArg _ h.2.symm⟩
  | cons kind kinds ih =>
    obtain ⟨hmem, hnodup⟩ := nodup_cons.1 hnodup
    -- the others are not touched by paying for the first kind
    have hdue (r : Resource) : (m.paid costs [kind]).due costs kinds r = m.due costs kinds r := by
      refine congrArg sum (map_congr_left fun other hother ↦ ?_)
      have hne : other ∉ [kind] := fun h ↦ hmem (mem_singleton.1 h ▸ hother)
      rw [unbudgetedSteps_paid, if_neg hne]
    have hone (r : Resource) : m.due costs (kind :: kinds) r =
        m.due costs [kind] r + m.due costs kinds r := by
      rw [due_cons, due_cons kind [], add_assoc]
      exact congrArg _ (zero_add _).symm
    have hpaid : (m.paid costs [kind]).paid costs kinds = m.paid costs (kind :: kinds) := by
      refine ext_of (fun r ↦ ?_) (fun other ↦ ?_) rfl
      · rw [of_paid, of_paid, of_paid, hdue, hone, sub_sub]
      · simp only [unbudgetedSteps_paid, mem_cons]
        split_ifs <;> tauto
    have hle_iff : (∀ r, m.due costs (kind :: kinds) r ≤ m.exBudget.of r) ↔
        (∀ r, m.due costs [kind] r ≤ m.exBudget.of r) ∧
          ∀ r, m.due costs kinds r ≤ (m.paid costs [kind]).exBudget.of r := by
      refine ⟨fun hle ↦ ⟨fun r ↦ ?_, fun r ↦ ?_⟩, fun hle r ↦ ?_⟩
      · have hnonneg := due_nonneg hcosts m kinds r
        have hle := hle r
        rw [hone] at hle
        omega
      · have hle := hle r
        rw [hone] at hle
        rw [of_paid]
        omega
      · have hle := hle.2 r
        rw [of_paid] at hle
        rw [hone]
        omega
    -- what is left for the others is in range
    have hrest (hle : ∀ r, m.due costs [kind] r ≤ m.exBudget.of r) :
        (kinds.foldlM (spendStepKind costs) (m.paid costs [kind]) :
          Except (MachineError Fun Atom) Meter) = .ok m' ↔
            (∀ r, m.due costs kinds r ≤ (m.paid costs [kind]).exBudget.of r) ∧
              m' = m.paid costs (kind :: kinds) := by
      rw [ih hnodup, hpaid]
      · simp only [hdue]
      · intro r
        rw [of_paid]
        exact sub_nonneg.2 (hle r)
      · intro r
        rw [of_paid]
        exact (sub_le_self _ (due_nonneg hcosts m [kind] r)).trans (hmax r)
    simp only [foldlM_cons, bind_eq_ok_iff, spendStepKind_eq_ok_iff hcosts hmax, hle_iff, and_assoc,
      exists_and_left, exists_eq_left]
    exact and_congr_right hrest

/-- All steps are paid if and only if the budget covers what is due. -/
theorem spendUnbudgetedSteps_eq_ok_iff (hnonneg : ∀ r, 0 ≤ m.exBudget.of r)
    (hmax : ∀ r, m.exBudget.of r ≤ maxInt64) :
    (m.spendUnbudgetedSteps costs : Except (MachineError Fun Atom) Meter) = .ok m' ↔
      (∀ r, m.due costs enumerate r ≤ m.exBudget.of r) ∧
        m' = new (m.paid costs enumerate).exBudget := by
  have hpaid : { m.paid costs enumerate with unbudgetedTotal := 0 } =
      new (m.paid costs enumerate).exBudget := by
    refine ext_of (fun _ ↦ rfl) (fun kind ↦ ?_) rfl
    exact if_pos kind.mem_enumerate
  simp only [spendUnbudgetedSteps, bind_eq_ok_iff, and_assoc, exists_and_left, exists_eq_left, ← hpaid,
    foldlM_spendStepKind_eq_ok_iff hcosts nodup_enumerate hnonneg hmax]
  exact and_congr_right' ⟨fun h ↦ (ok.inj h).symm, fun h ↦ congrArg _ h.symm⟩

end

/-! ### What a meter is worth -/

/-- What is left once all steps are paid. -/
def worth (costs : MachineCosts) (m : Meter) : ExBudget where
  mem := m.exBudget.mem -
    (enumerate.map fun kind ↦ (costs.step kind).mem * m.unbudgetedSteps kind).sum
  cpu := m.exBudget.cpu -
    (enumerate.map fun kind ↦ (costs.step kind).cpu * m.unbudgetedSteps kind).sum

theorem of_worth (costs : MachineCosts) (m : Meter) (r : Resource) :
    (m.worth costs).of r = m.exBudget.of r -
      (enumerate.map fun kind ↦ (costs.step kind).of r * m.unbudgetedSteps kind).sum := by
  cases r <;> rfl

section

variable (hcosts : ∀ kind r, 0 ≤ (costs.step kind).of r)
include hcosts

/-- A batch costs what its steps cost, unless this is more than 64 bits hold. -/
theorem due_eq_of_lt {r : Resource} (hlt : m.due costs kinds r < maxInt64) :
    m.due costs kinds r =
      (kinds.map fun kind ↦ (costs.step kind).of r * m.unbudgetedSteps kind).sum := by
  refine congrArg sum (map_congr_left fun kind hkind ↦ ?_)
  have hle : ((costs.step kind).scale (m.unbudgetedSteps kind)).of r ≤ m.due costs kinds r := by
    refine single_le_sum (fun price hprice ↦ ?_) _ (mem_map.2 ⟨kind, hkind, rfl⟩)
    obtain ⟨other, -, rfl⟩ := mem_map.1 hprice
    exact scale_nonneg hcosts other _ r
  rw [of_scale] at hle ⊢
  exact saturate_of_lt (mul_nonneg (hcosts kind r) (natCast_nonneg _)) (hle.trans_lt hlt)

/-- What is due is at most the exact price, as products are cut. -/
theorem due_le (kinds : List StepKind) (r : Resource) :
    m.due costs kinds r ≤
      (kinds.map fun kind ↦ (costs.step kind).of r * m.unbudgetedSteps kind).sum := by
  refine sum_le_sum fun kind _ ↦ ?_
  rw [of_scale]
  exact saturate_le (mul_nonneg (hcosts kind r) (natCast_nonneg _))

/-- **All steps are paid if the meter is worth something.** -/
theorem spendUnbudgetedSteps_eq_ok_iff_worth (hnonneg : ∀ r, 0 ≤ m.exBudget.of r)
    (hmax : ∀ r, m.exBudget.of r < maxInt64) :
    (m.spendUnbudgetedSteps costs : Except (MachineError Fun Atom) Meter) = .ok m' ↔
      (∀ r, 0 ≤ (m.worth costs).of r) ∧ m' = new (m.worth costs) := by
  have hworth (hle : ∀ r, m.due costs enumerate r ≤ m.exBudget.of r) :
      (m.paid costs enumerate).exBudget = m.worth costs := by
    refine ExBudget.ext_of fun r ↦ ?_
    rw [of_paid, of_worth, due_eq_of_lt hcosts ((hle r).trans_lt (hmax r))]
  rw [spendUnbudgetedSteps_eq_ok_iff hcosts hnonneg fun r ↦ (hmax r).le]
  constructor
  · rintro ⟨hle, rfl⟩
    refine ⟨fun r ↦ ?_, congrArg new (hworth hle)⟩
    rw [← hworth hle, of_paid]
    exact sub_nonneg.2 (hle r)
  · rintro ⟨hpos, rfl⟩
    have hle (r : Resource) : m.due costs enumerate r ≤ m.exBudget.of r := by
      have hpos := hpos r
      rw [of_worth] at hpos
      exact (due_le hcosts _ r).trans (sub_nonneg.1 hpos)
    exact ⟨hle, congrArg new (hworth hle).symm⟩

/-- A meter is worth at most its budget. -/
theorem worth_le (m : Meter) (r : Resource) : (m.worth costs).of r ≤ m.exBudget.of r := by
  rw [of_worth]
  refine sub_le_self _ (sum_nonneg fun price hprice ↦ ?_)
  obtain ⟨kind, -, rfl⟩ := mem_map.1 hprice
  exact mul_nonneg (hcosts kind r) (natCast_nonneg _)

end

/-- A price that is spent is taken off the worth. -/
theorem worth_sub (costs : MachineCosts) (m : Meter) (budget : ExBudget) :
    worth costs { m with exBudget := m.exBudget - budget } = m.worth costs - budget := by
  refine ExBudget.ext_of fun r ↦ ?_
  rw [of_sub, of_worth, of_worth, of_sub]
  exact sub_right_comm _ _ _

/-- What holds of a meter at any time. -/
structure Valid (m : Meter) : Prop where
  nonneg : ∀ r, 0 ≤ m.exBudget.of r
  le_max : ∀ r, m.exBudget.of r ≤ maxInt64
  total : m.unbudgetedTotal = (enumerate.map m.unbudgetedSteps).sum

/-- The meter with a step counted. -/
def counted (m : Meter) (kind : StepKind) : Meter := { m with
  unbudgetedSteps := update m.unbudgetedSteps kind (m.unbudgetedSteps kind + 1)
  unbudgetedTotal := m.unbudgetedTotal + 1 }

theorem pay_batched_count (costs : MachineCosts) (slippage : ℕ) (m : Meter) (kind : StepKind) :
    (Metering.batched costs slippage : Metering Meter (MachineError Fun Atom)).pay m (.count kind) =
      if (m.counted kind).unbudgetedTotal ≥ slippage then (m.counted kind).spendUnbudgetedSteps costs
      else .ok (m.counted kind) :=
  rfl

/-- Counting a step takes its price off the worth. -/
theorem worth_counted (kind : StepKind) :
    (m.counted kind).worth costs = m.worth costs - costs.step kind := by
  refine ExBudget.ext_of fun r ↦ ?_
  rw [of_sub, of_worth, of_worth, sub_sub]
  cases kind <;> simp [counted, enumerate, update] <;> ring

/-- Counting keeps the meter valid. -/
theorem Valid.counted (h : m.Valid) (kind : StepKind) : (m.counted kind).Valid where
  nonneg := h.nonneg
  le_max := h.le_max
  total := by
    have htotal := h.total
    cases kind <;> simp [Meter.counted, enumerate, update] at htotal ⊢ <;> omega

/-- With nothing counted, the worth is the budget. -/
theorem Valid.worth_eq (h : m.Valid) (costs : MachineCosts) (hzero : m.unbudgetedTotal = 0) :
    m.worth costs = m.exBudget := by
  have hsteps (kind : StepKind) : m.unbudgetedSteps kind = 0 :=
    sum_eq_zero_iff.1 (h.total.symm.trans hzero) _ (mem_map.2 ⟨kind, kind.mem_enumerate, rfl⟩)
  refine ExBudget.ext_of fun r ↦ ?_
  rw [of_worth]
  simp [hsteps]

theorem valid_new (hnonneg : ∀ r, 0 ≤ budget.of r) (hmax : ∀ r, budget.of r ≤ maxInt64) :
    (new budget).Valid where
  nonneg := hnonneg
  le_max := hmax
  total := rfl

theorem worth_new (costs : MachineCosts) (budget : ExBudget) : (new budget).worth costs = budget := by
  refine ExBudget.ext_of fun r ↦ ?_
  rw [of_worth]
  simp [new]

/-- Spending keeps the meter valid. -/
theorem Valid.sub (h : m.Valid) (hprice : ∀ r, 0 ≤ budget.of r)
    (hle : ∀ r, budget.of r ≤ m.exBudget.of r) :
    Valid { m with exBudget := m.exBudget - budget } where
  nonneg r := by
    rw [of_sub]
    exact sub_nonneg.2 (hle r)
  le_max r := by
    rw [of_sub]
    exact (sub_le_self _ (hprice r)).trans (h.le_max r)
  total := h.total

end Meter

/-! ### Both ways of paying are exact -/

/-- The price of a charge. -/
def Charge.price (costs : MachineCosts) : Charge → ExBudget
  | .count kind => costs.step kind
  | .spend budget => budget
  | .settle => { mem := 0, cpu := 0 }

/-- A charge of a step or of a builtin function. -/
inductive Charge.Payable : Charge → Prop
  | count (kind : StepKind) : Payable (.count kind)
  | spend {budget} (hprice : ∀ r, 0 ≤ budget.of r) : Payable (.spend budget)

/-- A way of paying charges lowers what a meter is worth by their prices, fails only if this is not enough,
and shows it in the end. -/
structure Exact {Fun Atom : Type} (costs : MachineCosts) (metering : Metering Meter (MachineError Fun Atom))
    (Inv : Meter → Prop) (worth : Meter → ExBudget) : Prop where
  ok : ∀ {m m' charge}, Inv m → charge.Payable → metering.pay m charge = .ok m' →
    Inv m' ∧ worth m' = worth m - charge.price costs
  error : ∀ {m charge error}, Inv m → charge.Payable → metering.pay m charge = .error error →
    ∃ r, (worth m).of r < (charge.price costs).of r
  settle : ∀ {m left}, Inv m →
    ((∃ m', metering.settle m = .ok m' ∧ m'.exBudget = left) ↔
      left = worth m ∧ ∀ r, 0 ≤ left.of r)

section Exact

variable {Fun Atom : Type} {costs : MachineCosts} {metering : Metering Meter (MachineError Fun Atom)}
  {Inv : Meter → Prop} {worth : Meter → ExBudget} {charges : List Charge}

/-- What is left of a budget after charges. -/
def remaining (costs : MachineCosts) (budget : ExBudget) (charges : List Charge) : ExBudget :=
  charges.foldl (fun budget charge ↦ budget - charge.price costs) budget

variable (hcosts : ∀ kind r, 0 ≤ (costs.step kind).of r)
include hcosts

/-- Prices are not negative. -/
theorem Charge.Payable.price_nonneg (h : charge.Payable) (r : Resource) : 0 ≤ (charge.price costs).of r := by
  cases h with
  | count kind => exact hcosts kind r
  | spend hprice => exact hprice r

/-- Charges do not raise the budget. -/
theorem remaining_le (hpayable : ∀ charge ∈ charges, charge.Payable) (budget : ExBudget) (r : Resource) :
    (remaining costs budget charges).of r ≤ budget.of r := by
  induction charges generalizing budget with
  | nil => exact le_rfl
  | cons charge charges ih =>
    obtain ⟨hcharge, hpayable⟩ := forall_mem_cons.1 hpayable
    refine (ih hpayable (budget - charge.price costs)).trans ?_
    rw [of_sub]
    exact sub_le_self _ (hcharge.price_nonneg hcosts r)

/-- **All charges are paid if there is enough for all of them, and this is what is left.** -/
theorem Exact.payAll_iff (hexact : Exact costs metering Inv worth)
    (hpayable : ∀ charge ∈ charges, charge.Payable) {m} (hinv : Inv m) {left} :
    (∃ m', payAll metering m (charges ++ [.settle]) = .ok m' ∧ m'.exBudget = left) ↔
      left = remaining costs (worth m) charges ∧ ∀ r, 0 ≤ left.of r := by
  induction charges generalizing m with
  | nil =>
    have hsettle : payAll metering m [.settle] = metering.settle m := by
      rw [payAll, foldlM_cons]
      exact bind_pure _
    rw [nil_append, hsettle]
    exact hexact.settle hinv
  | cons charge charges ih =>
    obtain ⟨hcharge, hpayable⟩ := forall_mem_cons.1 hpayable
    rw [cons_append, payAll, foldlM_cons]
    rcases hpay : metering.pay m charge with error | next
    · refine iff_of_false (fun hpaid ↦ by cases hpaid.choose_spec.1) ?_
      -- the charge alone is more than there is
      rintro ⟨rfl, hnonneg⟩
      obtain ⟨r, hlt⟩ := hexact.error hinv hcharge hpay
      have hle := remaining_le hcosts hpayable (worth m - charge.price costs) r
      rw [of_sub] at hle
      have hnonneg : 0 ≤ (remaining costs (worth m - charge.price costs) charges).of r := hnonneg r
      omega
    · obtain ⟨hinv, hworth⟩ := hexact.ok hinv hcharge hpay
      have hrest := ih hpayable hinv
      rw [hworth] at hrest
      exact hrest

/-- Paying each step at once is exact. -/
theorem exact_immediate :
    Exact costs (.immediate costs : Metering Meter (MachineError Fun Atom)) Meter.Valid exBudget := by
  have hpay {charge : Charge} (hcharge : charge.Payable) (m : Meter) :
      (Metering.immediate costs : Metering Meter (MachineError Fun Atom)).pay m charge =
        m.spendBudget (charge.price costs) := by
    cases hcharge <;> rfl
  constructor
  · intro m m' charge hvalid hcharge h
    rw [hpay hcharge] at h
    have hprice := hcharge.price_nonneg hcosts
    obtain ⟨hle, rfl⟩ := (spendBudget_eq_ok_iff hvalid.le_max hprice).1 h
    exact ⟨hvalid.sub hprice hle, rfl⟩
  · intro m charge error hvalid hcharge h
    rw [hpay hcharge] at h
    exact exists_lt_of_spendBudget_eq_error hvalid.le_max (hcharge.price_nonneg hcosts) h
  · intro m left hvalid
    constructor
    · rintro ⟨m', h, rfl⟩
      cases h
      exact ⟨rfl, hvalid.nonneg⟩
    · rintro ⟨rfl, -⟩
      exact ⟨m, rfl, rfl⟩

/-- Paying in batches is exact, in what the meter is worth. -/
theorem exact_batched (slippage : ℕ) :
    Exact costs (.batched costs slippage : Metering Meter (MachineError Fun Atom))
      (fun m ↦ m.Valid ∧ ∀ r, m.exBudget.of r < maxInt64) (Meter.worth costs) := by
  -- when all steps are paid, the meter shows what it is worth
  have hnew {m : Meter} (hmax : ∀ r, m.exBudget.of r < maxInt64)
      (hnonneg : ∀ r, 0 ≤ (m.worth costs).of r) :
      (new (m.worth costs)).Valid ∧ ∀ r, (m.worth costs).of r < maxInt64 := by
    have hlt (r : Resource) : (m.worth costs).of r < maxInt64 :=
      (worth_le hcosts m r).trans_lt (hmax r)
    exact ⟨valid_new hnonneg fun r ↦ (hlt r).le, hlt⟩
  constructor
  · rintro m m' charge ⟨hvalid, hmax⟩ hcharge h
    cases hcharge with
    | spend hprice =>
      obtain ⟨hle, rfl⟩ := (spendBudget_eq_ok_iff hvalid.le_max hprice).1 h
      refine ⟨⟨hvalid.sub hprice hle, fun r ↦ ?_⟩, worth_sub costs m _⟩
      rw [of_sub]
      exact (sub_le_self _ (hprice r)).trans_lt (hmax r)
    | count kind =>
      have hworth : (m.counted kind).worth costs = m.worth costs - costs.step kind :=
        worth_counted kind
      rw [pay_batched_count] at h
      split_ifs at h with hbatch
      · obtain ⟨hnonneg, rfl⟩ := (spendUnbudgetedSteps_eq_ok_iff_worth hcosts
          (hvalid.counted kind).nonneg hmax).1 h
        exact ⟨hnew hmax hnonneg, (worth_new costs _).trans hworth⟩
      · cases h
        exact ⟨⟨hvalid.counted kind, hmax⟩, hworth⟩
  · rintro m charge error ⟨hvalid, hmax⟩ hcharge h
    cases hcharge with
    | spend hprice =>
      obtain ⟨r, hlt⟩ := exists_lt_of_spendBudget_eq_error hvalid.le_max hprice h
      exact ⟨r, (worth_le hcosts m r).trans_lt hlt⟩
    | count kind =>
      rw [pay_batched_count] at h
      split_ifs at h with hbatch
      by_contra hlt
      have hnonneg (r : Resource) : 0 ≤ ((m.counted kind).worth costs).of r := by
        rw [worth_counted, of_sub]
        exact sub_nonneg.2 (not_lt.1 fun hr ↦ hlt ⟨r, hr⟩)
      rw [(spendUnbudgetedSteps_eq_ok_iff_worth hcosts (hvalid.counted kind).nonneg hmax).2
        ⟨hnonneg, rfl⟩] at h
      cases h
  · rintro m left ⟨hvalid, hmax⟩
    change (∃ m', m.settle costs = .ok m' ∧ _) ↔ _
    rw [Meter.settle]
    split_ifs with htotal
    · constructor
      · rintro ⟨m', h, rfl⟩
        obtain ⟨hnonneg, rfl⟩ := (spendUnbudgetedSteps_eq_ok_iff_worth hcosts hvalid.nonneg hmax).1 h
        exact ⟨rfl, hnonneg⟩
      · rintro ⟨rfl, hnonneg⟩
        exact ⟨_, (spendUnbudgetedSteps_eq_ok_iff_worth hcosts hvalid.nonneg hmax).2 ⟨hnonneg, rfl⟩, rfl⟩
    · have hworth := hvalid.worth_eq costs (Nat.eq_zero_of_not_pos htotal)
      constructor
      · rintro ⟨m', h, rfl⟩
        cases h
        exact ⟨hworth.symm, hvalid.nonneg⟩
      · rintro ⟨rfl, -⟩
        exact ⟨m, rfl, hworth.symm⟩

end Exact

end Amaru.Uplc
