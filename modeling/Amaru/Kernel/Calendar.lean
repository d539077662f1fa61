import Amaru.Kernel.EraHistory

/-!
# Epochs follow each other

A history of eras is **chained** if each era ends where the next begins, after a whole number of its epochs,
and the last era has no end. Then every epoch begins at a slot (`exists_epochStart`), and the epoch of a slot
is the one between whose first slot and that of the next the slot is (`exists_slotToEpoch`), in whichever era.
-/

namespace Amaru

open Nat EraSummary

namespace EraHistory

/-- Each era ends where the next begins. The calendar `PREVIEW_ERA_HISTORY` is not of this kind: its second
era ends at epoch 0, and its third begins at epoch 5. -/
inductive Chained : List EraSummary → Prop
  | last {era} (hend : era.endBound = none) (hsize : 0 < era.params.epochSizeSlots) : Chained [era]
  | cons {era next eras} (epochs : ℕ) (hend : era.endBound = some next.start)
    (hslot : next.start.slot = era.start.slot + epochs * era.params.epochSizeSlots)
    (hepoch : next.start.epoch = era.start.epoch + epochs) (hsize : 0 < era.params.epochSizeSlots)
    (hnext : Chained (next :: eras)) : Chained (era :: next :: eras)

section

variable {era next : EraSummary} {eras : List EraSummary} {epoch slot window start size : ℕ}

/-- The last era goes on forever. -/
theorem containsEpochUncheckedHorizon_of_none (hend : era.endBound = none) :
    era.containsEpochUncheckedHorizon epoch = true := by
  rw [containsEpochUncheckedHorizon, hend]
  rfl

/-- An era that has ended has the epochs before its end. -/
theorem containsEpochUncheckedHorizon_of_some {bound} (hend : era.endBound = some bound) :
    era.containsEpochUncheckedHorizon epoch = decide (epoch < bound.epoch) := by
  rw [containsEpochUncheckedHorizon, hend]
  rfl

/-- The first epoch of an era starts with it. -/
theorem epochStart_first : ∀ {era} {eras}, Chained (era :: eras) →
    epochStart era.start.epoch (era :: eras) = .ok era.start.slot
  | _, _, .last hend hsize => by
    rw [epochStart, if_neg (lt_irrefl _), if_pos (containsEpochUncheckedHorizon_of_none hend), Nat.sub_self,
      zero_mul, add_zero]
  | _, _, .cons epochs hend hslot hepoch hsize hnext => by
    rw [epochStart, if_neg (lt_irrefl _), containsEpochUncheckedHorizon_of_some hend]
    split_ifs with hlt
    · rw [Nat.sub_self, Nat.zero_mul, Nat.add_zero]
    have hzero : epochs = 0 := by
      have := of_decide_eq_false (Bool.eq_false_of_not_eq_true hlt)
      omega
    rw [hzero, add_zero] at hepoch
    rw [hzero, zero_mul, add_zero] at hslot
    rw [← hepoch, ← hslot]
    exact epochStart_first hnext

/-- Epochs of the last era are all of one size. -/
theorem epochStart_last (hend : era.endBound = none) (hle : era.start.epoch ≤ epoch) :
    epochStart epoch [era] =
      .ok (era.start.slot + (epoch - era.start.epoch) * era.params.epochSizeSlots) := by
  rw [epochStart, if_neg (not_lt.2 hle), if_pos (containsEpochUncheckedHorizon_of_none hend)]

/-- An epoch of an era with an end, or of a later era. -/
theorem epochStart_cons (hend : era.endBound = some next.start) (hle : era.start.epoch ≤ epoch) :
    epochStart epoch (era :: next :: eras) =
      if epoch < next.start.epoch then
        .ok (era.start.slot + (epoch - era.start.epoch) * era.params.epochSizeSlots)
      else epochStart epoch (next :: eras) := by
  rw [epochStart, if_neg (not_lt.2 hle), containsEpochUncheckedHorizon_of_some hend]
  simp only [decide_eq_true_eq]

/-- An era with an end begins its epochs at regular slots, up to and with the end. -/
theorem epochStart_of_le {epochs : ℕ} (hend : era.endBound = some next.start)
    (hslot : next.start.slot = era.start.slot + epochs * era.params.epochSizeSlots)
    (hepoch : next.start.epoch = era.start.epoch + epochs) (hnext : Chained (next :: eras))
    (hle : era.start.epoch ≤ epoch) (hle' : epoch ≤ next.start.epoch) :
    epochStart epoch (era :: next :: eras) =
      .ok (era.start.slot + (epoch - era.start.epoch) * era.params.epochSizeSlots) := by
  rw [epochStart_cons hend hle]
  split_ifs with hlt
  · rfl
  · obtain rfl : epoch = next.start.epoch := by omega
    rw [epochStart_first hnext, hslot, hepoch, Nat.add_sub_cancel_left]

/-- Every epoch has a start, which is before that of the next. -/
theorem exists_epochStart : ∀ {era} {eras}, Chained (era :: eras) →
    era.start.epoch ≤ epoch → ∃ start stop, epochStart epoch (era :: eras) = .ok start ∧
      epochStart (epoch + 1) (era :: eras) = .ok stop ∧ start < stop
  | _, _, .last hend hsize, hle => by
    refine ⟨_, _, epochStart_last hend hle, epochStart_last hend (by omega), ?_⟩
    rw [Nat.sub_add_comm hle, Nat.succ_mul]
    omega
  | _, next :: _, .cons epochs hend hslot hepoch hsize hnext, hle => by
    by_cases hlt : epoch < next.start.epoch
    · refine ⟨_, _, epochStart_of_le hend hslot hepoch hnext hle hlt.le,
        epochStart_of_le hend hslot hepoch hnext (by omega) hlt, ?_⟩
      rw [Nat.sub_add_comm hle, Nat.succ_mul]
      omega
    · obtain ⟨start, stop, hstart, hstop, hlt'⟩ := exists_epochStart hnext (not_lt.1 hlt)
      refine ⟨start, stop, ?_, ?_, hlt'⟩
      · rw [epochStart_cons hend hle, if_neg hlt, hstart]
      · rw [epochStart_cons hend (by omega), if_neg (by omega), hstop]

/-- Only epochs of the calendar have a start. -/
theorem start_le_of_epochStart (h : epochStart epoch (era :: eras) = .ok start) :
    era.start.epoch ≤ epoch := by
  rw [epochStart] at h
  split_ifs at h with hlt
  · exact not_lt.1 hlt
  · exact not_lt.1 hlt

/-- Later epochs do not start earlier. -/
theorem epochStart_mono (h : Chained (era :: eras)) {epoch' start' : ℕ} (hle : epoch ≤ epoch')
    (hstart : epochStart epoch (era :: eras) = .ok start)
    (hstart' : epochStart epoch' (era :: eras) = .ok start') : start ≤ start' := by
  induction hle generalizing start' with
  | refl => exact (Except.ok.inj (hstart.symm.trans hstart')).le
  | @step epoch' hle ih =>
    obtain ⟨middle, stop, hmiddle, hstop, hlt⟩ := exists_epochStart h
      ((start_le_of_epochStart hstart).trans hle)
    obtain rfl : stop = start' := Except.ok.inj (hstop.symm.trans hstart')
    exact (ih hmiddle).trans hlt.le

/-- An epoch has ended when a later one starts. -/
theorem epochStart_le {all} (h : Chained all) {epoch' stop start'} (hlt : epoch < epoch')
    (hstop : epochStart (epoch + 1) all = .ok stop) (hstart' : epochStart epoch' all = .ok start') :
    stop ≤ start' := by
  cases h with
  | last hend hsize => exact epochStart_mono (.last hend hsize) hlt hstop hstart'
  | cons epochs hend hslot hepoch hsize hnext =>
    exact epochStart_mono (.cons epochs hend hslot hepoch hsize hnext) hlt hstop hstart'

/-- No epoch starts before the calendar. -/
theorem le_of_epochStart (h : Chained (era :: eras))
    (hstart : epochStart epoch (era :: eras) = .ok start) : era.start.slot ≤ start :=
  epochStart_mono h (start_le_of_epochStart hstart) (epochStart_first h) hstart

/-- Rounding up to whole epochs. -/
theorem le_roundedUp (slots : ℕ) (hsize : 0 < size) :
    slots ≤ (slots / size + if slots % size = 0 then 0 else 1) * size := by
  have hmod := div_add_mod slots size
  have hlt := mod_lt slots hsize
  split_ifs with hzero
  · rw [add_zero, mul_comm]
    omega
  · rw [add_mul, mul_comm, one_mul]
    omega

/-- A slot of the last era and its epoch are within the horizon from that slot. -/
theorem lt_calculateEndBound (hsize : 0 < era.params.epochSizeSlots) (hle : era.start.slot ≤ slot)
    (window : ℕ) :
    slot < (era.calculateEndBound slot window).slot ∧
      era.start.epoch + (slot - era.start.slot) / era.params.epochSizeSlots
        < (era.calculateEndBound slot window).epoch := by
  have hround := le_roundedUp (max era.start.slot (slot + 1) + window - era.start.slot) hsize
  rw [calculateEndBound]
  dsimp only
  refine ⟨by omega, Nat.add_lt_add_left ((Nat.div_lt_iff_lt_mul hsize).2 ?_) _⟩
  omega

/-- The epoch of a slot of the era. -/
theorem slotToEpoch_eq (hle : era.start.slot ≤ slot) : era.slotToEpoch slot =
    .ok (era.start.epoch + (slot - era.start.slot) / era.params.epochSizeSlots) := by
  rw [EraSummary.slotToEpoch, if_neg (not_lt.2 hle)]

/-- A slot is between the start of its epoch and that of the next. -/
theorem div_mul_bounds (hsize : 0 < size) (hle : era.start.slot ≤ slot) (epoch : ℕ) :
    era.start.slot + (epoch + (slot - era.start.slot) / size - epoch) * size ≤ slot ∧
      slot < era.start.slot + (epoch + (slot - era.start.slot) / size + 1 - epoch) * size := by
  have hdiv := div_add_mod (slot - era.start.slot) size
  have hlt := mod_lt (slot - era.start.slot) hsize
  rw [Nat.add_assoc, Nat.add_sub_cancel_left, Nat.add_sub_cancel_left, add_mul, one_mul, mul_comm]
  omega

/-- **A slot is in the epoch that begins before it**, and the next begins after it. -/
theorem exists_slotToEpoch : ∀ {era} {eras}, Chained (era :: eras) →
    era.start.slot ≤ slot → ∀ window, ∃ epoch start stop,
      findEra slot (fun era ↦ era.containsSlot slot slot window)
        (fun era ↦ era.slotToEpoch slot) .pastTimeHorizon (era :: eras) = .ok epoch ∧
      era.start.epoch ≤ epoch ∧ epochStart epoch (era :: eras) = .ok start ∧
      epochStart (epoch + 1) (era :: eras) = .ok stop ∧ start ≤ slot ∧ slot < stop
  | _, _, .last hend hsize, hle, window => by
    refine ⟨_, _, _, ?_, le_add_right _ _, epochStart_last hend (le_add_right _ _),
      epochStart_last hend ((le_add_right _ _).trans (le_succ _)), div_mul_bounds hsize hle _⟩
    rw [findEra, if_neg (not_lt.2 hle), if_pos, slotToEpoch_eq hle]
    rw [containsSlot, if_neg (by simp [isEmpty, hend]), hend]
    exact decide_eq_true (lt_calculateEndBound hsize hle window).1.le
  | current, next :: _, .cons epochs hend hslot hepoch hsize hnext, hle, window => by
    rw [findEra, if_neg (not_lt.2 hle)]
    split_ifs with hreaches
    · rw [containsSlot] at hreaches
      split_ifs at hreaches
      rw [hend] at hreaches
      have hslot' : slot ≤ next.start.slot := of_decide_eq_true hreaches
      rw [slotToEpoch_eq hle]
      rcases hslot'.lt_or_eq with hlt | rfl
      · have hlt' : (slot - current.start.slot) / current.params.epochSizeSlots < epochs :=
          (div_lt_iff_lt_mul hsize).2 (by omega)
        refine ⟨_, _, _, rfl, le_add_right _ _, epochStart_of_le hend hslot hepoch hnext
          (le_add_right _ _) (by omega), epochStart_of_le hend hslot hepoch hnext
            ((le_add_right _ _).trans (le_succ _)) (by omega), div_mul_bounds hsize hle _⟩
      · -- the end of an era is reached by the era, and is the first slot of the next
        have hepochs : (next.start.slot - current.start.slot) / current.params.epochSizeSlots = epochs := by
          rw [hslot, Nat.add_sub_cancel_left, Nat.mul_div_cancel _ hsize]
        obtain ⟨start, stop, hfirst, hsecond, hlt⟩ := exists_epochStart hnext le_rfl
        cases (epochStart_first hnext).symm.trans hfirst
        rw [hepochs, ← hepoch]
        refine ⟨_, _, _, rfl, by omega, ?_, ?_, le_rfl, hlt⟩
        · rw [epochStart_cons hend (by omega), if_neg (lt_irrefl _), hfirst]
        · rw [epochStart_cons hend (by omega), if_neg (by omega), hsecond]
    · have hle' : next.start.slot ≤ slot := by
        rw [containsSlot] at hreaches
        split_ifs at hreaches with hempty
        · rw [isEmpty, hend, beq_iff_eq] at hempty
          rw [Option.some.inj hempty]
          exact hle
        · rw [hend] at hreaches
          exact (Nat.lt_of_not_le fun h ↦ hreaches (decide_eq_true h)).le
      obtain ⟨epoch, start, stop, hfound, hfrom, hfirst, hsecond, hbounds⟩ :=
        exists_slotToEpoch hnext hle' window
      refine ⟨epoch, start, stop, hfound, by omega, ?_, ?_, hbounds⟩
      · rw [epochStart_cons hend (by omega), if_neg (by omega), hfirst]
      · rw [epochStart_cons hend (by omega), if_neg (by omega), hsecond]

/-- The search over the eras finds the start of the next epoch. -/
theorem findNextEpochFirstSlot_eq : ∀ {era} {eras}, Chained (era :: eras) →
    era.start.epoch ≤ epoch → epochStart epoch (era :: eras) = .ok start → start ≤ slot → ∀ window,
      findNextEpochFirstSlot epoch slot window (era :: eras) = epochStart (epoch + 1) (era :: eras)
  | current, _, .last hend hsize, hle, hstart, hslot, window => by
    rw [epochStart_last hend hle] at hstart
    cases hstart
    have hbound := (lt_calculateEndBound hsize ((le_add_right _ _).trans hslot) window).2
    have hepoch : epoch < (current.calculateEndBound slot window).epoch := by
      refine lt_of_le_of_lt ?_ hbound
      have : epoch - current.start.epoch ≤ (slot - current.start.slot) / current.params.epochSizeSlots :=
        (le_div_iff_mul_le hsize).2 (by omega)
      omega
    rw [findNextEpochFirstSlot, if_neg (not_lt.2 hle), if_pos, epochStart_last hend (by omega),
      Nat.sub_add_comm hle, Nat.add_comm current.start.slot]
    rw [containsEpoch, hend]
    exact decide_eq_true hepoch
  | current, next :: _, .cons epochs hend hslot hepoch hsize hnext, hle, hstart, hslot', window => by
    rw [findNextEpochFirstSlot, if_neg (not_lt.2 hle), containsEpoch, hend, Option.map_some, Option.getD_some]
    by_cases hlt : epoch < next.start.epoch
    · rw [if_pos (decide_eq_true hlt), epochStart_of_le hend hslot hepoch hnext (by omega) (by omega),
        Nat.sub_add_comm hle, Nat.add_comm current.start.slot]
    · rw [epochStart_cons hend hle, if_neg hlt] at hstart
      rw [if_neg fun h ↦ hlt (of_decide_eq_true h), epochStart_cons hend (by omega), if_neg (by omega)]
      exact findNextEpochFirstSlot_eq hnext (not_lt.1 hlt) hstart hslot' window

/-- **The epoch of a slot is the one that begins before it and ends after it.** -/
theorem slotToEpoch_eq_ok_iff (h : Chained (era :: eras)) (hslot : era.start.slot ≤ slot) :
    slotToEpoch ⟨window, era :: eras⟩ slot slot = .ok epoch ↔
      ∃ start stop, epochStart epoch (era :: eras) = .ok start ∧
        nextEpochFirstSlot ⟨window, era :: eras⟩ epoch slot = .ok stop ∧ start ≤ slot ∧ slot < stop := by
  obtain ⟨found, first, last, hfound, hfrom, hfirst, hlast, hle, hlt⟩ := exists_slotToEpoch h hslot window
  rw [slotToEpoch, hfound]
  constructor
  · intro heq
    cases heq
    refine ⟨first, last, hfirst, ?_, hle, hlt⟩
    rw [nextEpochFirstSlot, findNextEpochFirstSlot_eq h hfrom hfirst hle, hlast]
  · rintro ⟨start, stop, hstart, hstop, hle', hlt'⟩
    rw [nextEpochFirstSlot, findNextEpochFirstSlot_eq h (start_le_of_epochStart hstart) hstart hle'] at hstop
    -- of two epochs, the earlier one ends before the later one begins
    rcases lt_trichotomy found epoch with hbefore | rfl | hafter
    · have := epochStart_le h hbefore hlast hstart
      omega
    · rfl
    · have := epochStart_le h hafter hstop hfirst
      omega

/-- Slot 27, in the second of two eras. -/
theorem slotToEpoch_eq_ok_iff_twoEras :
    let eras : List EraSummary := [⟨⟨0, 0, 0⟩, some ⟨20, 20, 2⟩, ⟨10, 1⟩⟩, ⟨⟨20, 20, 2⟩, none, ⟨5, 1⟩⟩]
    slotToEpoch ⟨3, eras⟩ 27 27 = .ok 3 ↔ ∃ start stop, epochStart 3 eras = .ok start ∧
      nextEpochFirstSlot ⟨3, eras⟩ 3 27 = .ok stop ∧ start ≤ 27 ∧ 27 < stop :=
  slotToEpoch_eq_ok_iff (.cons 2 rfl rfl rfl (by decide) (.last rfl (by decide))) (by decide)

end

end EraHistory

end Amaru
