import Amaru.Kernel.Basic

/-!
# The calendar

The history of eras, which turns slots into epochs. Conversions walk the eras in order and answer
from the first one that reaches the slot; the last era has no end, and the checked conversions
bound it by the horizon that is foreseeable from a tip.
-/

namespace Amaru

/-- A bound of an era, on each of its three scales. -/
structure EraBound where
  time : ℕ
  slot : ℕ
  epoch : ℕ
deriving DecidableEq, Repr, Inhabited

/-- The parameters of an era. -/
structure EraParams where
  epochSizeSlots : ℕ
  slotLength : ℕ
deriving DecidableEq, Repr, Inhabited

/-- An era: its bounds, the last era having no end, and its parameters. -/
structure EraSummary where
  start : EraBound
  endBound : Option EraBound
  params : EraParams
deriving DecidableEq, Repr, Inhabited

/-- Why a conversion failed. -/
inductive EraHistoryError
  | pastTimeHorizon
  | invalidEraHistory
  | slotArithmetic
deriving DecidableEq, Repr

namespace EraSummary

variable (era : EraSummary)

/-- An era without slots. -/
def isEmpty : Bool := era.endBound == some era.start

/-- The virtual end of the last era, as foreseeable from a tip. -/
def calculateEndBound (tip stabilityWindow : ℕ) : EraBound :=
  let endOfStableWindow := max era.start.slot (tip + 1) + stabilityWindow
  let deltaSlots := endOfStableWindow - era.start.slot
  let deltaEpochs := deltaSlots / era.params.epochSizeSlots +
    if deltaSlots % era.params.epochSizeSlots = 0 then 0 else 1
  let foreseeableSlots := deltaEpochs * era.params.epochSizeSlots
  { time := era.start.time + era.params.slotLength * foreseeableSlots
    slot := era.start.slot + foreseeableSlots
    epoch := era.start.epoch + deltaEpochs }

/-- Whether the era reaches a slot, within the foreseeable horizon. -/
def containsSlot (slot tip stabilityWindow : ℕ) : Bool :=
  if era.isEmpty then false
  else
    let bound := (era.endBound.map EraBound.slot).getD (era.calculateEndBound tip stabilityWindow).slot
    decide (slot ≤ bound)

/-- Whether the era reaches a slot, whatever the horizon. -/
def containsSlotUncheckedHorizon (slot : ℕ) : Bool :=
  if era.isEmpty then false else (era.endBound.map fun bound ↦ decide (slot ≤ bound.slot)).getD true

/-- Whether the era reaches an epoch, whatever the horizon. -/
def containsEpochUncheckedHorizon (epoch : ℕ) : Bool :=
  (era.endBound.map fun bound ↦ decide (epoch < bound.epoch)).getD true

/-- Whether the era reaches an epoch, within the foreseeable horizon. -/
def containsEpoch (epoch tip stabilityWindow : ℕ) : Bool :=
  epoch < (era.endBound.map EraBound.epoch).getD (era.calculateEndBound tip stabilityWindow).epoch

/-- The epoch of a slot of the era. -/
def slotToEpoch (slot : ℕ) : Except EraHistoryError ℕ :=
  if slot < era.start.slot then .error .invalidEraHistory
  else .ok (era.start.epoch + (slot - era.start.slot) / era.params.epochSizeSlots)

end EraSummary

/-- The history of eras, with the window within which the chain is bound to grow. -/
structure EraHistory where
  stabilityWindow : ℕ
  eras : List EraSummary
deriving DecidableEq, Repr

namespace EraHistory

/-- Answer from the first era that reaches the slot. -/
def findEra {α : Type*} (slot : ℕ) (reaches : EraSummary → Bool)
    (answer : EraSummary → Except EraHistoryError α) (exhausted : EraHistoryError) :
    List EraSummary → Except EraHistoryError α
  | [] => .error exhausted
  | era :: eras =>
    if slot < era.start.slot then .error .invalidEraHistory
    else if reaches era then answer era
    else findEra slot reaches answer exhausted eras

/-- The epoch of a slot that is foreseeable from a tip. -/
def slotToEpoch (history : EraHistory) (slot tip : ℕ) : Except EraHistoryError ℕ :=
  findEra slot (fun era ↦ era.containsSlot slot tip history.stabilityWindow)
    (fun era ↦ era.slotToEpoch slot) .pastTimeHorizon history.eras

/-- The epoch of a slot, whatever the horizon. -/
def slotToEpochUncheckedHorizon (history : EraHistory) (slot : ℕ) : Except EraHistoryError ℕ :=
  findEra slot (fun era ↦ era.containsSlotUncheckedHorizon slot)
    (fun era ↦ era.slotToEpoch slot) .invalidEraHistory history.eras

/-- The first slot of an epoch. -/
def epochStart (epoch : ℕ) : List EraSummary → Except EraHistoryError ℕ
  | [] => .error .invalidEraHistory
  | era :: eras =>
    if epoch < era.start.epoch then .error .invalidEraHistory
    else if era.containsEpochUncheckedHorizon epoch then
      .ok (era.start.slot + (epoch - era.start.epoch) * era.params.epochSizeSlots)
    else epochStart epoch eras

/-- The first slot after an epoch that is foreseeable from a tip. -/
def findNextEpochFirstSlot (epoch tip stabilityWindow : ℕ) : List EraSummary → Except EraHistoryError ℕ
  | [] => .error .pastTimeHorizon
  | era :: eras =>
    if epoch < era.start.epoch then .error .invalidEraHistory
    else if era.containsEpoch epoch tip stabilityWindow then
      .ok ((epoch - era.start.epoch + 1) * era.params.epochSizeSlots + era.start.slot)
    else findNextEpochFirstSlot epoch tip stabilityWindow eras

/-- The first slot after an epoch that is foreseeable from a tip. -/
def nextEpochFirstSlot (history : EraHistory) (epoch tip : ℕ) : Except EraHistoryError ℕ :=
  findNextEpochFirstSlot epoch tip history.stabilityWindow history.eras

/-- The position of a slot within its epoch. -/
def slotInEpoch (history : EraHistory) (slot tip : ℕ) : Except EraHistoryError ℕ := do
  let epoch ← history.slotToEpoch slot tip
  let start ← epochStart epoch history.eras
  if slot < start then .error .slotArithmetic else .ok (slot - start)

/-- The position within its epoch of a slot that is the tip, zero where there is none. -/
def slotInEpochOrDefault (history : EraHistory) (slot : ℕ) : ℕ :=
  match history.slotInEpoch slot slot with
  | .ok relativeSlot => relativeSlot
  | .error _ => 0

end EraHistory

end Amaru
