import Amaru.Uplc.Term
import Mathlib.Algebra.Order.Ring.Int
import Mathlib.Data.Nat.Notation

/-!
# The machine

The machine evaluates a term in an environment, with a stack of frames. How it is charged is a part of its
own (`Metering`): a step of a kind is counted, a builtin function is paid for, and in the end what is due is
settled.

The machine that is used only counts steps at first, and their price is **spent in batches**
(`Metering.batched`), while that of a builtin function is spent at once. Arithmetic on budgets saturates.
-/

namespace Amaru.Uplc

open List

/-! ### Budgets -/

/-- The largest number of 64 bits. -/
def maxInt64 : ℤ := 2 ^ 63 - 1

/-- The least number of 64 bits. -/
def minInt64 : ℤ := -2 ^ 63

/-- The number of 64 bits that is closest. -/
def saturate (i : ℤ) : ℤ := max minInt64 (min maxInt64 i)

/-- Memory and time. -/
@[ext]
structure ExBudget where
  mem : ℤ
  cpu : ℤ
deriving DecidableEq, Repr

/-- The price of `n` steps. -/
def ExBudget.scale (budget : ExBudget) (n : ℕ) : ExBudget where
  mem := saturate (budget.mem * n)
  cpu := saturate (budget.cpu * n)

/-- What is charged for. -/
inductive StepKind
  | constant
  | var
  | lambda
  | apply
  | delay
  | force
  | builtin
  | constr
  | case
deriving DecidableEq, Repr

/-- All kinds of steps, in the order in which they are paid. -/
def StepKind.enumerate : List StepKind :=
  [.constant, .var, .lambda, .apply, .delay, .force, .builtin, .constr, .case]

/-- The prices of steps. -/
structure MachineCosts where
  startup : ExBudget
  constant : ExBudget
  var : ExBudget
  lambda : ExBudget
  delay : ExBudget
  force : ExBudget
  apply : ExBudget
  constr : ExBudget
  case : ExBudget
  builtin : ExBudget

/-- The price of a step. -/
def MachineCosts.step (costs : MachineCosts) : StepKind → ExBudget
  | .constant => costs.constant
  | .var => costs.var
  | .lambda => costs.lambda
  | .apply => costs.apply
  | .delay => costs.delay
  | .force => costs.force
  | .builtin => costs.builtin
  | .constr => costs.constr
  | .case => costs.case

/-- The prices of steps and of builtin functions. -/
structure CostModel (Fun Atom : Type) where
  machineCosts : MachineCosts
  builtinCosts : Fun → List (View Atom) → ExBudget
  caseOnConstants : CaseOnConstants

/-! ### Values -/

/-- A value. -/
inductive Value (Fun Atom : Type)
  | con (c : Constant Atom)
  | lambda (body : Term Fun Atom) (env : List (Value Fun Atom))
  /-- A function that was forced and applied; the last argument comes first. -/
  | builtin (f : Fun) (forces : ℕ) (args : List (Value Fun Atom))
  | delay (body : Term Fun Atom) (env : List (Value Fun Atom))
  | constr (tag : ℕ) (fields : List (Value Fun Atom))

/-- The value of a variable, which are counted from 1. -/
def Env.lookup {α : Type} : List α → ℕ → Option α
  | _, 0 => none
  | [], _ + 1 => none
  | data :: _, 1 => some data
  | _ :: next, index + 2 => lookup next (index + 1)

/-- The arguments of a function, from the last to the first. -/
abbrev Arguments (α : Type) := List α

/-- The argument at an index, in the order of application. -/
def Arguments.get? {α : Type} (args : Arguments α) (index : ℕ) : Option α :=
  if index ≥ args.length then none else args[args.length - index - 1]?

/-- The arguments in the order of application. -/
def Arguments.iter {α : Type} (args : Arguments α) : List α :=
  (List.range args.length).filterMap args.get?

variable {α : Type}

/-- Variables are counted from one. -/
theorem Env.lookup_succ (env : List α) (index : ℕ) : lookup env (index + 1) = env[index]? := by
  induction env generalizing index with
  | nil => rfl
  | cons data next ih => cases index with
    | zero => rfl
    | succ index => rw [lookup, ih, getElem?_cons_succ]

/-- Arguments are indexed from the first. -/
theorem Arguments.get?_eq (args : Arguments α) (index : ℕ) :
    args.get? index = args.reverse[index]? := by
  rw [get?]
  split_ifs with hle
  · rw [getElem?_eq_none (by simpa using hle)]
  · rw [getElem?_reverse (by omega)]
    congr 1
    omega

theorem filterMap_getElem?_range (l : List α) :
    (List.range l.length).filterMap (fun index ↦ l[index]?) = l := by
  induction l with
  | nil => rfl
  | cons a l ih =>
    rw [length_cons, range_succ_eq_map, filterMap_cons, filterMap_map]
    exact congrArg (a :: ·) ih

/-- Arguments are iterated from the first. -/
theorem Arguments.iter_eq_reverse (args : Arguments α) : args.iter = args.reverse := by
  have hget : args.get? = fun index ↦ args.reverse[index]? := funext args.get?_eq
  rw [iter, hget, ← length_reverse]
  exact filterMap_getElem?_range args.reverse

namespace Value

variable {Fun Atom : Type}

/-- What a builtin function sees of a value. -/
def view : Value Fun Atom → View Atom
  | .con c => .con c
  | .lambda _ _ | .builtin _ _ _ | .delay _ _ | .constr _ _ => .other

mutual
/-- The value as a term, if it is known how the environment of a term is put into it. -/
def asTerm (close : List (Term Fun Atom) → Term Fun Atom → Term Fun Atom) : Value Fun Atom → Term Fun Atom
  | .con c => .constant c
  | .builtin f forces args => .ofSpine f forces (allAsTerms close args).reverse
  | .delay body env => close (allAsTerms close env) (.delay body)
  | .lambda body env => close (allAsTerms close env) (.lambda body)
  | .constr tag fields => .constr tag (allAsTerms close fields)

def allAsTerms (close : List (Term Fun Atom) → Term Fun Atom → Term Fun Atom) :
    List (Value Fun Atom) → List (Term Fun Atom)
  | [] => []
  | value :: values => asTerm close value :: allAsTerms close values
end

end Value

/-- Put an environment into a term under `lamCnt` binders. The fields of constructors and the branches of
cases are left as they are. -/
def withEnv {Fun Atom : Type} (lamCnt : ℕ) (env : List (Term Fun Atom)) : Term Fun Atom → Term Fun Atom
  | .var index => if lamCnt ≥ index then .var index else (Env.lookup env (index - lamCnt)).getD (.var index)
  | .lambda body => .lambda (withEnv (lamCnt + 1) env body)
  | .apply function argument => .apply (withEnv lamCnt env function) (withEnv lamCnt env argument)
  | .delay body => .delay (withEnv lamCnt env body)
  | .force body => .force (withEnv lamCnt env body)
  | .constr tag fields => .constr tag fields
  | .case scrutinee branches => .case scrutinee branches
  | .constant c => .constant c
  | .builtin f => .builtin f
  | .error => .error

/-- The value as a term, as it is reported. -/
def valueAsTerm {Fun Atom : Type} (value : Value Fun Atom) : Term Fun Atom := value.asTerm (withEnv 0)

/-! ### The states of the machine -/

/-- What is to be done with a value. -/
inductive Frame (Fun Atom : Type)
  | awaitArg (function : Value Fun Atom)
  | awaitFunTerm (env : List (Value Fun Atom)) (argument : Term Fun Atom)
  | awaitFunValue (argument : Value Fun Atom)
  | force
  | constr (env : List (Value Fun Atom)) (tag : ℕ) (terms : List (Term Fun Atom))
    (values : List (Value Fun Atom))
  | cases (env : List (Value Fun Atom)) (branches : List (Term Fun Atom))

/-- A state of the machine, with the frames that are left. -/
inductive MachineState (Fun Atom : Type)
  | compute (frames : List (Frame Fun Atom)) (env : List (Value Fun Atom)) (term : Term Fun Atom)
  | return (frames : List (Frame Fun Atom)) (value : Value Fun Atom)
  | done (value : Value Fun Atom)

/-- Why an evaluation fails. -/
inductive MachineError (Fun Atom : Type)
  | explicitErrorTerm
  | nonFunctionApplication (argument function : Value Fun Atom)
  | openTermEvaluated (term : Term Fun Atom)
  | outOfEx (budget : ExBudget)
  | unexpectedBuiltinTermArgument (term : Term Fun Atom)
  | nonPolymorphicInstantiation (value : Value Fun Atom)
  | builtinTermArgumentExpected (term : Term Fun Atom)
  | nonConstrScrutinized (value : Value Fun Atom)
  | missingCaseBranch (branches : List (Term Fun Atom)) (value : Value Fun Atom)
  | outsideUsizeBounds (i : ℤ)
  /-- A builtin function does not take its arguments, or yields nothing. -/
  | runtime (f : Fun) (args : List (Value Fun Atom))

/-- What is left of the budget, and the steps that are not paid yet. -/
structure Meter where
  exBudget : ExBudget
  unbudgetedSteps : StepKind → ℕ
  unbudgetedTotal : ℕ

/-- How a machine is charged. -/
structure Metering (σ ε : Type) where
  /-- A step of a kind is made. -/
  count : σ → StepKind → Except ε σ
  /-- A price is paid. -/
  spend : σ → ExBudget → Except ε σ
  /-- The evaluation is over. -/
  settle : σ → Except ε σ

/-- A machine: what it is given, and how it is charged. -/
structure Machine (Fun Atom σ : Type) where
  builtins : Builtins Fun Atom
  costs : CostModel Fun Atom
  metering : Metering σ (MachineError Fun Atom)

namespace Meter

variable {Fun Atom : Type}

/-- A budget, of which nothing is spent. -/
def new (budget : ExBudget) : Meter where
  exBudget := budget
  unbudgetedSteps := fun _ ↦ 0
  unbudgetedTotal := 0

/-- Spend a budget. -/
def spendBudget (meter : Meter) (budget : ExBudget) : Except (MachineError Fun Atom) Meter :=
  let left : ExBudget :=
    { mem := saturate (meter.exBudget.mem - budget.mem), cpu := saturate (meter.exBudget.cpu - budget.cpu) }
  if left.mem < 0 ∨ left.cpu < 0 then .error (.outOfEx left) else .ok { meter with exBudget := left }

variable (costs : MachineCosts)

/-- Pay the steps of a kind. -/
def spendStepKind (meter : Meter) (kind : StepKind) : Except (MachineError Fun Atom) Meter := do
  let meter ← meter.spendBudget ((costs.step kind).scale (meter.unbudgetedSteps kind))
  .ok { meter with unbudgetedSteps := Function.update meter.unbudgetedSteps kind 0 }

/-- Pay all steps. -/
def spendUnbudgetedSteps (meter : Meter) : Except (MachineError Fun Atom) Meter := do
  let meter ← StepKind.enumerate.foldlM (spendStepKind costs) meter
  .ok { meter with unbudgetedTotal := 0 }

/-- Count a step, and pay all steps if there are enough. -/
def stepAndMaybeSpend (slippage : ℕ) (meter : Meter) (kind : StepKind) :
    Except (MachineError Fun Atom) Meter :=
  let meter := { meter with
    unbudgetedSteps := Function.update meter.unbudgetedSteps kind (meter.unbudgetedSteps kind + 1)
    unbudgetedTotal := meter.unbudgetedTotal + 1 }
  if meter.unbudgetedTotal ≥ slippage then meter.spendUnbudgetedSteps costs else .ok meter

/-- Pay all steps, if there are any. -/
def settle (meter : Meter) : Except (MachineError Fun Atom) Meter :=
  if meter.unbudgetedTotal > 0 then meter.spendUnbudgetedSteps costs else .ok meter

end Meter

/-- Steps are counted, and paid in batches. -/
def Metering.batched {Fun Atom : Type} (costs : MachineCosts) (slippage : ℕ) :
    Metering Meter (MachineError Fun Atom) where
  count := Meter.stepAndMaybeSpend costs slippage
  spend := Meter.spendBudget
  settle := Meter.settle costs

namespace Builtins

variable {Fun Atom α : Type}

variable (builtins : Builtins Fun Atom)

/-- The function is to be forced. -/
def needsForce (f : Fun) (forces : ℕ) : Bool :=
  decide (forces < builtins.forceCount f)

/-- The function takes another argument. -/
def isArrow (f : Fun) (args : Arguments α) : Bool :=
  decide (args.length < builtins.arity f)

/-- The function has all its arguments. -/
def isReady (f : Fun) (args : Arguments α) : Bool :=
  decide (args.length = builtins.arity f)

end Builtins

namespace Machine

variable {Fun Atom σ : Type} (machine : Machine Fun Atom σ)

/-- The machine that is used. -/
def new (builtins : Builtins Fun Atom) (costs : CostModel Fun Atom) : Machine Fun Atom Meter where
  builtins
  costs
  metering := .batched costs.machineCosts 200

variable (meter : σ)

/-- Call a builtin function. -/
def call (f : Fun) (args : Arguments (Value Fun Atom)) :
    Except (MachineError Fun Atom) (σ × Value Fun Atom) := do
  let views := args.iter.map Value.view
  if !machine.builtins.accepts f views then .error (.runtime f args.iter)
  else
    let meter ← machine.metering.spend meter (machine.costs.builtinCosts f views)
    match (machine.builtins.denote f views).bind fun outcome ↦ outcome.pick .con args.iter with
    | none => .error (.runtime f args.iter)
    | some value => .ok (meter, value)

variable (frames : List (Frame Fun Atom))

/-- Force a value. -/
def forceEvaluate (value : Value Fun Atom) : Except (MachineError Fun Atom) (σ × MachineState Fun Atom) :=
  match value with
  | .delay term env => .ok (meter, .compute frames env term)
  | .builtin f forces args =>
    if machine.builtins.needsForce f forces then
      if machine.builtins.isReady f args then do
        let (meter, value) ← machine.call meter f args
        .ok (meter, .return frames value)
      else .ok (meter, .return frames (.builtin f (forces + 1) args))
    else .error (.builtinTermArgumentExpected (valueAsTerm value))
  | .con _ | .lambda _ _ | .constr _ _ => .error (.nonPolymorphicInstantiation value)

/-- Apply a value to another. -/
def applyEvaluate (function argument : Value Fun Atom) :
    Except (MachineError Fun Atom) (σ × MachineState Fun Atom) :=
  match function with
  | .lambda body env => .ok (meter, .compute frames (argument :: env) body)
  | .builtin f forces args =>
    if !machine.builtins.needsForce f forces && machine.builtins.isArrow f args then
      if machine.builtins.isReady f (argument :: args) then do
        let (meter, value) ← machine.call meter f (argument :: args)
        .ok (meter, .return frames value)
      else .ok (meter, .return frames (.builtin f forces (argument :: args)))
    else .error (.unexpectedBuiltinTermArgument (valueAsTerm function))
  | .con _ | .delay _ _ | .constr _ _ => .error (.nonFunctionApplication argument function)

/-- The fields are arguments of what is evaluated next. -/
def transferArgStack (fields : List (Value Fun Atom)) : List (Frame Fun Atom) :=
  fields.reverse.foldl (fun frames field ↦ .awaitFunValue field :: frames) frames

/-- A constant as one of several constructors. -/
def constantAsTagFields (constant : Constant Atom) :
    Except (MachineError Fun Atom) (ℕ × ℕ × List (Value Fun Atom)) :=
  match constant with
  | .unit => .ok (0, 1, [])
  | .boolean false => .ok (0, 2, [])
  | .boolean true => .ok (1, 2, [])
  | .integer i =>
    if 0 ≤ i ∧ i < 2 ^ 64 then .ok (i.toNat, 2 ^ 64 - 1, []) else .error (.outsideUsizeBounds i)
  | .protoList element items => match items with
    | [] => .ok (1, 2, [])
    | head :: tail => .ok (0, 2, [.con head, .con (.protoList element tail)])
  | .protoPair _ _ first second => .ok (0, 1, [.con first, .con second])
  | .atom _ => .error (.nonConstrScrutinized (.con constant))

/-- Go on with the branch for a value. -/
def caseEvaluate (env : List (Value Fun Atom)) (branches : List (Term Fun Atom)) (value : Value Fun Atom) :
    Except (MachineError Fun Atom) (σ × MachineState Fun Atom) :=
  match value with
  | .constr tag fields => match branches[tag]? with
    | some branch => .ok (meter, .compute (transferArgStack frames fields) env branch)
    | none => .error (.missingCaseBranch branches value)
  | .con constant =>
    if machine.costs.caseOnConstants = .noData then do
      let (tag, maxBranches, fields) ← constantAsTagFields constant
      if branches.length > maxBranches then .error (.missingCaseBranch branches value)
      else match branches[tag]? with
        | some branch => .ok (meter, .compute (transferArgStack frames fields) env branch)
        | none => .error (.missingCaseBranch branches value)
    else .error (.nonConstrScrutinized value)
  | .lambda _ _ | .builtin _ _ _ | .delay _ _ => .error (.nonConstrScrutinized value)

/-- Return a value to the next frame. -/
def returnCompute (value : Value Fun Atom) : Except (MachineError Fun Atom) (σ × MachineState Fun Atom) :=
  match frames with
  | [] => do
    let meter ← machine.metering.settle meter
    .ok (meter, .done value)
  | .awaitFunTerm argEnv argument :: frames =>
    .ok (meter, .compute (.awaitArg value :: frames) argEnv argument)
  | .awaitArg function :: frames => machine.applyEvaluate meter frames function value
  | .awaitFunValue argument :: frames => machine.applyEvaluate meter frames value argument
  | .force :: frames => machine.forceEvaluate meter frames value
  | .constr env tag terms values :: frames => match terms with
    | first :: terms => .ok (meter, .compute (.constr env tag terms (values ++ [value]) :: frames) env first)
    | [] => .ok (meter, .return frames (.constr tag (values ++ [value])))
  | .cases env branches :: frames => machine.caseEvaluate meter frames env branches value

/-- The kind of step that a term is. -/
def stepKind? : Term Fun Atom → Option StepKind
  | .var _ => some .var
  | .lambda _ => some .lambda
  | .apply _ _ => some .apply
  | .delay _ => some .delay
  | .force _ => some .force
  | .constr _ _ => some .constr
  | .case _ _ => some .case
  | .constant _ => some .constant
  | .builtin _ => some .builtin
  | .error => none

/-- Where a term leads, once its step is counted. -/
def computeNext (env : List (Value Fun Atom)) (term : Term Fun Atom) :
    Except (MachineError Fun Atom) (MachineState Fun Atom) :=
  match term with
  | .var index => match Env.lookup env index with
    | some value => .ok (.return frames value)
    | none => .error (.openTermEvaluated term)
  | .lambda body => .ok (.return frames (.lambda body env))
  | .apply function argument => .ok (.compute (.awaitFunTerm env argument :: frames) env function)
  | .delay body => .ok (.return frames (.delay body env))
  | .force body => .ok (.compute (.force :: frames) env body)
  | .constr tag fields => match fields with
    | first :: terms => .ok (.compute (.constr env tag terms [] :: frames) env first)
    | [] => .ok (.return frames (.constr tag []))
  | .case scrutinee branches => .ok (.compute (.cases env branches :: frames) env scrutinee)
  | .constant constant => .ok (.return frames (.con constant))
  | .builtin f => .ok (.return frames (.builtin f 0 []))
  | .error => .error .explicitErrorTerm

/-- Compute a term: count its step, and go on. The error term is not charged for. -/
def compute (env : List (Value Fun Atom))
    (term : Term Fun Atom) : Except (MachineError Fun Atom) (σ × MachineState Fun Atom) := do
  let meter ← match stepKind? term with
    | some kind => machine.metering.count meter kind
    | none => .ok meter
  let state ← computeNext frames env term
  .ok (meter, state)

/-- A step of the machine. -/
def step (state : MachineState Fun Atom) : Except (MachineError Fun Atom) (σ × MachineState Fun Atom) :=
  match state with
  | .compute frames env term => machine.compute meter frames env term
  | .return frames value => machine.returnCompute meter frames value
  | .done value => .ok (meter, .done value)

/-- Make steps until there is a value, at most as many as given. -/
def loop : ℕ → σ → MachineState Fun Atom → Option (Except (MachineError Fun Atom) (σ × Value Fun Atom))
  | _, meter, .done value => some (.ok (meter, value))
  | 0, _, .compute _ _ _ | 0, _, .return _ _ => none
  | fuel + 1, meter, state => match machine.step meter state with
    | .error error => some (.error error)
    | .ok (meter, state) => loop fuel meter state

/-- Evaluate a term, in at most as many steps as given. -/
def run (fuel : ℕ) (meter : σ) (term : Term Fun Atom) :
    Option (Except (MachineError Fun Atom) (σ × Value Fun Atom)) :=
  match machine.metering.spend meter machine.costs.machineCosts.startup with
  | .error error => some (.error error)
  | .ok meter => machine.loop fuel meter (.compute [] [] term)

end Machine

end Amaru.Uplc
