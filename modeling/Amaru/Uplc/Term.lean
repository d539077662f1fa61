import Mathlib.Algebra.Order.Ring.Int
import Mathlib.Data.List.Induction

/-!
# Terms of untyped Plutus Core

A term refers to its variables by de Bruijn indices, from 1 on. Builtin functions are given: how many
arguments and forces each takes, and the **partial function on values** that it computes (`Builtins`). A
builtin looks at constants only: it yields a constant, or one of its arguments.

`bind` replaces the free variables of a term by closed terms, all at once, and `subst` the first of them.
**Replacing one after the others is replacing all** (`subst_bind`), as long as what is put in is closed.
-/

namespace Amaru.Uplc

open List Nat

/-- The type of a constant. -/
inductive Typ
  | bool
  | integer
  | string
  | byteString
  | unit
  | list (element : Typ)
  | array (element : Typ)
  | pair (first second : Typ)
  | data
  | bls12381G1Element
  | bls12381G2Element
  | bls12381MlResult
  | value
deriving DecidableEq, Repr

/-- A constant. Evaluation does not look into strings, byte strings, data, arrays, points of curves and
ledger values, which are atoms here. -/
inductive Constant (Atom : Type)
  | integer (i : ℤ)
  | boolean (b : Bool)
  | unit
  | protoList (element : Typ) (items : List (Constant Atom))
  | protoPair (first second : Typ) (fst snd : Constant Atom)
  | atom (a : Atom)

/-- A constant as one of several constructors: which, how many there are, and the fields. Data and what
is not looked into cannot be scrutinised. -/
def Constant.constructor? {Atom : Type} : Constant Atom → Option (ℕ × ℕ × List (Constant Atom))
  | .unit => some (0, 1, [])
  | .boolean false => some (0, 2, [])
  | .boolean true => some (1, 2, [])
  | .integer i => if 0 ≤ i ∧ i < 2 ^ 64 then some (i.toNat, 2 ^ 64 - 1, []) else none
  | .protoList _ [] => some (1, 2, [])
  | .protoList element (head :: tail) => some (0, 2, [head, .protoList element tail])
  | .protoPair _ _ fst snd => some (0, 1, [fst, snd])
  | .atom _ => none

/-- Which constants may be scrutinised. -/
inductive CaseOnConstants
  /-- None. -/
  | unavailable
  /-- Units, booleans, integers, lists and pairs. -/
  | noData
deriving DecidableEq, Repr

/-- A term. -/
inductive Term (Fun Atom : Type)
  /-- The variable that the `index`-th binder around it binds, counted from 1. -/
  | var (index : ℕ)
  | lambda (body : Term Fun Atom)
  | apply (function argument : Term Fun Atom)
  | delay (body : Term Fun Atom)
  | force (body : Term Fun Atom)
  | constr (tag : ℕ) (fields : List (Term Fun Atom))
  | case (scrutinee : Term Fun Atom) (branches : List (Term Fun Atom))
  | constant (c : Constant Atom)
  | builtin (f : Fun)
  | error

/-- What a builtin function sees of an argument. -/
inductive View (Atom : Type)
  | con (c : Constant Atom)
  | other

/-- What a builtin function yields: a constant, or the argument at an index. -/
inductive Outcome (Atom : Type)
  | con (c : Constant Atom)
  | arg (index : ℕ)

/-- What comes out, of given arguments. -/
def Outcome.pick {Atom α : Type} (outcome : Outcome Atom) (con : Constant Atom → α) (args : List α) :
    Option α :=
  match outcome with
  | .con c => some (con c)
  | .arg index => args[index]?

/-- The builtin functions. -/
structure Builtins (Fun Atom : Type) where
  /-- How many arguments the function takes. -/
  arity : Fun → ℕ
  /-- How often it is to be forced before. -/
  forceCount : Fun → ℕ
  /-- The arguments are of the kind that the function takes. -/
  accepts : Fun → List (View Atom) → Bool
  /-- What the function yields for arguments that it takes. -/
  denote : Fun → List (View Atom) → Option (Outcome Atom)
  arity_pos : ∀ f, 0 < arity f

namespace Builtins

variable {Fun Atom α : Type} {forces : ℕ}

/-- The builtin function as a partial function, on values of which the constants are known. -/
def eval (builtins : Builtins Fun Atom) (view : α → View Atom) (con : Constant Atom → α) (f : Fun)
    (args : List α) : Option α :=
  if builtins.accepts f (args.map view) then
    (builtins.denote f (args.map view)).bind fun outcome ↦ outcome.pick con args
  else none

/-- A function that was forced and applied, but not to all its arguments. -/
def Awaits (builtins : Builtins Fun Atom) (f : Fun) (forces : ℕ) (args : List α) : Prop :=
  forces < builtins.forceCount f ∧ args = [] ∨ forces = builtins.forceCount f ∧ args.length < builtins.arity f

variable {f : Fun} {args : List α} {builtins : Builtins Fun Atom} {con : Constant Atom → α}
  {view : α → View Atom} {β : Type}

/-- What a function awaits depends on the number of its arguments alone. -/
theorem Awaits.of_length_eq {args' : List β} (h : builtins.Awaits f forces args)
    (hlength : args'.length = args.length) :
    builtins.Awaits f forces args' := by
  rcases h with ⟨hforces, rfl⟩ | ⟨hforces, hlt⟩
  · exact .inl ⟨hforces, eq_nil_of_length_eq_zero hlength⟩
  · exact .inr ⟨hforces, hlength ▸ hlt⟩

/-- A builtin that waits has an argument missing. -/
theorem Awaits.length_lt (h : builtins.Awaits f forces args) : args.length < builtins.arity f := by
  rcases h with ⟨-, rfl⟩ | ⟨-, hlt⟩
  · exact builtins.arity_pos f
  · exact hlt

theorem awaits_nil (builtins : Builtins Fun Atom) (hforces : forces ≤ builtins.forceCount f) :
    builtins.Awaits f forces ([] : List α) := by
  rcases lt_or_eq_of_le hforces with hlt | heq
  · exact .inl ⟨hlt, rfl⟩
  · exact .inr ⟨heq, builtins.arity_pos f⟩

/-- What a builtin function yields is a constant, or one of its arguments. -/
theorem of_eval {a : α} {P : α → Prop}
    (hcon : ∀ c, P (con c)) (hargs : ∀ arg ∈ args, P arg) (h : builtins.eval view con f args = some a) :
    P a := by
  rw [eval] at h
  split_ifs at h
  obtain ⟨outcome, -, hpick⟩ := Option.bind_eq_some_iff.1 h
  cases outcome with
  | con c =>
    cases hpick
    exact hcon c
  | arg index => exact hargs a (mem_of_getElem? hpick)

/-- What a builtin function computes does not depend on how values are represented. -/
theorem eval_map (builtins : Builtins Fun Atom) {view' con'} (g : α → β) (hview : ∀ a, view' (g a) = view a)
    (hcon : ∀ c, g (con c) = con' c) (f : Fun) (args : List α) :
    builtins.eval view' con' f (args.map g) = (builtins.eval view con f args).map g := by
  have hviews : (args.map g).map view' = args.map view := by
    rw [map_map]
    exact map_congr_left fun a _ ↦ hview a
  rw [eval, eval, hviews]
  split_ifs
  · rcases builtins.denote f (args.map view) with - | outcome
    · rfl
    · cases outcome with
      | con c => exact congrArg some (hcon c).symm
      | arg index => exact getElem?_map
  · rfl

end Builtins

namespace Term

variable {Fun Atom : Type} {depth forces n : ℕ} {ts : List (Term Fun Atom)}

/-- Induction on terms, with the hypothesis for every field and branch. -/
@[induction_eliminator, elab_as_elim]
theorem induction {P : Term Fun Atom → Prop} (var : ∀ index, P (.var index))
    (lambda : ∀ body, P body → P (.lambda body))
    (apply : ∀ function argument, P function → P argument → P (.apply function argument))
    (delay : ∀ body, P body → P (.delay body)) (force : ∀ body, P body → P (.force body))
    (constr : ∀ tag fields, (∀ field ∈ fields, P field) → P (.constr tag fields))
    (case : ∀ scrutinee branches, P scrutinee → (∀ branch ∈ branches, P branch) →
      P (.case scrutinee branches))
    (constant : ∀ c, P (.constant c)) (builtin : ∀ f, P (.builtin f)) (error : P .error)
    (t : Term Fun Atom) : P t :=
  @Term.rec Fun Atom P (fun ts ↦ ∀ t ∈ ts, P t) var lambda apply delay force constr case constant builtin
    error (fun _ hmem ↦ (nomatch hmem)) (fun _ _ ht hts ↦ forall_mem_cons.2 ⟨ht, hts⟩) t

/-! ### Closed terms -/

mutual
/-- The free variables of a term are among the first `n`. -/
def ClosedAt (n : ℕ) : Term Fun Atom → Prop
  | .var index => 1 ≤ index ∧ index ≤ n
  | .lambda body => ClosedAt (n + 1) body
  | .apply function argument => ClosedAt n function ∧ ClosedAt n argument
  | .delay body => ClosedAt n body
  | .force body => ClosedAt n body
  | .constr _ fields => AllClosedAt n fields
  | .case scrutinee branches => ClosedAt n scrutinee ∧ AllClosedAt n branches
  | .constant _ => True
  | .builtin _ => True
  | .error => True

def AllClosedAt (n : ℕ) : List (Term Fun Atom) → Prop
  | [] => True
  | t :: ts => ClosedAt n t ∧ AllClosedAt n ts
end

theorem allClosedAt_iff : AllClosedAt n ts ↔ ∀ t ∈ ts, ClosedAt n t := by
  induction ts with
  | nil => simp [AllClosedAt]
  | cons t ts ih => rw [AllClosedAt, ih, forall_mem_cons]

theorem AllClosedAt.map_congr {f g : Term Fun Atom → Term Fun Atom}
    (h : AllClosedAt n ts) (heq : ∀ t ∈ ts, ClosedAt n t → f t = g t) : ts.map f = ts.map g :=
  map_congr_left fun t ht ↦ heq t ht (allClosedAt_iff.1 h t ht)

mutual
/-- The term under `depth` binders, with its free variables replaced by closed terms. -/
def bind (env : List (Term Fun Atom)) (depth : ℕ) : Term Fun Atom → Term Fun Atom
  | .var index => if index ≤ depth then .var index else (env[index - depth - 1]?).getD (.var index)
  | .lambda body => .lambda (bind env (depth + 1) body)
  | .apply function argument => .apply (bind env depth function) (bind env depth argument)
  | .delay body => .delay (bind env depth body)
  | .force body => .force (bind env depth body)
  | .constr tag fields => .constr tag (bindAll env depth fields)
  | .case scrutinee branches => .case (bind env depth scrutinee) (bindAll env depth branches)
  | .constant c => .constant c
  | .builtin f => .builtin f
  | .error => .error

def bindAll (env : List (Term Fun Atom)) (depth : ℕ) : List (Term Fun Atom) → List (Term Fun Atom)
  | [] => []
  | t :: ts => bind env depth t :: bindAll env depth ts
end

mutual
/-- The term under `depth` binders, with the next binder taken away and a closed term in the place of its
variable. -/
def subst (depth : ℕ) (value : Term Fun Atom) : Term Fun Atom → Term Fun Atom
  | .var index => if index ≤ depth then .var index else if index = depth + 1 then value
      else .var (index - 1)
  | .lambda body => .lambda (subst (depth + 1) value body)
  | .apply function argument => .apply (subst depth value function) (subst depth value argument)
  | .delay body => .delay (subst depth value body)
  | .force body => .force (subst depth value body)
  | .constr tag fields => .constr tag (substAll depth value fields)
  | .case scrutinee branches => .case (subst depth value scrutinee) (substAll depth value branches)
  | .constant c => .constant c
  | .builtin f => .builtin f
  | .error => .error

def substAll (depth : ℕ) (value : Term Fun Atom) : List (Term Fun Atom) → List (Term Fun Atom)
  | [] => []
  | t :: ts => subst depth value t :: substAll depth value ts
end

theorem bindAll_eq_map (env : List (Term Fun Atom)) (depth : ℕ) (ts : List (Term Fun Atom)) :
    bindAll env depth ts = ts.map (bind env depth) := by
  induction ts with
  | nil => rfl
  | cons t ts ih => rw [bindAll, ih, map_cons]

theorem substAll_eq_map (depth : ℕ) (value : Term Fun Atom) (ts : List (Term Fun Atom)) :
    substAll depth value ts = ts.map (subst depth value) := by
  induction ts with
  | nil => rfl
  | cons t ts ih => rw [substAll, ih, map_cons]

variable {t : Term Fun Atom} {env : List (Term Fun Atom)}

/-- A closed term is closed at larger depths. -/
theorem ClosedAt.mono {m : ℕ} (h : ClosedAt n t) (hle : n ≤ m) : ClosedAt m t := by
  induction t generalizing n m with
  | var index => exact ⟨h.1, le_trans h.2 hle⟩
  | lambda body ih => exact ih h (succ_le_succ hle)
  | apply function argument ihf iha => exact ⟨ihf h.1 hle, iha h.2 hle⟩
  | delay body ih | force body ih => exact ih h hle
  | constr tag fields ih =>
    exact allClosedAt_iff.2 fun t ht ↦ ih t ht (allClosedAt_iff.1 h t ht) hle
  | case scrutinee branches ihs ihb =>
    exact ⟨ihs h.1 hle, allClosedAt_iff.2 fun t ht ↦ ihb t ht (allClosedAt_iff.1 h.2 t ht) hle⟩
  | constant | builtin | error => trivial

/-- Closed terms are not changed by substitution. -/
theorem subst_of_closedAt (h : ClosedAt depth t) (value : Term Fun Atom) : subst depth value t = t := by
  induction t generalizing depth with
  | var index => rw [subst, if_pos h.2]
  | lambda body ih => rw [subst, ih h]
  | apply function argument ihf iha => rw [subst, ihf h.1, iha h.2]
  | delay body ih | force body ih => rw [subst, ih h]
  | constr tag fields ih =>
    rw [subst, substAll_eq_map, AllClosedAt.map_congr h fun t ht ↦ ih t ht, map_id']
  | case scrutinee branches ihs ihb =>
    rw [subst, ihs h.1, substAll_eq_map, h.2.map_congr fun t ht ↦ ihb t ht, map_id']
  | constant | builtin | error => rfl

/-- **Replacing one variable after the others is replacing all.** -/
theorem subst_bind {value : Term Fun Atom} (henv : ∀ t ∈ env, ClosedAt 0 t)
    (h : ClosedAt (depth + 1 + env.length) t) :
    subst depth value (bind env (depth + 1) t) = bind (value :: env) depth t := by
  induction t generalizing depth with
  | var index =>
    obtain ⟨-, hle⟩ := h
    rw [bind, bind]
    by_cases hbound : index ≤ depth
    · rw [if_pos (le_succ_of_le hbound), subst, if_pos hbound, if_pos hbound]
    by_cases hfirst : index = depth + 1
    · rw [if_pos (le_of_eq hfirst), subst, if_neg hbound, if_pos hfirst, if_neg hbound]
      have hzero : index - depth - 1 = 0 := by omega
      rw [hzero]
      rfl
    · -- the variable is replaced by a closed term
      obtain ⟨j, hj⟩ : ∃ j, index = depth + 1 + j + 1 := ⟨index - depth - 2, by omega⟩
      have hlt : j < env.length := by omega
      have hleft : index - (depth + 1) - 1 = j := by omega
      have hright : index - depth - 1 = j + 1 := by omega
      rw [if_neg (by omega), if_neg hbound, hleft, hright, getElem?_cons_succ,
        getElem?_eq_getElem hlt, Option.getD_some]
      exact subst_of_closedAt ((henv _ (getElem_mem hlt)).mono (zero_le depth)) value
  | lambda body ih => rw [bind, subst, ih (by rw [add_right_comm]; exact h), bind]
  | apply function argument ihf iha => rw [bind, subst, ihf h.1, iha h.2, bind]
  | delay body ih | force body ih => rw [bind, subst, ih h, bind]
  | constr tag fields ih =>
    rw [bind, subst, bind, substAll_eq_map, bindAll_eq_map, bindAll_eq_map, map_map]
    exact congrArg _ (AllClosedAt.map_congr h fun t ht ↦ ih t ht)
  | case scrutinee branches ihs ihb =>
    rw [bind, subst, bind, ihs h.1, substAll_eq_map, bindAll_eq_map, bindAll_eq_map, map_map]
    exact congrArg _ (h.2.map_congr fun t ht ↦ ihb t ht)
  | constant | builtin | error => rfl

/-- Binding all variables closes a term. -/
theorem closedAt_bind (henv : ∀ t ∈ env, ClosedAt 0 t)
    (h : ClosedAt (depth + env.length) t) : ClosedAt depth (bind env depth t) := by
  have hall {depth : ℕ} {ts : List (Term Fun Atom)}
      (ih : ∀ t ∈ ts, ∀ {depth}, ClosedAt (depth + env.length) t → ClosedAt depth (bind env depth t))
      (h : AllClosedAt (depth + env.length) ts) : AllClosedAt depth (bindAll env depth ts) := by
    rw [bindAll_eq_map, allClosedAt_iff]
    refine forall_mem_map.2 fun t ht ↦ ih t ht (allClosedAt_iff.1 h t ht)
  induction t generalizing depth with
  | var index =>
    obtain ⟨hpos, hle⟩ := h
    rw [bind]
    split_ifs with hbound
    · exact ⟨hpos, hbound⟩
    · have hlt : index - depth - 1 < env.length := by omega
      rw [getElem?_eq_getElem hlt, Option.getD_some]
      exact (henv _ (getElem_mem hlt)).mono (zero_le depth)
  | lambda body ih =>
    rw [bind]
    exact ih (by rw [add_right_comm]; exact h)
  | apply function argument ihf iha => exact ⟨ihf h.1, iha h.2⟩
  | delay body ih | force body ih => exact ih h
  | constr tag fields ih => exact hall ih h
  | case scrutinee branches ihs ihb => exact ⟨ihs h.1, hall ihb h.2⟩
  | constant | builtin | error => trivial

/-- Closed terms are not changed by binding. -/
theorem bind_of_closedAt (h : ClosedAt depth t) (env : List (Term Fun Atom)) : bind env depth t = t := by
  induction t generalizing depth with
  | var index => rw [bind, if_pos h.2]
  | lambda body ih => rw [bind, ih h]
  | apply function argument ihf iha => rw [bind, ihf h.1, iha h.2]
  | delay body ih | force body ih => rw [bind, ih h]
  | constr tag fields ih =>
    rw [bind, bindAll_eq_map, AllClosedAt.map_congr h fun t ht ↦ ih t ht, map_id']
  | case scrutinee branches ihs ihb =>
    rw [bind, ihs h.1, bindAll_eq_map, h.2.map_congr fun t ht ↦ ihb t ht, map_id']
  | constant | builtin | error => rfl

/-! ### Builtin functions that await arguments -/

/-- The function at the head of a term, how often it is forced, and what it is then applied to. -/
def spine? : Term Fun Atom → Option (Fun × ℕ × List (Term Fun Atom))
  | .builtin f => some (f, 0, [])
  | .force t => match t.spine? with
    | some (f, forces, []) => some (f, forces + 1, [])
    | _ => none
  | .apply t argument => t.spine?.map fun (f, forces, args) ↦ (f, forces, args ++ [argument])
  | .var _ | .lambda _ | .delay _ | .constr _ _ | .case _ _ | .constant _ | .error => none

/-- A builtin function, forced and then applied. -/
def ofSpine (f : Fun) (forces : ℕ) (args : List (Term Fun Atom)) : Term Fun Atom :=
  args.foldl .apply (Nat.repeat .force forces (.builtin f))

theorem ofSpine_append (f : Fun) (forces : ℕ) (args : List (Term Fun Atom)) (argument : Term Fun Atom) :
    ofSpine f forces (args ++ [argument]) = .apply (ofSpine f forces args) argument :=
  foldl_append

variable {args : List (Term Fun Atom)} {f : Fun}

/-- A builtin with closed arguments is closed. -/
theorem closedAt_ofSpine (hargs : ∀ arg ∈ args, ClosedAt n arg) : ClosedAt n (ofSpine f forces args) := by
  induction args using reverseRecOn with
  | nil =>
    induction forces with
    | zero => trivial
    | succ forces ih => exact ih
  | append_singleton args argument ih =>
    rw [ofSpine_append]
    exact ⟨ih fun arg harg ↦ hargs arg (mem_append_left _ harg),
      hargs argument (mem_append_right _ (mem_singleton_self argument))⟩

/-- An applied builtin is recognised. -/
theorem spine?_ofSpine (f : Fun) (forces : ℕ) (args : List (Term Fun Atom)) :
    (ofSpine f forces args).spine? = some (f, forces, args) := by
  induction args using reverseRecOn with
  | nil =>
    induction forces with
    | zero => rfl
    | succ forces ih =>
      change (Term.force (ofSpine f forces [])).spine? = _
      rw [spine?, ih]
  | append_singleton args argument ih => rw [ofSpine_append, spine?, ih, Option.map_some]

/-- An application is of a builtin if its function is. -/
theorem spine?_apply {argument} :
    (Term.apply t argument).spine? = some (f, forces, args) ↔
      ∃ args', t.spine? = some (f, forces, args') ∧ args = args' ++ [argument] := by
  rw [spine?, Option.map_eq_some_iff]
  constructor
  · rintro ⟨⟨f', forces', args'⟩, hspine, heq⟩
    cases heq
    exact ⟨args', hspine, rfl⟩
  · rintro ⟨args', hspine, rfl⟩
    exact ⟨_, hspine, rfl⟩

/-- A forced builtin has no arguments yet. -/
theorem spine?_force :
    (Term.force t).spine? = some (f, forces, args) ↔
      ∃ forces', t.spine? = some (f, forces', []) ∧ forces = forces' + 1 ∧ args = [] := by
  rw [spine?]
  constructor
  · intro h
    split at h
    · rename_i hspine
      cases h
      exact ⟨_, hspine, rfl, rfl⟩
    · cases h
  · rintro ⟨forces', hspine, rfl, rfl⟩
    rw [hspine]

end Term

end Amaru.Uplc
