import Amaru.Uplc.Term
import Mathlib.Logic.Relation

/-!
# Evaluation by substitution

The meaning of untyped Plutus Core, call by value and **without environments or frames**: a redex is reduced
(`Reduces`), with a value put in for a variable, wherever a context has it evaluated next (`Step`). An error
ends the context that it is in. A builtin function is reduced once it is forced and applied often enough.

A term that is not a value has at most one context in which something is evaluated: what is evaluated next is
determined by the term (`Context.fill_injective`), and so **evaluation is deterministic**
(`Step.deterministic`).
-/

namespace Amaru.Uplc

open List Term

variable {Fun Atom : Type}

/-- What a builtin function sees of a term. -/
def Term.view : Term Fun Atom → View Atom
  | .constant c => .con c
  | .var _ | .lambda _ | .apply _ _ | .delay _ | .force _ | .constr _ _ | .case _ _ | .builtin _ | .error =>
    .other

theorem Term.view_ofSpine (f : Fun) (forces : ℕ) (args : List (Term Fun Atom)) :
    (ofSpine f forces args).view = .other := by
  induction args using reverseRecOn with
  | nil => cases forces <;> rfl
  | append_singleton args argument ih =>
    rw [ofSpine_append]
    rfl

/-- A term that is evaluated. -/
inductive IsValue (bs : Builtins Fun Atom) : Term Fun Atom → Prop
  | constant (c : Constant Atom) : IsValue bs (.constant c)
  | lambda (body : Term Fun Atom) : IsValue bs (.lambda body)
  | delay (body : Term Fun Atom) : IsValue bs (.delay body)
  | constr (tag : ℕ) {fields} (hfields : ∀ field ∈ fields, IsValue bs field) :
    IsValue bs (.constr tag fields)
  /-- A builtin function that is not forced, or not applied, often enough. -/
  | awaits {t f forces args} (hspine : t.spine? = some (f, forces, args))
    (hawaits : bs.Awaits f forces args) (hargs : ∀ arg ∈ args, IsValue bs arg) :
    IsValue bs t

/-- A redex and what it is reduced to. -/
inductive Reduces (bs : Builtins Fun Atom) (mode : CaseOnConstants) :
    Term Fun Atom → Term Fun Atom → Prop
  | beta (body : Term Fun Atom) {argument} (hargument : IsValue bs argument) :
    Reduces bs mode (.apply (.lambda body) argument) (.subst 0 argument body)
  | forceDelay (body : Term Fun Atom) : Reduces bs mode (.force (.delay body)) body
  | call {t result f args} (hspine : t.spine? = some (f, bs.forceCount f, args))
    (hlength : args.length = bs.arity f) (hargs : ∀ arg ∈ args, IsValue bs arg)
    (hresult : bs.eval view .constant f args = some result) :
    Reduces bs mode t result
  /-- A branch is applied to the fields. -/
  | caseConstr {tag fields branches branch} (hfields : ∀ field ∈ fields, IsValue bs field)
    (hbranch : branches[tag]? = some branch) :
    Reduces bs mode (.case (.constr tag fields) branches) (fields.foldl .apply branch)
  | caseConstant {c tag maxBranches fields branches branch} (havailable : mode = .noData)
    (hconstructor : c.constructor? = some (tag, maxBranches, fields)) (hmax : branches.length ≤ maxBranches)
    (hbranch : branches[tag]? = some branch) :
    Reduces bs mode (.case (.constant c) branches)
      ((fields.map .constant).foldl .apply branch)

/-- A term with a hole for what is evaluated next. -/
inductive Context (Fun Atom : Type)
  | applyFunction (argument : Term Fun Atom)
  | applyArgument (function : Term Fun Atom)
  | force
  | constr (tag : ℕ) (values terms : List (Term Fun Atom))
  | case (branches : List (Term Fun Atom))

namespace Context

/-- Put a term into the hole. -/
def fill (t : Term Fun Atom) : Context Fun Atom → Term Fun Atom
  | .applyFunction argument => .apply t argument
  | .applyArgument function => .apply function t
  | .force => .force t
  | .constr tag values terms => .constr tag (values ++ t :: terms)
  | .case branches => .case t branches

/-- What is before the hole is evaluated. -/
def Valid (bs : Builtins Fun Atom) : Context Fun Atom → Prop
  | .applyFunction _ | .force | .case _ => True
  | .applyArgument function => IsValue bs function
  | .constr _ values _ => ∀ v ∈ values, IsValue bs v

end Context

/-- A step of the evaluation. -/
inductive Step (bs : Builtins Fun Atom) (mode : CaseOnConstants) :
    Term Fun Atom → Term Fun Atom → Prop
  | reduce {t t'} (hreduces : Reduces bs mode t t') : Step bs mode t t'
  | context {t t' s s'} (context : Context Fun Atom) (hcontext : context.Valid bs)
    (ht : t = context.fill s) (ht' : t' = context.fill s') (hstep : Step bs mode s s') :
    Step bs mode t t'
  | error {t} (context : Context Fun Atom) (hcontext : context.Valid bs)
    (ht : t = context.fill .error) : Step bs mode t .error

/-- The evaluation goes on to a term, after any number of steps. -/
abbrev Evaluates (bs : Builtins Fun Atom) (mode : CaseOnConstants) :
    Term Fun Atom → Term Fun Atom → Prop :=
  Relation.ReflTransGen (Step bs mode)

/-- The evaluation cannot go on, with neither a value nor an error. -/
structure Stuck (bs : Builtins Fun Atom) (mode : CaseOnConstants) (t : Term Fun Atom) :
    Prop where
  not_isValue : ¬IsValue bs t
  ne_error : t ≠ .error
  not_step : ∀ t', ¬Step bs mode t t'

variable {bs : Builtins Fun Atom} {mode : CaseOnConstants} {context : Context Fun Atom}
  {s t t' u u' : Term Fun Atom} {branches : List (Term Fun Atom)}

/-! ### Values -/

theorem not_isValue_error : ¬IsValue bs .error := by
  intro h
  cases h with
  | awaits hspine hawaits hargs => cases hspine

theorem not_isValue_case : ¬IsValue bs (.case s branches) := by
  intro h
  cases h with
  | awaits hspine hawaits hargs => cases hspine

/-- What is in a context of a value is a value. -/
theorem IsValue.of_fill (h : IsValue bs (context.fill s)) : IsValue bs s := by
  cases context with
  | applyFunction argument =>
    cases h with
    | awaits hspine hawaits hargs =>
      obtain ⟨args', hspine', rfl⟩ := spine?_apply.1 hspine
      refine .awaits hspine' (.inr ?_) fun arg harg ↦ hargs arg (mem_append_left _ harg)
      rcases hawaits with ⟨-, hnil⟩ | ⟨hforces, hlength⟩
      · simp at hnil
      · rw [length_append] at hlength
        exact ⟨hforces, Nat.lt_of_le_of_lt (Nat.le_add_right _ _) hlength⟩
  | applyArgument function =>
    cases h with
    | awaits hspine hawaits hargs =>
      obtain ⟨args', -, rfl⟩ := spine?_apply.1 hspine
      exact hargs s (mem_append_right _ (mem_singleton_self s))
  | force =>
    cases h with
    | awaits hspine hawaits hargs =>
      obtain ⟨forces', hspine', rfl, rfl⟩ := spine?_force.1 hspine
      refine .awaits hspine' (.inl ⟨?_, rfl⟩) hargs
      rcases hawaits with ⟨hforces, -⟩ | ⟨hforces, -⟩ <;> omega
  | constr tag values terms =>
    cases h with
    | constr _ hfields => exact hfields s (mem_append_right _ mem_cons_self)
    | awaits hspine hawaits hargs => cases hspine
  | case branches => exact absurd h not_isValue_case

/-- Values do not reduce. -/
theorem Reduces.not_isValue (h : Reduces bs mode t t') : ¬IsValue bs t := by
  intro hvalue
  cases h with
  | beta body hargument =>
    cases hvalue with
    | awaits hspine hawaits hargs =>
      obtain ⟨args', hspine', -⟩ := spine?_apply.1 hspine
      cases hspine'
  | forceDelay body =>
    cases hvalue with
    | awaits hspine hawaits hargs =>
      obtain ⟨forces', hspine', -⟩ := spine?_force.1 hspine
      cases hspine'
  | call hspine hlength hargs hresult =>
    cases hvalue with
    | awaits hspine' hawaits hargs' =>
      rw [hspine] at hspine'
      cases hspine'
      rcases hawaits with ⟨hforces, -⟩ | ⟨-, hlength'⟩ <;> omega
    | constant | lambda | delay | constr => cases hspine
  | caseConstr | caseConstant => exact not_isValue_case hvalue

/-- **A value is not evaluated further.** -/
theorem Step.not_isValue (h : Step bs mode t t') : ¬IsValue bs t := by
  induction h with
  | reduce hreduces => exact hreduces.not_isValue
  | context context hcontext ht ht' hstep ih =>
    rw [ht]
    exact fun hvalue ↦ ih hvalue.of_fill
  | error context hcontext ht =>
    rw [ht]
    exact fun hvalue ↦ not_isValue_error hvalue.of_fill

/-! ### What is evaluated next -/

/-- What a term that reduces holds in a context is a value. -/
theorem Reduces.isValue_of_fill (h : Reduces bs mode (context.fill s) t) :
    IsValue bs s := by
  cases context with
  | applyFunction argument =>
    cases h with
    | beta body hargument => exact .lambda body
    | call hspine hlength hargs hresult =>
      obtain ⟨args', hspine', rfl⟩ := spine?_apply.1 hspine
      rw [length_append] at hlength
      -- applied to values, but not to enough of them
      exact .awaits hspine' (.inr ⟨rfl, Nat.lt_of_succ_le (Nat.le_of_eq hlength)⟩) fun arg harg ↦
        hargs arg (mem_append_left _ harg)
  | applyArgument function =>
    cases h with
    | beta body hargument => exact hargument
    | call hspine hlength hargs hresult =>
      obtain ⟨args', -, rfl⟩ := spine?_apply.1 hspine
      exact hargs s (mem_append_right _ (mem_singleton_self s))
  | force =>
    cases h with
    | forceDelay body => exact .delay _
    | @call _ _ f _ hspine hlength hargs hresult =>
      -- a function takes an argument, so it is not called when it is forced
      obtain ⟨-, -, -, rfl⟩ := spine?_force.1 hspine
      exact absurd hlength (Nat.ne_of_lt (bs.arity_pos f))
  | constr tag values terms =>
    cases h with
    | call hspine hlength hargs hresult => cases hspine
  | case branches =>
    cases h with
    | call hspine hlength hargs hresult => cases hspine
    | caseConstr hfields hbranch => exact .constr _ hfields
    | caseConstant havailable hconstructor hmax hbranch => exact .constant _

/-- A list splits in one way at the first element without a property. -/
theorem append_cons_injective {α : Type} {P : α → Prop} {l l' r r' : List α} {a a' : α}
    (hl : ∀ x ∈ l, P x) (hl' : ∀ x ∈ l', P x) (ha : ¬P a) (ha' : ¬P a')
    (h : l ++ a :: r = l' ++ a' :: r') : l = l' ∧ a = a' ∧ r = r' := by
  induction l generalizing l' with
  | nil => cases l' with
    | nil =>
      cases h
      exact ⟨rfl, rfl, rfl⟩
    | cons b l' =>
      cases h
      exact absurd (hl' _ mem_cons_self) ha
  | cons b l ih => cases l' with
    | nil =>
      cases h
      exact absurd (hl _ mem_cons_self) ha'
    | cons b' l' =>
      obtain ⟨rfl, htail⟩ := cons.inj h
      obtain ⟨rfl, ha, hr⟩ := ih (forall_mem_cons.1 hl).2 (forall_mem_cons.1 hl').2 htail
      exact ⟨rfl, ha, hr⟩

/-- **What is evaluated next is determined by the term.** -/
theorem Context.fill_injective {context'} (hcontext : context.Valid bs)
    (hcontext' : context'.Valid bs) (hs : ¬IsValue bs s) (ht : ¬IsValue bs t)
    (h : context.fill s = context'.fill t) : context = context' ∧ s = t := by
  cases context with
  | applyFunction argument => cases context' with
    | applyFunction argument' =>
      cases h
      exact ⟨rfl, rfl⟩
    | applyArgument function =>
      cases h
      exact absurd hcontext' hs
    | force | constr | case => cases h
  | applyArgument function => cases context' with
    | applyFunction argument =>
      cases h
      exact absurd hcontext ht
    | applyArgument function' =>
      cases h
      exact ⟨rfl, rfl⟩
    | force | constr | case => cases h
  | force => cases context' with
    | force =>
      cases h
      exact ⟨rfl, rfl⟩
    | applyFunction | applyArgument | constr | case => cases h
  | constr tag values terms => cases context' with
    | constr tag' values' terms' =>
      obtain ⟨rfl, hfields⟩ := Term.constr.inj h
      obtain ⟨rfl, rfl, rfl⟩ := append_cons_injective hcontext hcontext' hs ht hfields
      exact ⟨rfl, rfl⟩
    | applyFunction | applyArgument | force | case => cases h
  | case branches => cases context' with
    | case branches' =>
      cases h
      exact ⟨rfl, rfl⟩
    | applyFunction | applyArgument | force | constr => cases h

/-- What is in the hole makes a step, or was an error. -/
theorem Step.of_fill (hcontext : context.Valid bs) (hs : ¬IsValue bs s)
    (h : Step bs mode (context.fill s) t) :
    (∃ s', Step bs mode s s' ∧ t = context.fill s') ∨ s = .error ∧ t = .error := by
  cases h with
  | reduce hreduces => exact absurd hreduces.isValue_of_fill hs
  | context context' hcontext' hfill ht' hstep =>
    obtain ⟨rfl, rfl⟩ := context.fill_injective hcontext hcontext' hs hstep.not_isValue hfill
    exact .inl ⟨_, hstep, ht'⟩
  | error context' hcontext' hfill =>
    obtain ⟨-, rfl⟩ := context.fill_injective hcontext hcontext' hs not_isValue_error hfill
    exact .inr ⟨rfl, rfl⟩

/-- A redex is reduced in one way. -/
theorem Reduces.deterministic (h : Reduces bs mode t u) (h' : Reduces bs mode t u') :
    u = u' := by
  -- a redex that is a call has a function at its head, and no other redex has
  cases h <;> cases h' <;> simp_all [spine?]

/-- An error does not step. -/
theorem not_step_error : ¬Step bs mode .error t := by
  intro h
  cases h with
  | reduce hreduces => cases hreduces with
    | call hspine => cases hspine
  | context context hcontext ht => cases context <;> cases ht
  | error context hcontext ht => cases context <;> cases ht

/-- **Evaluation is deterministic.** -/
theorem Step.deterministic (h : Step bs mode t u) (h' : Step bs mode t u') :
    u = u' := by
  induction h generalizing u' with
  | reduce hreduces =>
    cases h' with
    | reduce hreduces' => exact hreduces.deterministic hreduces'
    | context context hcontext ht ht' hstep =>
      subst ht
      exact absurd hreduces.isValue_of_fill hstep.not_isValue
    | error context hcontext ht =>
      subst ht
      exact absurd hreduces.isValue_of_fill not_isValue_error
  | context context hcontext ht ht' hstep ih =>
    subst ht ht'
    rcases h'.of_fill hcontext hstep.not_isValue with ⟨s', hstep', rfl⟩ | ⟨rfl, -⟩
    · rw [ih hstep']
    · exact absurd hstep not_step_error
  | error context hcontext ht =>
    subst ht
    rcases h'.of_fill hcontext not_isValue_error with ⟨s', hstep, -⟩ | ⟨-, rfl⟩
    · exact absurd hstep not_step_error
    · rfl

/-- A stuck term is stuck in a context. -/
theorem Stuck.fill (hcontext : context.Valid bs) (h : Stuck bs mode s) :
    Stuck bs mode (context.fill s) where
  not_isValue hvalue := h.not_isValue hvalue.of_fill
  ne_error := by cases context <;> simp [Context.fill]
  not_step t hstep := by
    rcases hstep.of_fill hcontext h.not_isValue with ⟨s', hstep', -⟩ | ⟨hs, -⟩
    · exact h.not_step s' hstep'
    · exact h.ne_error hs

/-! ### Where evaluation gets stuck -/

/-- A term in which everything is evaluated is stuck if it is not a redex. -/
theorem stuck_of_not_reduces
    (hvalues : ∀ (context : Context Fun Atom) s, t = context.fill s → IsValue bs s)
    (hvalue : ¬IsValue bs t) (herror : t ≠ .error)
    (hreduces : ∀ u, ¬Reduces bs mode t u) : Stuck bs mode t where
  not_isValue := hvalue
  ne_error := herror
  not_step u hstep := by
    cases hstep with
    | reduce h => exact hreduces u h
    | context context hcontext ht ht' hstep => exact hstep.not_isValue (hvalues context _ ht)
    | error context hcontext ht => exact not_isValue_error (hvalues context _ ht)

/-- What is neither a function nor awaits an argument cannot be applied. -/
theorem stuck_apply (hs : IsValue bs s) (ht : IsValue bs t) (hlambda : ∀ body, s ≠ .lambda body)
    (hspine : ∀ f forces args, (apply s t).spine? = some (f, forces, args) →
      ¬bs.Awaits f forces args ∧ (forces = bs.forceCount f → args.length = bs.arity f →
        bs.eval view .constant f args = none)) :
    Stuck bs mode (.apply s t) := by
  refine stuck_of_not_reduces (fun context u hfill ↦ ?_) (fun hvalue ↦ ?_) nofun fun u hreduces ↦ ?_
  · cases context <;> cases hfill
    · exact hs
    · exact ht
  · cases hvalue with
    | awaits hspine' hawaits hargs => exact (hspine _ _ _ hspine').1 hawaits
  · cases hreduces with
    | beta body hargument => exact hlambda body rfl
    | call hspine' hlength hargs hresult =>
      rw [(hspine _ _ _ hspine').2 rfl hlength] at hresult
      cases hresult

/-- What is neither delayed nor polymorphic cannot be forced. -/
theorem stuck_force (hs : IsValue bs s) (hdelay : ∀ body, s ≠ .delay body)
    (hspine : ∀ f forces, s.spine? = some (f, forces, []) → bs.forceCount f ≤ forces) :
    Stuck bs mode (.force s) := by
  refine stuck_of_not_reduces (fun context u hfill ↦ ?_) (fun hvalue ↦ ?_) nofun fun u hreduces ↦ ?_
  · cases context <;> cases hfill
    exact hs
  · cases hvalue with
    | awaits hspine' hawaits hargs =>
      obtain ⟨forces', hinner, rfl, rfl⟩ := spine?_force.1 hspine'
      have hle := hspine _ _ hinner
      rcases hawaits with ⟨hforces, -⟩ | ⟨hforces, -⟩ <;> omega
  · cases hreduces with
    | forceDelay body => exact hdelay _ rfl
    | @call _ _ f _ hspine' hlength hargs hresult =>
      obtain ⟨-, -, -, rfl⟩ := spine?_force.1 hspine'
      exact absurd hlength (Nat.ne_of_lt (bs.arity_pos f))

/-- There is no case without a branch. -/
theorem stuck_case (hs : IsValue bs s)
    (hconstr : ∀ tag fields, s = .constr tag fields → branches[tag]? = none)
    (hconstant : ∀ c, s = .constant c → mode = .noData → ∀ tag maxBranches fields,
      c.constructor? = some (tag, maxBranches, fields) → branches.length ≤ maxBranches →
      branches[tag]? = none) :
    Stuck bs mode (.case s branches) := by
  refine stuck_of_not_reduces (fun context u hfill ↦ ?_) not_isValue_case nofun fun u hreduces ↦ ?_
  · cases context <;> cases hfill
    exact hs
  · cases hreduces with
    | call hspine hlength hargs hresult => cases hspine
    | caseConstr hfields hbranch =>
      rw [hconstr _ _ rfl] at hbranch
      cases hbranch
    | caseConstant havailable hconstructor hmax hbranch =>
      rw [hconstant _ rfl havailable _ _ _ hconstructor hmax] at hbranch
      cases hbranch

end Amaru.Uplc
