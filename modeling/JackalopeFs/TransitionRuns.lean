import Mathlib.Algebra.Order.BigOperators.Group.List
import Mathlib.Data.Finset.Card
import Mathlib.Data.List.AList
import Mathlib.Data.List.Sort
import Mathlib.Tactic.Ring

/-! # Machines with partial steps, their runs and invariants

A machine has one initial state and a step function that refuses an action by
returning nothing.  Runs are lists of actions, so that a particular run can be
evaluated; reachability is the corresponding inductive predicate, relative to a
condition that every step of the run is asked to meet.  The rules below are the
only induction over runs that the development performs: an invariant is shown
once for one step and transferred here to every reachable state.
-/

namespace JackalopeFs.TransitionRuns

universe u v w x

/-- A deterministic machine: the environment's choices are in the actions. -/
structure Machine (State : Type u) (Action : Type v) where
  initial : State
  step : State → Action → Option State

namespace Machine

variable {State : Type u} {Action : Type v} (machine : Machine State Action)

/-- The state after the listed actions, unless one of them is refused. -/
def runFrom (s : State) : List Action → Option State
  | [] => some s
  | action :: rest => (machine.step s action).bind fun t => runFrom t rest

def run (actions : List Action) : Option State :=
  machine.runFrom machine.initial actions

/-- The state after the listed actions, unless one is refused or does not meet the condition. -/
def runWhile (condition : State → Action → Bool) (s : State) : List Action → Option State
  | [] => some s
  | action :: rest =>
    if condition s action then
      (machine.step s action).bind fun t => runWhile condition t rest
    else none

/-- States reached by runs each of whose steps meets `condition` in the state it starts from. -/
inductive ReachableUnder (condition : State → Action → Prop) : State → Prop where
  | initial : ReachableUnder condition machine.initial
  | step {s t : State} {action : Action} (before : ReachableUnder condition s)
      (meets : condition s action) (moves : machine.step s action = some t) :
      ReachableUnder condition t

def Reachable (s : State) : Prop :=
  machine.ReachableUnder (fun _ _ => True) s

variable {machine}

theorem Reachable.start : machine.Reachable machine.initial :=
  ReachableUnder.initial

variable {s t : State}

theorem Reachable.next {action : Action} (h : machine.Reachable s)
    (moves : machine.step s action = some t) : machine.Reachable t :=
  ReachableUnder.step h trivial moves

theorem runFrom_cons {action : Action} {rest : List Action}
    (moves : machine.step s action = some t) :
    machine.runFrom s (action :: rest) = machine.runFrom t rest := by
  simp only [Machine.runFrom, moves, Option.bind_some]

theorem runFrom_append {actions rest : List Action} (hrun : machine.runFrom s actions = some t) :
    machine.runFrom s (actions ++ rest) = machine.runFrom t rest := by
  induction actions generalizing s with
  | nil =>
    cases hrun
    rfl
  | cons _ _ ih =>
    obtain ⟨m, moves, hmore⟩ := Option.bind_eq_some_iff.mp hrun
    rw [List.cons_append, runFrom_cons moves, ih hmore]

variable {actions : List Action} {P : State → Prop}

/-- What every listed action keeps is kept by the run. -/
theorem runFrom_keeps
    (step : ∀ action ∈ actions, ∀ s t, P s → machine.step s action = some t → P t) (h : P s)
    (hrun : machine.runFrom s actions = some t) : P t := by
  induction actions generalizing s with
  | nil =>
    cases hrun
    exact h
  | cons action _ ih =>
    obtain ⟨m, moves, hrest⟩ := Option.bind_eq_some_iff.mp hrun
    have next := step action List.mem_cons_self s m h moves
    exact ih (fun other mem => step other (List.mem_cons_of_mem action mem)) next hrest

theorem Reachable.runFrom (h : machine.Reachable s) (hrun : machine.runFrom s actions = some t) :
    machine.Reachable t :=
  runFrom_keeps (fun _ _ _ _ before moves => before.next moves) h hrun

theorem reachable_of_run {s : State} (hrun : machine.run actions = some s) : machine.Reachable s :=
  Reachable.start.runFrom hrun

/-- A run that ends in a state with a decidable property, as an evaluation of it shows. -/
theorem exists_of_run {p : State → Bool} (h : (machine.run actions).any p = true) :
    ∃ s, machine.run actions = some s ∧ machine.Reachable s ∧ p s = true := by
  obtain ⟨s, ends, holds⟩ := (Option.any_eq_true _ _).mp h
  exact ⟨s, ends, reachable_of_run ends, holds⟩

theorem exists_run {p : State → Prop} [DecidablePred p]
    (h : (machine.run actions).any (fun s => decide (p s)) = true) :
    ∃ s, machine.run actions = some s ∧ p s := by
  obtain ⟨s, ends, -, holds⟩ := machine.exists_of_run h
  exact ⟨s, ends, of_decide_eq_true holds⟩

theorem ReachableUnder.runWhile {condition : State → Action → Bool}
    (h : machine.ReachableUnder (fun s a => condition s a = true) s)
    (hrun : machine.runWhile condition s actions = some t) :
    machine.ReachableUnder (fun s a => condition s a = true) t := by
  induction actions generalizing s with
  | nil =>
    simp only [Machine.runWhile, Option.some.injEq] at hrun
    exact hrun ▸ h
  | cons _ _ ih =>
    unfold Machine.runWhile at hrun
    split_ifs at hrun with meets
    obtain ⟨m, moves, hrest⟩ := Option.bind_eq_some_iff.mp hrun
    exact ih (.step h meets moves) hrest

/-- A run that meets a condition throughout and ends in a state with a decidable property. -/
theorem exists_of_runWhile {condition : State → Action → Bool} {p : State → Bool}
    (h : (machine.runWhile condition machine.initial actions).any p = true) :
    ∃ s, machine.ReachableUnder (fun s a => condition s a = true) s ∧ p s = true := by
  obtain ⟨s, ends, holds⟩ := (Option.any_eq_true _ _).mp h
  exact ⟨s, ReachableUnder.initial.runWhile ends, holds⟩

/-- The invariant rule, for runs whose steps meet a condition. -/
theorem ReachableUnder.invariant {condition : State → Action → Prop} (initial : P machine.initial)
    (step : ∀ s action t, P s → condition s action → machine.step s action = some t → P t)
    {s : State} (h : machine.ReachableUnder condition s) : P s := by
  induction h with
  | initial => exact initial
  | step _ meets moves ih => exact step _ _ _ ih meets moves

/-- The invariant rule for all runs. -/
theorem Reachable.invariant (initial : P machine.initial)
    (step : ∀ s action t, P s → machine.step s action = some t → P t) {s : State}
    (h : machine.Reachable s) : P s :=
  ReachableUnder.invariant initial (fun s action t hs _ moves => step s action t hs moves) h

/-- The invariant rule in which a step may also use what is known of reachable states. -/
theorem Reachable.invariant_of {P Q : State → Prop} (known : ∀ s, machine.Reachable s → Q s)
    (initial : P machine.initial)
    (step : ∀ s action t, Q s → Q t → P s → machine.step s action = some t → P t)
    {s : State} (h : machine.Reachable s) : P s := by
  have both : machine.Reachable s ∧ P s := by
    induction h with
    | initial => exact ⟨Reachable.start, initial⟩
    | step _ _ moves ih =>
      have next := ih.1.next moves
      exact ⟨next, step _ _ _ (known _ ih.1) (known _ next) ih.2 moves⟩
  exact both.2

/-- Reachability is transported along a map under which every step becomes a run. -/
theorem Reachable.map {Image : Type w} {ImageAction : Type x}
    {image : Machine Image ImageAction} (f : State → Image)
    (initial : f machine.initial = image.initial)
    (step : ∀ s action t, machine.step s action = some t →
      ∃ actions, image.runFrom (f s) actions = some (f t))
    {s : State} (h : machine.Reachable s) : image.Reachable (f s) := by
  refine Reachable.invariant (P := fun s => image.Reachable (f s)) ?_ ?_ h
  · rw [initial]
    exact Reachable.start
  · intro s action t hs moves
    obtain ⟨actions, hrun⟩ := step s action t moves
    exact hs.runFrom hrun

end Machine

end JackalopeFs.TransitionRuns
