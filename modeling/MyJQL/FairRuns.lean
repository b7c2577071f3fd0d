import Mathlib.Order.WellFounded
import Mathlib.Logic.Relation

/-!
# Fair runs without end

A system that takes labelled steps for ever, and the rule by which one of its agents comes to its goal:
the steps of the agent descend in a well-founded order that the others leave alone, and the agent is able
to go on again and again.
-/

namespace MyJQL.FairRuns

set_option autoImplicit false

section Runs

variable {State Label Measure : Type} {next : Label → State → State → Prop} {start : State}

structure EndlessRun (next : Label → State → State → Prop) (start : State) where
  state : Nat → State
  label : Nat → Label
  starts : state 0 = start
  steps : ∀ time, next (label time) (state time) (state (time + 1))

def EndlessRun.staying {label : Label} (stays : next label start start) : EndlessRun next start :=
  ⟨fun _ => start, fun _ => label, rfl, fun _ => stays⟩

def EndlessRun.behind {label : Label} {between : State} (step : next label start between)
    (run : EndlessRun next between) : EndlessRun next start where
  state
    | 0 => start
    | time + 1 => run.state time
  label
    | 0 => label
    | time + 1 => run.label time
  starts := rfl
  steps
    | 0 => (congrArg (next label start) run.starts).mpr step
    | time + 1 => run.steps time

/-- An agent that is able to take a step again and again takes steps again and again. -/
def EndlessRun.Fair (run : EndlessRun next start) (own : Label → Prop) (able : State → Prop) : Prop :=
  (∀ early, ∃ time, early ≤ time ∧ able (run.state time)) → ∀ early, ∃ time, early ≤ time ∧ own (run.label time)

theorem run_reaches (run : EndlessRun next start) (time : Nat) :
    Relation.ReflTransGen (fun state after => ∃ label, next label state after) start (run.state time) := by
  induction time with
  | zero => rw [run.starts]
  | succ time ih => exact ih.tail ⟨run.label time, run.steps time⟩

theorem run_continues {first : State}
    (reaches : Relation.ReflTransGen (fun state after => ∃ label, next label state after) first start)
    (run : EndlessRun next start) :
    ∃ (longer : EndlessRun next first) (steps : Nat), ∀ time, longer.state (steps + time) = run.state time := by
  induction reaches using Relation.ReflTransGen.head_induction_on with
  | refl => exact ⟨run, 0, fun time => by rw [Nat.zero_add]⟩
  | head step _ ih =>
      obtain ⟨label, step⟩ := step
      obtain ⟨longer, steps, same⟩ := ih
      refine ⟨.behind step longer, steps + 1, fun time => ?_⟩
      rw [Nat.add_right_comm]
      exact same time

theorem run_keeps (run : EndlessRun next start) (kept : State → Prop) {early : Nat} (first : kept (run.state early))
    (step : ∀ time, early ≤ time → kept (run.state time) → kept (run.state (time + 1))) :
    ∀ time, early ≤ time → kept (run.state time) := by
  intro time later
  induction time, later using Nat.le_induction with
  | base => exact first
  | succ time later ih => exact step time later ih

/-- The agent reaches its goal: otherwise the measure would descend without end. -/
theorem fair_reaches (run : EndlessRun next start) {own : Label → Prop} {able : State → Prop} (goal : State → Prop)
    (early : Nat) (fair : run.Fair own able) (measure : State → Measure) {smaller : Measure → Measure → Prop}
    (descending : WellFounded smaller)
    (descends : ∀ time, early ≤ time → ¬goal (run.state time) → own (run.label time) →
      smaller (measure (run.state (time + 1))) (measure (run.state time)))
    (keeps : ∀ time, early ≤ time → ¬goal (run.state time) → ¬own (run.label time) →
      measure (run.state (time + 1)) = measure (run.state time))
    (goesOn : (∀ time, early ≤ time → ¬goal (run.state time)) →
      ∀ later, early ≤ later → ∃ time, later ≤ time ∧ able (run.state time)) :
    ∃ time, early ≤ time ∧ goal (run.state time) := by
  by_contra never
  have open_ : ∀ time, early ≤ time → ¬goal (run.state time) := fun time later reached => never ⟨time, later, reached⟩
  -- The least measure that is ever reached, and when.
  let reached : Set Measure := { value | ∃ time, early ≤ time ∧ measure (run.state time) = value }
  obtain ⟨least, ⟨time, later, rfl⟩, minimal⟩ := descending.has_min reached ⟨_, early, le_refl _, rfl⟩
  have rests : ∀ after, time ≤ after →
      measure (run.state after) = measure (run.state time) ∧ ¬own (run.label after) := by
    intro after behind
    induction after, behind using Nat.le_induction with
    | base =>
        refine ⟨rfl, fun steps => ?_⟩
        exact minimal _ ⟨time + 1, by omega, rfl⟩ (descends time later (open_ time later) steps)
    | succ after behind ih =>
        have same : measure (run.state (after + 1)) = measure (run.state time) :=
          (keeps after (by omega) (open_ after (by omega)) ih.2).trans ih.1
        refine ⟨same, fun steps => ?_⟩
        have lower := descends (after + 1) (by omega) (open_ _ (by omega)) steps
        rw [same] at lower
        exact minimal _ ⟨after + 1 + 1, by omega, rfl⟩ lower
  obtain ⟨again, behind, steps⟩ := fair
    (fun later => by
      obtain ⟨after, beyond, able⟩ := goesOn open_ (max early later) (le_max_left _ _)
      exact ⟨after, le_trans (le_max_right _ _) beyond, able⟩) time
  exact (rests again behind).2 steps

end Runs

end MyJQL.FairRuns
