import Mathlib.Data.List.Infix
import Mathlib.Data.List.Nodup

/-!
# Histories with marked operations

A history tells when an operation is begun, when it acts, and when it is known to have ended. If every
operation acts between the two, the order in which the operations act respects their order in time: what
had ended before another was begun acts before it.
-/

namespace MyJQL.MarkedHistories

set_option autoImplicit false

variable {Event Id Operation : Type}

structure Reading (Event Id Operation : Type) where
  begins : Event → Option Id
  acts : Event → Option Operation
  ends : Event → Option Id
  identity : Operation → Id

namespace Reading

variable (reading : Reading Event Id Operation)

def order (history : List Event) : List Operation := history.filterMap reading.acts

/-- Nothing acts that was not begun, nothing has ended that did not act, and nothing is begun or acts twice. -/
structure Closed (history : List Event) : Prop where
  begun : ∀ operation ∈ reading.order history, reading.identity operation ∈ history.filterMap reading.begins
  acted : ∀ identity ∈ history.filterMap reading.ends, ∃ operation ∈ reading.order history,
    reading.identity operation = identity
  beginsOnce : (history.filterMap reading.begins).Nodup
  actsOnce : ((reading.order history).map reading.identity).Nodup

def Marked (history : List Event) : Prop := ∀ front, front <+: history → reading.Closed front

variable {reading} {history front back events : List Event} {event : Event} {early late : Operation}

theorem marked_nil : reading.Marked [] := by
  intro front empty
  rw [List.prefix_nil.mp empty]
  exact ⟨by simp [order], by simp, by simp, by simp [order]⟩

theorem marked_append (marked : reading.Marked history) (single : events.length ≤ 1)
    (closed : reading.Closed (history ++ events)) : reading.Marked (history ++ events) := by
  intro front first
  obtain ⟨behind, split⟩ := first
  rcases List.append_eq_append_iff.mp split with ⟨more, same, _⟩ | ⟨more, same, rest⟩
  · exact marked front ⟨more, same.symm⟩
  · cases more with
    | nil =>
        rw [List.append_nil] at same
        rw [same]
        exact marked history (List.prefix_refl _)
    | cons event more =>
        rw [rest, List.length_append, List.length_cons] at single
        have none : behind = [] := List.length_eq_zero_iff.mp (by omega)
        rw [none, List.append_nil] at rest
        rw [same, ← rest]
        exact closed

/-- The order of the operations respects time. -/
theorem marked_real_time (marked : reading.Marked history) (split : history = front ++ event :: back)
    (begun : reading.begins event = some (reading.identity late))
    (ended : reading.identity early ∈ front.filterMap reading.ends) (earlyActs : early ∈ reading.order history)
    (lateActs : late ∈ reading.order history) : [early, late].Sublist (reading.order history) := by
  have whole := marked history (List.prefix_refl _)
  have before := marked front ⟨_, split.symm⟩
  have parts : reading.order history = reading.order front ++ reading.order (event :: back) := by
    rw [split, order, List.filterMap_append]
    rfl
  obtain ⟨same, inFront, sameIdentity⟩ := before.acted _ ended
  have earlyFirst : early ∈ reading.order front := by
    have member : same ∈ reading.order history := parts ▸ List.mem_append_left _ inFront
    rw [← List.inj_on_of_nodup_map whole.actsOnce member earlyActs sameIdentity]
    exact inFront
  have lateNotYet : late ∉ reading.order front := by
    intro acted
    have twice := whole.beginsOnce
    rw [split, List.filterMap_append, List.filterMap_cons_some begun] at twice
    exact (List.disjoint_of_nodup_append twice) (before.begun late acted) List.mem_cons_self
  rw [parts] at lateActs ⊢
  have lateBehind : late ∈ reading.order (event :: back) := (List.mem_append.mp lateActs).resolve_left lateNotYet
  exact (List.singleton_sublist.mpr earlyFirst).append (List.singleton_sublist.mpr lateBehind)

end Reading

end MyJQL.MarkedHistories
