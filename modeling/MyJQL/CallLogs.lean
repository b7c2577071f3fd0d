import Mathlib.Data.Multiset.AddSub
import Mathlib.Data.Multiset.MapFold
import Mathlib.Data.Multiset.UnionInter
import Mathlib.Algebra.Order.Group.Multiset
import Mathlib.Tactic.Abel

/-!
# Logs of calls that copy and free references

A component that is handed references to a store of somebody else calls that store to have references
compared, copied and freed. Each call is written down with the store as it was before the call. Where
a call uses live references only, gets a copy that it does not hold yet, and frees only what it holds,
the references that are held are those returned and not freed since.
-/

namespace MyJQL.CallLogs

set_option autoImplicit false

variable {Ref Store : Type}

inductive Call (Ref Store : Type) where
  | compared (store : Store) (refs : List Ref)
  | copied (store : Store) (ref copy : Ref)
  | freed (store : Store) (ref : Ref)

namespace Call

def store : Call Ref Store → Store
  | compared store _ => store
  | copied store _ _ => store
  | freed store _ => store

def refs : Call Ref Store → List Ref
  | compared _ refs => refs
  | copied _ ref _ => [ref]
  | freed _ ref => [ref]

def result : Call Ref Store → Option Ref
  | copied _ _ copy => some copy
  | _ => none

def released : Call Ref Store → Option Ref
  | freed _ ref => some ref
  | _ => none

end Call

/-- The calls, the latest one first. -/
abbrev Log (Ref Store : Type) := List (Call Ref Store)

def returned (log : Log Ref Store) : Multiset Ref := (log.filterMap Call.result : List Ref)

def passed (log : Log Ref Store) : Multiset Ref := (log.filterMap Call.released : List Ref)

section Equations

variable (store : Store) (refs : List Ref) (ref copy : Ref) (log : Log Ref Store)

@[simp] theorem returned_nil : returned ([] : Log Ref Store) = 0 := rfl
@[simp] theorem returned_compared : returned (.compared store refs :: log) = returned log := rfl
@[simp] theorem returned_copied : returned (.copied store ref copy :: log) = copy ::ₘ returned log := rfl
@[simp] theorem returned_freed : returned (.freed store ref :: log) = returned log := rfl
@[simp] theorem passed_nil : passed ([] : Log Ref Store) = 0 := rfl
@[simp] theorem passed_compared : passed (.compared store refs :: log) = passed log := rfl
@[simp] theorem passed_copied : passed (.copied store ref copy :: log) = passed log := rfl
@[simp] theorem passed_freed : passed (.freed store ref :: log) = ref ::ₘ passed log := rfl

end Equations

/-- Between two calls that free a reference it is returned again. -/
def Alternates (log : Log Ref Store) : Prop :=
  ∀ later between earlier first second ref,
    log = later ++ .freed second ref :: (between ++ .freed first ref :: earlier) → ref ∈ returned between

variable [DecidableEq Ref]

/-- A log with the references that are held at its end. -/
inductive Orderly (live : Store → Ref → Prop) : Log Ref Store → Multiset Ref → Prop
  | nil : Orderly live [] 0
  | compared {store : Store} {refs : List Ref} {log : Log Ref Store} {held : Multiset Ref}
      (before : Orderly live log held) (known : ∀ ref ∈ refs, live store ref) :
      Orderly live (.compared store refs :: log) held
  | copied {store : Store} {ref copy : Ref} {log : Log Ref Store} {held : Multiset Ref}
      (before : Orderly live log held) (known : live store ref) (fresh : copy ∉ held) :
      Orderly live (.copied store ref copy :: log) (copy ::ₘ held)
  | freed {store : Store} {ref : Ref} {log : Log Ref Store} {held : Multiset Ref}
      (before : Orderly live log held) (known : live store ref) (member : ref ∈ held) :
      Orderly live (.freed store ref :: log) (held.erase ref)

section Orderly

variable {live : Store → Ref → Prop} {log : Log Ref Store} {held : Multiset Ref}

theorem orderly_nodup (orderly : Orderly live log held) : held.Nodup := by
  induction orderly with
  | nil => exact Multiset.nodup_zero
  | compared _ _ ih => exact ih
  | copied _ _ fresh ih => exact Multiset.nodup_cons.mpr ⟨fresh, ih⟩
  | freed _ _ _ ih => exact ih.erase _

theorem orderly_live (orderly : Orderly live log held) :
    ∀ call ∈ log, ∀ ref ∈ call.refs, live call.store ref := by
  have extended : ∀ {call : Call Ref Store} {rest : Log Ref Store},
      (∀ ref ∈ call.refs, live call.store ref) →
      (∀ other ∈ rest, ∀ ref ∈ other.refs, live other.store ref) →
      ∀ other ∈ call :: rest, ∀ ref ∈ other.refs, live other.store ref := by
    intro call rest first others other member
    rcases List.mem_cons.mp member with rfl | inRest
    · exact first
    · exact others other inRest
  induction orderly with
  | nil => simp
  | compared _ known ih => exact extended known ih
  | copied _ known _ ih =>
      refine extended ?_ ih
      intro ref own
      rw [List.mem_singleton.mp own]
      exact known
  | freed _ known _ ih =>
      refine extended ?_ ih
      intro ref own
      rw [List.mem_singleton.mp own]
      exact known

theorem orderly_balance (orderly : Orderly live log held) : held + passed log = returned log := by
  induction orderly with
  | nil => rfl
  | compared _ _ ih => exact ih
  | copied _ _ _ ih => rw [passed_copied, returned_copied, Multiset.cons_add, ih]
  | freed _ _ member ih =>
      rw [passed_freed, returned_freed, Multiset.add_cons, ← Multiset.cons_add, Multiset.cons_erase member, ih]

/-- A reference that is held now was held already before the last calls, or it is one of their results. -/
theorem orderly_held_since {ref : Ref} {recent earlier : Log Ref Store}
    (orderly : Orderly live (recent ++ earlier) held) (member : ref ∈ held) :
    ref ∈ returned recent ∨ ∃ before, Orderly live earlier before ∧ ref ∈ before := by
  induction recent generalizing held with
  | nil => exact .inr ⟨held, orderly, member⟩
  | cons call rest ih =>
      cases orderly with
      | compared before _ => exact ih before member
      | copied before _ _ =>
          rw [returned_copied, Multiset.mem_cons]
          rcases Multiset.mem_cons.mp member with own | old
          · exact .inl (.inl own)
          · exact (ih before old).imp_left .inr
      | freed before _ _ => exact ih before (Multiset.mem_of_mem_erase member)

theorem orderly_suffix {recent earlier : Log Ref Store} (orderly : Orderly live (recent ++ earlier) held) :
    ∃ before, Orderly live earlier before := by
  induction recent generalizing held with
  | nil => exact ⟨held, orderly⟩
  | cons call rest ih =>
      cases orderly with
      | compared before _ => exact ih before
      | copied before _ _ => exact ih before
      | freed before _ _ => exact ih before

theorem orderly_alternates (orderly : Orderly live log held) : Alternates log := by
  rintro later between earlier first second ref rfl
  obtain ⟨_, last⟩ := orderly_suffix orderly
  cases last with
  | freed before _ member =>
      rcases orderly_held_since before member with again | ⟨_, freed, still⟩
      · exact again
      · cases freed with
        | freed unfreed _ _ => exact absurd still (orderly_nodup unfreed).notMem_erase

end Orderly

end MyJQL.CallLogs
