import MyJQL.StateProgram
import Mathlib.Logic.Function.Basic

/-!
# What the callers of the store see

The store is a finite map from byte strings to byte strings. A call does something to the map and
answers something about it, and a run of calls is replayed on the map from its start.
-/

namespace MyJQL.KeyValueStore

open MyJQL.StateProgram

set_option autoImplicit false

abbrev Bytes := List UInt8

/-- The calls of `myjql.h`. -/
inductive StoreCall where
  | get (key : Bytes) (maxSize : Nat)
  | set (key value : Bytes)
  | del (key : Bytes)
  deriving DecidableEq

/-- Only `myjql_get` answers: the length of the value and the bytes written to the buffer. -/
abbrev StoreAnswer := Option (Nat × Bytes)

abbrev Bindings := Bytes → Option Bytes

def noBindings : Bindings := fun _ => none

namespace StoreCall

def answer (bindings : Bindings) : StoreCall → StoreAnswer
  | get key maxSize => (bindings key).map fun value => (value.length, value.take maxSize)
  | set _ _ => none
  | del _ => none

def apply (bindings : Bindings) : StoreCall → Bindings
  | get _ _ => bindings
  | set key value => Function.update bindings key (some value)
  | del key => Function.update bindings key none

end StoreCall

def replay (bindings : Bindings) : List StoreCall → Bindings
  | [] => bindings
  | call :: calls => replay (call.apply bindings) calls

/-- Every call of a run was answered from the map that the calls before it had made. -/
def Answered (bindings : Bindings) : List (StoreCall × StoreAnswer) → Prop
  | [] => True
  | (call, answer) :: rest => answer = call.answer bindings ∧ Answered (call.apply bindings) rest

/-- A store that cannot be told from the map. -/
def Faithful {Store : Type} (represents : Bindings → Store → Prop)
    (backend : StoreCall → Program Store StoreAnswer) : Prop :=
  ∀ bindings call, Ensures represents bindings (backend call) fun answer after =>
    answer = call.answer bindings ∧ after = call.apply bindings

def mapStore (call : StoreCall) : Program Bindings StoreAnswer :=
  fun bindings => some (call.answer bindings, call.apply bindings)

theorem map_store_faithful : Faithful (fun bindings store => bindings = store) mapStore := by
  rintro bindings call _ rfl
  exact ⟨_, _, _, rfl, rfl, rfl, rfl⟩

theorem replay_append (bindings : Bindings) (front calls : List StoreCall) :
    replay bindings (front ++ calls) = replay (replay bindings front) calls := by
  induction front generalizing bindings with
  | nil => rfl
  | cons call front ih => exact ih (call.apply bindings)

theorem answered_append (bindings : Bindings) (front rest : List (StoreCall × StoreAnswer)) :
    Answered bindings (front ++ rest) ↔
      Answered bindings front ∧ Answered (replay bindings (front.map Prod.fst)) rest := by
  induction front generalizing bindings with
  | nil => simp [Answered, replay]
  | cons entry front ih =>
      simp only [List.cons_append, Answered, List.map_cons, replay, ih, and_assoc]

theorem answered_values {valid : Bytes → Prop} {bindings : Bindings} {log : List (StoreCall × StoreAnswer)}
    (first : ∀ key value, bindings key = some value → valid value) (answered : Answered bindings log)
    (stored : ∀ key value, .set key value ∈ log.map Prod.fst → valid value) (call : StoreCall) (size : Nat)
    (text : Bytes) (found : (call, some (size, text)) ∈ log) : ∃ value, valid value ∧ size = value.length := by
  induction log generalizing bindings with
  | nil => cases found
  | cons entry log ih =>
      obtain ⟨made, answer⟩ := entry
      obtain ⟨rfl, later⟩ := answered
      have behind := fun key value member => stored key value (List.mem_cons_of_mem made member)
      rcases List.mem_cons.mp found with same | member
      · obtain ⟨rfl, told⟩ := Prod.mk.inj same
        cases call with
        | get key maxSize =>
            obtain ⟨value, bound, same⟩ := Option.map_eq_some_iff.mp told.symm
            exact ⟨value, first key value bound, (Prod.mk.inj same).1.symm⟩
        | set _ _ | del _ => cases told
      · refine ih (fun key value bound => ?_) later behind member
        cases made with
        | get _ _ => exact first key value bound
        | set other stores =>
            by_cases same : key = other
            · subst same
              obtain rfl := Option.some.inj ((Function.update_self key _ _).symm.trans bound)
              exact stored key _ List.mem_cons_self
            · exact first key value ((Function.update_of_ne same _ _).symm.trans bound)
        | del other =>
            by_cases same : key = other
            · subst same
              cases (Function.update_self key _ _).symm.trans bound
            · exact first key value ((Function.update_of_ne same _ _).symm.trans bound)

theorem replay_untouched (bindings : Bindings) (key : Bytes) (calls : List StoreCall)
    (untouched : ∀ call ∈ calls, (∀ value, call ≠ .set key value) ∧ call ≠ .del key) :
    replay bindings calls key = bindings key := by
  induction calls generalizing bindings with
  | nil => rfl
  | cons call calls ih =>
      rw [replay, ih _ fun other member => untouched other (List.mem_cons_of_mem call member)]
      have here := untouched call List.mem_cons_self
      cases call with
      | get other maxSize => rfl
      | set other value =>
          refine Function.update_of_ne (fun same => here.1 value ?_) _ _
          rw [same]
      | del other =>
          refine Function.update_of_ne (fun same => here.2 ?_) _ _
          rw [same]

end MyJQL.KeyValueStore
