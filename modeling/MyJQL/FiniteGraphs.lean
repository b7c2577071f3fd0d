import Mathlib.Data.Finset.Basic
import Mathlib.Logic.Function.Basic

/-!
# The graph of a finite partial map

A partial map with finitely many entries, as the multiset of them. A map that is changed in one place
gains or loses one entry.
-/

namespace MyJQL.FiniteGraphs

set_option autoImplicit false

variable {Place Value Other : Type}

structure Graph (map : Place → Option Value) (entries : Multiset (Place × Value)) : Prop where
  nodup : (entries.map Prod.fst).Nodup
  mem : ∀ place value, (place, value) ∈ entries ↔ map place = some value

section Lookup

variable {map : Place → Option Value} {entries : Multiset (Place × Value)} {place : Place} {value : Value}

theorem graph_empty : Graph (fun _ : Place => (none : Option Value)) 0 :=
  ⟨Multiset.nodup_zero, by simp⟩

theorem graph_live (graph : Graph map entries) : map place ≠ none ↔ place ∈ entries.map Prod.fst := by
  rw [Option.ne_none_iff_exists', Multiset.mem_map]
  constructor
  · rintro ⟨value, bound⟩
    exact ⟨(place, value), (graph.mem place value).mpr bound, rfl⟩
  · rintro ⟨⟨_, value⟩, member, rfl⟩
    exact ⟨value, (graph.mem _ _).mp member⟩

end Lookup

section Changes

variable [DecidableEq Place] {map : Place → Option Value} {entries : Multiset (Place × Value)} {place : Place}
  {value : Value}

theorem graph_insert (graph : Graph map entries) (absent : map place = none) :
    Graph (Function.update map place (some value)) ((place, value) ::ₘ entries) := by
  have fresh : place ∉ entries.map Prod.fst := fun member => (graph_live graph).mpr member absent
  refine ⟨?_, ?_⟩
  · rw [Multiset.map_cons, Multiset.nodup_cons]
    exact ⟨fresh, graph.nodup⟩
  · intro other content
    rw [Multiset.mem_cons, Prod.mk.injEq, graph.mem, Function.update_apply]
    split_ifs with same
    · simp [same, absent, eq_comm]
    · simp [same]

theorem graph_erase [DecidableEq Value] (graph : Graph map entries) (present : (place, value) ∈ entries) :
    Graph (Function.update map place none) (entries.erase (place, value)) := by
  obtain ⟨rest, rfl⟩ := Multiset.exists_cons_of_mem present
  have nodup := graph.nodup
  rw [Multiset.map_cons, Multiset.nodup_cons] at nodup
  rw [Multiset.erase_cons_head]
  refine ⟨nodup.2, ?_⟩
  intro other content
  rw [Function.update_apply]
  split_ifs with same
  · constructor
    · intro member
      have listed : other ∈ rest.map Prod.fst := Multiset.mem_map_of_mem Prod.fst member
      rw [same] at listed
      exact absurd listed nodup.1
    · intro impossible
      cases impossible
  · rw [← graph.mem, Multiset.mem_cons, Prod.mk.injEq]
    simp [same]

end Changes

end MyJQL.FiniteGraphs
