import MyJQL.FileIo
import Mathlib.Data.Multiset.Range
import Mathlib.Data.Multiset.MapFold
import Mathlib.Data.Multiset.UnionInter
import Mathlib.Tactic.Linarith

/-!
# Which pages a file has

The page addresses below a length as a multiset. An owner of a file accounts for it by writing
this multiset as a sum; it has no repetitions, so the parts of such a sum are disjoint.
-/

namespace MyJQL.PageAccounting

open MyJQL.FileIo

set_option autoImplicit false

@[irreducible] def pagesBelow (length : Int) : Multiset Int :=
  (Multiset.range (length / pageSize).toNat).map fun index : Nat => (index : Int) * pageSize

theorem pages_below_nodup (length : Int) : (pagesBelow length).Nodup := by
  rw [pagesBelow]
  refine Multiset.Nodup.map ?_ (Multiset.nodup_range _)
  intro first second same
  simp only [pageSize] at same
  omega

theorem card_pages_below (length : Int) : (pagesBelow length).card = (length / pageSize).toNat := by
  rw [pagesBelow, Multiset.card_map, Multiset.card_range]

theorem mem_pages_below {length addr : Int} (aligned : length % pageSize = 0) :
    addr ∈ pagesBelow length ↔ 0 ≤ addr ∧ addr % pageSize = 0 ∧ addr < length := by
  simp only [pagesBelow, Multiset.mem_map, Multiset.mem_range, pageSize] at *
  constructor
  · rintro ⟨index, bound, rfl⟩
    omega
  · rintro ⟨nonneg, addrAligned, bound⟩
    exact ⟨(addr / 128).toNat, by omega, by omega⟩

theorem pages_below_grow (length : Int) (nonneg : 0 ≤ length) (aligned : length % pageSize = 0) :
    pagesBelow (length + pageSize) = length ::ₘ pagesBelow length := by
  have count : ((length + pageSize) / pageSize).toNat = (length / pageSize).toNat + 1 := by
    simp only [pageSize] at *
    omega
  have last : (((length / pageSize).toNat : Nat) : Int) * pageSize = length := by
    simp only [pageSize] at *
    omega
  rw [pagesBelow, count, Multiset.range_succ, Multiset.map_cons, last, pagesBelow]

theorem apart {first second rest whole : Multiset Int} {addr other : Int} (nodup : whole.Nodup)
    (split : whole = first + second + rest) (inFirst : addr ∈ first) (inSecond : other ∈ second) :
    addr ≠ other := by
  rintro rfl
  have once := Multiset.nodup_iff_count_le_one.mp nodup addr
  rw [split, Multiset.count_add, Multiset.count_add] at once
  have := Multiset.count_pos.mpr inFirst
  have := Multiset.count_pos.mpr inSecond
  omega

end MyJQL.PageAccounting
