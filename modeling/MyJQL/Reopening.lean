import MyJQL.PageStoreLogic
import MyJQL.PageAccounting
import Mathlib.Algebra.Order.Group.Multiset
import Mathlib.Algebra.Order.Sub.Basic

/-!
# Closing a pool and opening its file again

Closing writes every cached page to the file, and opening takes the length of the file from its end.
Nothing ever shortens the file on the disk, so a pool that cut pages off gets them back when it is
opened again. The length comes back as the greatest one that the file has had.
-/

namespace MyJQL.Reopening

open MyJQL.FileIo
open MyJQL.BufferPoolModel
open MyJQL.BufferPoolInvariant
open MyJQL.BufferPoolTransparency
open MyJQL.PageStoreLogic
open MyJQL.PageAccounting

set_option autoImplicit false

variable {Page : Type}

/-- `close_buffer_pool`, then `init_buffer_pool` on the same file. -/
def reopen (pool memory : BufferPool Page) : BufferPool Page :=
  initBufferPool (closeBufferPool pool).file.fp memory

section Store

variable {store : PageStore Page} {pool : BufferPool Page}

theorem size_covers_length (stores : StoresPool store pool) : store.length ≤ store.size := by
  rw [← stores.length, ← stores.size]
  exact stores.invariant.stored

theorem reopened_stores (stores : StoresPool store pool) (memory : BufferPool Page) :
    ∃ again : PageStore Page, StoresPool again (reopen pool memory) ∧ PinnedWithin again [] ∧
      again.length = store.size ∧ again.size = store.size ∧
      ∀ addr, 0 ≤ addr → addr % pageSize = 0 → addr < store.length → again.page addr = store.page addr := by
  have size : (closeBufferPool pool).file.fp.size = store.size :=
    (close_disk_size stores.invariant).trans stores.size
  have nonneg := stores.invariant.lengthNonneg
  have stored := stores.invariant.stored
  rw [stores.size] at stored
  refine ⟨PageStore.opened (closeBufferPool pool).file.fp, ?_, opened_pinned_within _ _, size, size, ?_⟩
  · apply opened_stores
    · rw [size]
      omega
    · rw [size]
      exact stores.sizeAligned
  · intro addr lower aligned inside
    have inFile : InFile pool addr := ⟨lower, aligned, by rw [stores.length]; exact inside⟩
    rw [← stores.page addr inFile]
    exact close_disk_page stores.invariant lower

theorem reopen_length (invariant : PoolInvariant pool) (sizeAligned : pool.file.fp.size % pageSize = 0)
    (memory : BufferPool Page) : (reopen pool memory).file.length = pool.file.fp.size := by
  have size := close_disk_size invariant
  rw [reopen, initBufferPool, openFile, if_neg (by rw [size]; omega)]
  exact size

end Store

/-- The pages between the end of the file in memory and its end on the disk. -/
def stalePages (length size : Int) : Multiset Int := pagesBelow size - pagesBelow length

theorem pages_below_mono {length size : Int} (lengthAligned : length % pageSize = 0)
    (sizeAligned : size % pageSize = 0) (shorter : length ≤ size) : pagesBelow length ≤ pagesBelow size := by
  rw [Multiset.le_iff_subset (pages_below_nodup length)]
  intro addr member
  obtain ⟨nonneg, aligned, inside⟩ := (mem_pages_below lengthAligned).mp member
  exact (mem_pages_below sizeAligned).mpr ⟨nonneg, aligned, by omega⟩

theorem pages_come_back {length size : Int} (lengthAligned : length % pageSize = 0)
    (sizeAligned : size % pageSize = 0) (shorter : length ≤ size) :
    pagesBelow size = pagesBelow length + stalePages length size := by
  rw [stalePages]
  exact (add_tsub_cancel_of_le (pages_below_mono lengthAligned sizeAligned shorter)).symm

theorem no_stale_pages (length : Int) : stalePages length length = 0 := by
  apply Multiset.ext.mpr
  intro addr
  rw [stalePages, Multiset.count_sub, Nat.sub_self, Multiset.count_zero]

/-- The file on the disk is as long as the file in memory ever was; `lengths` are its earlier lengths. -/
structure HighWater (pool : BufferPool Page) (lengths : List Int) : Prop where
  above : ∀ length ∈ lengths, length ≤ pool.file.fp.size
  attained : pool.file.fp.size = pool.file.length ∨ pool.file.fp.size ∈ lengths

/-- A call that only puts pages behind the file, or only cuts pages off, leaves the disk this long. -/
def Resized (before after : BufferPool Page) : Prop :=
  after.file.fp.size = max before.file.fp.size after.file.length

section HighWater

variable {pool after : BufferPool Page} {lengths : List Int} {store final : PageStore Page}

theorem high_water_fresh (same : pool.file.fp.size = pool.file.length) : HighWater pool [] :=
  ⟨by simp, .inl same⟩

theorem high_water_resized (water : HighWater pool lengths) (invariant : PoolInvariant pool)
    (resized : Resized pool after) : HighWater after (pool.file.length :: lengths) := by
  have stored := invariant.stored
  rw [Resized] at resized
  refine ⟨?_, ?_⟩
  · intro length member
    rcases List.mem_cons.mp member with rfl | earlier
    · omega
    · have := water.above length earlier
      omega
  · rcases max_choice pool.file.fp.size after.file.length with kept | grown
    · rw [resized, kept]
      right
      rcases water.attained with same | earlier
      · rw [same]
        exact List.mem_cons_self
      · exact List.mem_cons_of_mem _ earlier
    · exact .inl (resized.trans grown)

theorem grew_resized (stores : StoresPool store pool)
    (related : StoresWhere (Grew store.length store.size) final after) : Resized pool after := by
  obtain ⟨finalStores, _, size⟩ := related
  rw [Resized, finalStores.size, finalStores.length, stores.size]
  exact size

theorem shrank_resized (stores : StoresPool store pool)
    (related : StoresWhere (Shrank store.length store.size) final after) : Resized pool after := by
  obtain ⟨finalStores, shorter, size⟩ := related
  have covered := size_covers_length stores
  rw [Resized, finalStores.size, finalStores.length, stores.size, size]
  omega

theorem grew_lengthens (stores : StoresPool store pool)
    (related : StoresWhere (Grew store.length store.size) final after) : pool.file.length ≤ after.file.length := by
  obtain ⟨finalStores, longer, _⟩ := related
  rw [finalStores.length, stores.length]
  exact longer

theorem shrank_shortens (stores : StoresPool store pool)
    (related : StoresWhere (Shrank store.length store.size) final after) : after.file.length ≤ pool.file.length := by
  obtain ⟨finalStores, shorter, _⟩ := related
  rw [finalStores.length, stores.length]
  exact shorter

theorem grew_refl (stores : StoresPool store pool) : StoresWhere (Grew store.length store.size) store pool :=
  ⟨stores, le_rfl, (max_eq_left (size_covers_length stores)).symm⟩

theorem shrank_refl (stores : StoresPool store pool) : StoresWhere (Shrank store.length store.size) store pool :=
  ⟨stores, le_rfl, rfl⟩

/-- The length comes back exactly if it never was greater. -/
theorem reopen_length_iff (water : HighWater pool lengths) (invariant : PoolInvariant pool)
    (sizeAligned : pool.file.fp.size % pageSize = 0) (memory : BufferPool Page) :
    (reopen pool memory).file.length = pool.file.length ↔ ∀ length ∈ lengths, length ≤ pool.file.length := by
  rw [reopen_length invariant sizeAligned]
  constructor
  · intro same length earlier
    rw [← same]
    exact water.above length earlier
  · intro never
    rcases water.attained with same | earlier
    · exact same
    · exact le_antisymm (never _ earlier) invariant.stored

end HighWater

end MyJQL.Reopening
