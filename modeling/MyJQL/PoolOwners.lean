import MyJQL.BTreeInvariants
import MyJQL.Reopening
import MyJQL.TableRefinement

/-!
# Pools in the hands of their owners

Some lines that belong to the pool stand in the modules of its owners: they empty the frame of the
last page and shorten the file. Whatever the owners do, no page is cached twice, every cached page is
in the file, and closing the pool writes nothing behind the end of the file.
-/

namespace MyJQL.PoolOwners

open MyJQL.FileIo
open MyJQL.BufferPoolModel
open MyJQL.BufferPoolInvariant
open MyJQL.BufferPoolTransparency
open MyJQL.StateProgram
open MyJQL.PageStoreLogic
open MyJQL.HashMapModel
open MyJQL.HashMapRefinement
open MyJQL.TableModel
open MyJQL.TableStore
open MyJQL.TableRefinement
open MyJQL.BTreeModel
open MyJQL.BTreeLayout
open MyJQL.BTreeSearch
open MyJQL.BTreeRefinement

set_option autoImplicit false

variable {Page : Type}

structure CacheConsistent (pool : BufferPool Page) : Prop where
  distinct : ∀ frame other, 0 ≤ pool.addrs frame → pool.addrs frame = pool.addrs other → frame = other
  inside : ∀ frame, pool.addrs frame = -1 ∨
    (0 ≤ pool.addrs frame ∧ pool.addrs frame % pageSize = 0 ∧ pool.addrs frame < pool.file.length)
  unpinned : ∀ frame, pool.addrs frame = -1 → pool.ref frame = 0
  closesShort : (closeBufferPool pool).file.fp.size = pool.file.fp.size
  keepsBehind : ∀ addr, pool.file.length ≤ addr →
    (closeBufferPool pool).file.fp.page addr = pool.file.fp.page addr

theorem invariant_consistent {pool : BufferPool Page} (invariant : PoolInvariant pool) : CacheConsistent pool where
  distinct frame other nonneg same := invariant.addrsDistinct frame other same (by omega)
  inside := invariant.addrsInside
  unpinned := invariant.emptyUnpinned
  closesShort := close_disk_size invariant
  keepsBehind _ behind := close_disk_behind invariant behind

/-- All that an owner ever does to its pool, one thing at a time. -/
inductive OwnerStep : BufferPool Page → BufferPool Page → Prop
  | fetched {pool : BufferPool Page} (addr : Int) (isPage : IsPageAddr addr) : OwnerStep pool (getPage pool addr).2
  | written {pool : BufferPool Page} (frame : Frame) (page : Page) : OwnerStep pool (writeFrame pool frame page)
  | released {pool : BufferPool Page} (addr : Int) : OwnerStep pool (release pool addr)
  | cut {pool : BufferPool Page} (addr : Int) (nonneg : 0 ≤ addr) (last : addr = pool.file.length - pageSize) :
      OwnerStep pool (cutLastPage pool addr)

theorem owner_step_invariant {pool after : BufferPool Page} (step : OwnerStep pool after)
    (invariant : PoolInvariant pool) : PoolInvariant after := by
  cases step with
  | fetched addr isPage => exact get_page_invariant invariant isPage.2 isPage.1
  | written frame page => exact write_frame_invariant invariant frame page
  | released addr => exact release_invariant invariant addr
  | cut addr nonneg last => exact cut_last_page_invariant invariant nonneg last

theorem owner_steps_invariant {pool after : BufferPool Page} (steps : Relation.ReflTransGen OwnerStep pool after)
    (invariant : PoolInvariant pool) : PoolInvariant after := by
  induction steps with
  | refl => exact invariant
  | tail _ step ih => exact owner_step_invariant step ih

theorem table_pools_invariant {table : Table} {heap : Heap} (reachable : TableReachable table heap) :
    PoolInvariant table.1 ∧ PoolInvariant table.2 := by
  obtain ⟨_, _, stores, _, _, fsmStores⟩ := table_reachable_holds reachable
  exact ⟨stores.invariant, fsmStores.invariant⟩

theorem hash_pool_invariant {pool : HashPool} {map : SizeMap} (reachable : HashReachable pool map) :
    PoolInvariant pool := by
  obtain ⟨_, _, stores, _⟩ := hash_reachable_invariant reachable
  exact stores.invariant

/-- The pools of the tables and of the tree, in every state that their operations reach, and any pool
in the middle of them. -/
theorem pools_consistent :
    (∀ table heap, TableReachable table heap → CacheConsistent table.1 ∧ CacheConsistent table.2) ∧
    (∀ pool map, HashReachable pool map → CacheConsistent pool) ∧
    (∀ {Key Store : Type} [LinearOrder Key] (degree : Nat) (callbacks : Callbacks Store) (holds : Standing Key Store),
      2 ≤ degree → (∀ records, Contract (holds records) records callbacks) →
      ∀ bindings records index, Reached degree callbacks holds bindings records index → CacheConsistent index.1) ∧
    ∀ {Page : Type} (disk : Disk Page) (memory pool : BufferPool Page), 0 ≤ disk.size → disk.size % pageSize = 0 →
      Relation.ReflTransGen OwnerStep (initBufferPool disk memory) pool → CacheConsistent pool := by
  refine ⟨?_, ?_, ?_, ?_⟩
  · intro table heap reachable
    obtain ⟨data, fsm⟩ := table_pools_invariant reachable
    exact ⟨invariant_consistent data, invariant_consistent fsm⟩
  · intro pool map reachable
    exact invariant_consistent (hash_pool_invariant reachable)
  · intro Key Store _ degree callbacks holds enough contract bindings records index reached
    obtain ⟨_, _, _, stores, _⟩ := reached_invariant contract enough reached
    exact invariant_consistent stores.invariant
  · intro Page disk memory pool nonneg aligned steps
    exact invariant_consistent (owner_steps_invariant steps (init_invariant disk memory nonneg aligned))

/-- A tree with one record, and a file without pages whose first page is fetched. -/
theorem pools_consistent_first : (∃ index : Index Unit, CacheConsistent index.1) ∧
    CacheConsistent (getPage (initBufferPool emptyIndexDisk blankIndexPool) 0).2 := by
  obtain ⟨_, _, trees, steps⟩ := pools_consistent
  refine ⟨?_, ?_⟩
  · obtain ⟨index, reached⟩ := first_row_reached
    exact ⟨index, trees 3 addressCallbacks addressed (by decide) address_contract _ _ _ reached⟩
  · apply steps emptyIndexDisk blankIndexPool _ (by decide) (by decide)
    exact .single (.fetched 0 ⟨by decide, by decide⟩)

end MyJQL.PoolOwners
