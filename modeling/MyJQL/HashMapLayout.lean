import MyJQL.HashMapModel
import MyJQL.LinkedPages
import MyJQL.PageAccounting
import Mathlib.Algebra.BigOperators.Group.Finset.Basic
import Mathlib.Algebra.Order.Group.Multiset
import Mathlib.Tactic.Abel

/-!
# What a free space map file stands for

A layout lists the chain of every bucket and the blocks of the free list, with the addresses each
block stores, and the pages that belong to neither. `Heap` says that the pages of a file read as a
layout and that every page of the file is accounted for exactly once.
-/

namespace MyJQL.HashMapLayout

open MyJQL.FileIo
open MyJQL.HashMapModel
open MyJQL.LinkedPages
open MyJQL.PageAccounting

set_option autoImplicit false

/-- A block of a bucket chain. `previous` is whatever its `prv` word says. -/
structure ChainBlock where
  addr : Int
  previous : Int
  items : List Int
  deriving DecidableEq

/-- A block of the free list; it stores free addresses, its own first. -/
structure FreeBlock where
  addr : Int
  items : List Int
  deriving DecidableEq

structure HashLayout where
  bucket : Nat → List ChainBlock
  free : List FreeBlock
  orphans : Multiset Int

/-- The first `items.length` entries of the table are the items. -/
structure HoldsItems (block : HashPage) (items : List Int) : Prop where
  count : nItems block = items.length
  bounded : items.length ≤ hashMapBlockSize
  entries : ∀ index (inside : index < items.length), table block index = items[index]

structure HoldsChainBlock (page : HashPage) (block : ChainBlock) : Prop extends
    HoldsItems page block.items where
  previous : prv page = block.previous
  nonempty : block.items ≠ []
  nonneg : ∀ item ∈ block.items, 0 ≤ item
  cleared : ∀ index, block.items.length ≤ index → index < hashMapBlockSize → table page index = -1

structure HoldsFreeBlock (page : HashPage) (block : FreeBlock) : Prop extends
    HoldsItems page block.items where
  own : block.items.head? = some block.addr

def chainShape : NodeShape HashPage ChainBlock := ⟨ChainBlock.addr, next, HoldsChainBlock⟩
def freeShape : NodeShape HashPage FreeBlock := ⟨FreeBlock.addr, next, HoldsFreeBlock⟩

@[simp] theorem chain_shape_addr (block : ChainBlock) : chainShape.addr block = block.addr := rfl
@[simp] theorem chain_shape_next (page : HashPage) : chainShape.next page = next page := rfl
@[simp] theorem free_shape_addr (block : FreeBlock) : freeShape.addr block = block.addr := rfl
@[simp] theorem free_shape_next (page : HashPage) : freeShape.next page = next page := rfl

@[irreducible] def sizes : Nat := 128

theorem sizes_pos : 0 < sizes := by
  simp only [sizes]
  omega

@[irreducible] def reservedPages : Multiset Int := (Multiset.range 9).map fun index : Nat => (index : Int) * pageSize

def blockAddrs (blocks : List ChainBlock) : Multiset Int := (blocks.map ChainBlock.addr : List Int)

namespace HashLayout

def chainPages (layout : HashLayout) : Multiset Int :=
  ∑ size ∈ Finset.range sizes, blockAddrs (layout.bucket size)

def freePages (layout : HashLayout) : Multiset Int := (layout.free.flatMap FreeBlock.items : List Int)

def owned (layout : HashLayout) : Multiset Int :=
  reservedPages + layout.chainPages + layout.freePages + layout.orphans

def bucketEntries (size : Nat) (blocks : List ChainBlock) : Multiset (Nat × Int) :=
  ((blocks.flatMap ChainBlock.items).map fun addr => (size, addr) : List (Nat × Int))

def entries (layout : HashLayout) : Multiset (Nat × Int) :=
  ∑ size ∈ Finset.range sizes, bucketEntries size (layout.bucket size)

def withBucket (layout : HashLayout) (size : Nat) (blocks : List ChainBlock) : HashLayout :=
  { layout with bucket := Function.update layout.bucket size blocks }

def withFree (layout : HashLayout) (free : List FreeBlock) : HashLayout := { layout with free := free }

variable (layout : HashLayout) {size : Nat} (blocks : List ChainBlock)

@[simp] theorem with_bucket_free : (layout.withBucket size blocks).free = layout.free := rfl
@[simp] theorem with_bucket_orphans : (layout.withBucket size blocks).orphans = layout.orphans := rfl
@[simp] theorem with_bucket_self : (layout.withBucket size blocks).bucket size = blocks :=
  Function.update_self _ _ _
theorem with_bucket_other {other : Nat} (different : other ≠ size) :
    (layout.withBucket size blocks).bucket other = layout.bucket other :=
  Function.update_of_ne different _ _
@[simp] theorem with_free_bucket (free : List FreeBlock) :
    (layout.withFree free).bucket = layout.bucket := rfl
@[simp] theorem with_free_chain_pages (free : List FreeBlock) :
    (layout.withFree free).chainPages = layout.chainPages := rfl
@[simp] theorem with_free_entries (free : List FreeBlock) :
    (layout.withFree free).entries = layout.entries := rfl

private theorem sum_change {Item : Type} (parts : Nat → List ChainBlock → Multiset Item)
    (inRange : size < sizes) :
    (∑ index ∈ Finset.range sizes, parts index ((layout.withBucket size blocks).bucket index)) +
        parts size (layout.bucket size) =
      (∑ index ∈ Finset.range sizes, parts index (layout.bucket index)) + parts size blocks := by
  have member : size ∈ Finset.range sizes := Finset.mem_range.mpr inRange
  rw [← Finset.add_sum_erase _ _ member, ← Finset.add_sum_erase (Finset.range sizes)
    (fun index => parts index (layout.bucket index)) member]
  have rest : ∑ index ∈ (Finset.range sizes).erase size,
      parts index ((layout.withBucket size blocks).bucket index) =
        ∑ index ∈ (Finset.range sizes).erase size, parts index (layout.bucket index) := by
    refine Finset.sum_congr rfl fun index other => ?_
    rw [layout.with_bucket_other blocks (Finset.ne_of_mem_erase other)]
  rw [rest, with_bucket_self]
  abel

theorem owned_with_bucket (inRange : size < sizes) :
    (layout.withBucket size blocks).owned + blockAddrs (layout.bucket size) =
      layout.owned + blockAddrs blocks := by
  have change := layout.sum_change blocks (fun _ => blockAddrs) inRange
  have pages : (layout.withBucket size blocks).chainPages + blockAddrs (layout.bucket size) =
      layout.chainPages + blockAddrs blocks := change
  calc (layout.withBucket size blocks).owned + blockAddrs (layout.bucket size)
      = reservedPages + ((layout.withBucket size blocks).chainPages +
          blockAddrs (layout.bucket size)) + layout.freePages + layout.orphans := by
        simp only [owned, freePages, with_bucket_free, with_bucket_orphans]; abel
    _ = layout.owned + blockAddrs blocks := by rw [pages]; simp only [owned]; abel

theorem entries_with_bucket (inRange : size < sizes) :
    (layout.withBucket size blocks).entries + bucketEntries size (layout.bucket size) =
      layout.entries + bucketEntries size blocks :=
  layout.sum_change blocks bucketEntries inRange

def otherChains (size : Nat) : Multiset Int :=
  ∑ index ∈ (Finset.range sizes).erase size, blockAddrs (layout.bucket index)

theorem chain_pages_split (inRange : size < sizes) :
    layout.chainPages = blockAddrs (layout.bucket size) + layout.otherChains size :=
  (Finset.add_sum_erase _ (fun index => blockAddrs (layout.bucket index))
    (Finset.mem_range.mpr inRange)).symm

theorem mem_other_chains {other : Nat} (inRange : other < sizes) (different : other ≠ size)
    {block : ChainBlock} (member : block ∈ layout.bucket other) :
    block.addr ∈ layout.otherChains size := by
  rw [otherChains, Multiset.mem_sum]
  refine ⟨other, Finset.mem_erase.mpr ⟨different, Finset.mem_range.mpr inRange⟩, ?_⟩
  exact Multiset.mem_coe.mpr (List.mem_map_of_mem member)

theorem mem_entries {size : Nat} {addr : Int} : (size, addr) ∈ layout.entries ↔
    size < sizes ∧ ∃ block ∈ layout.bucket size, addr ∈ block.items := by
  simp only [entries, Multiset.mem_sum, Finset.mem_range, bucketEntries, Multiset.mem_coe,
    List.mem_map, List.mem_flatMap, Prod.mk.injEq]
  constructor
  · rintro ⟨_, inRange, _, ⟨block, member, inItems⟩, rfl, rfl⟩
    exact ⟨inRange, block, member, inItems⟩
  · rintro ⟨inRange, block, member, inItems⟩
    exact ⟨size, inRange, addr, ⟨block, member, inItems⟩, rfl, rfl⟩

end HashLayout

theorem mem_block_addrs {blocks : List ChainBlock} {block : ChainBlock} (member : block ∈ blocks) :
    block.addr ∈ blockAddrs blocks := Multiset.mem_coe.mpr (List.mem_map_of_mem member)

/-- The pages read as the layout; `extra` are the pages that the running operation holds. -/
structure Heap (page : Int → HashPage) (length : Int) (layout : HashLayout)
    (extra : Multiset Int) : Prop where
  directory : ∀ size, size < sizes → chainShape.Segment page
    (directory (page (dirAddr size)) (dirSlot size)) (layout.bucket size) (-1)
  free : freeShape.Segment page (freeBlockHead (page 0)) layout.free (-1)
  control : maxSize (page 0) = sizes
  accounted : layout.owned + extra = pagesBelow length
  aligned : length % pageSize = 0

theorem dir_addr_reserved {size : Nat} (inRange : size < sizes) : dirAddr size ∈ reservedPages := by
  simp only [reservedPages, Multiset.mem_map, Multiset.mem_range, dirAddr]
  refine ⟨size / 16 + 1, by simp only [sizes] at inRange; omega, ?_⟩
  simp only [pageSize]
  push_cast
  rfl

theorem zero_reserved : (0 : Int) ∈ reservedPages := by
  simp only [reservedPages, Multiset.mem_map, Multiset.mem_range]
  exact ⟨0, by omega, rfl⟩

theorem dir_addr_ne_zero {size : Nat} : dirAddr size ≠ 0 := by
  simp only [dirAddr, pageSize, hashMapDirBlockSize]
  omega

theorem dir_slot_lt (size : Int) : dirSlot size < hashMapDirBlockSize := by
  simp only [dirSlot, hashMapDirBlockSize]
  omega

theorem dir_slot_ne {size other : Nat} (different : size ≠ other)
    (samePage : dirAddr size = dirAddr other) : dirSlot size ≠ dirSlot other := by
  simp only [dirAddr, dirSlot, pageSize, hashMapDirBlockSize] at samePage ⊢
  omega

section Heap

variable {page : Int → HashPage} {length : Int} {layout : HashLayout} {extra : Multiset Int}

theorem heap_in_file (heap : Heap page length layout extra) {addr : Int}
    (member : addr ∈ layout.owned + extra) :
    0 ≤ addr ∧ addr % pageSize = 0 ∧ addr < length := by
  rw [heap.accounted] at member
  exact (mem_pages_below heap.aligned).mp member

theorem reserved_in_file (heap : Heap page length layout extra) {addr : Int}
    (member : addr ∈ reservedPages) : 0 ≤ addr ∧ addr % pageSize = 0 ∧ addr < length :=
  heap_in_file heap (by simp [HashLayout.owned, member])

theorem chain_in_file (heap : Heap page length layout extra) {size : Nat} (inRange : size < sizes)
    {block : ChainBlock} (member : block ∈ layout.bucket size) :
    0 ≤ block.addr ∧ block.addr % pageSize = 0 ∧ block.addr < length :=
  heap_in_file heap (by
    simp [HashLayout.owned, layout.chain_pages_split inRange, mem_block_addrs member])

theorem free_in_file (heap : Heap page length layout extra) {addr : Int}
    (member : addr ∈ layout.freePages) : 0 ≤ addr ∧ addr % pageSize = 0 ∧ addr < length :=
  heap_in_file heap (by simp [HashLayout.owned, member])

theorem extra_in_file (heap : Heap page length layout extra) {addr : Int} (member : addr ∈ extra) :
    0 ≤ addr ∧ addr % pageSize = 0 ∧ addr < length :=
  heap_in_file heap (by simp [member])

/-- Every page has one owner. All apartness facts about the pages of a map follow from this. -/
theorem owners_once (heap : Heap page length layout extra) {size : Nat} (inRange : size < sizes)
    (addr : Int) :
    reservedPages.count addr + (blockAddrs (layout.bucket size)).count addr +
      (layout.otherChains size).count addr + layout.freePages.count addr + extra.count addr ≤ 1 := by
  have once := Multiset.nodup_iff_count_le_one.mp (pages_below_nodup length) addr
  rw [← heap.accounted, HashLayout.owned, layout.chain_pages_split inRange] at once
  simp only [Multiset.count_add] at once
  omega

theorem free_block_page (heap : Heap page length layout extra) {block : FreeBlock}
    (member : block ∈ layout.free) : block.addr ∈ layout.freePages := by
  obtain ⟨front, back, split⟩ := List.append_of_mem member
  have segment := heap.free
  rw [split] at segment
  have holds := (NodeShape.segment_focus segment).2.1
  refine Multiset.mem_coe.mpr (List.mem_flatMap.mpr ⟨block, member, ?_⟩)
  exact List.mem_of_head? holds.own

theorem chain_block_addrs_nodup (heap : Heap page length layout extra) {size : Nat}
    (inRange : size < sizes) : ((layout.bucket size).map ChainBlock.addr).Nodup := by
  rw [← Multiset.coe_nodup, Multiset.nodup_iff_count_le_one]
  intro addr
  have once := owners_once heap inRange addr
  simp only [blockAddrs] at once
  omega

/-- A change that only concerns one bucket: the rest of the directory and all other chains keep
their pages. -/
theorem heap_with_bucket (heap : Heap page length layout extra) {size : Nat} {changed : Int → HashPage}
    {blocks : List ChainBlock} {newLength : Int} {newExtra : Multiset Int}
    (words : ∀ other, other < sizes → other ≠ size →
      directory (changed (dirAddr other)) (dirSlot other) =
        directory (page (dirAddr other)) (dirSlot other))
    (others : ∀ other, other < sizes → other ≠ size → ∀ block ∈ layout.bucket other,
      changed block.addr = page block.addr)
    (chain : chainShape.Segment changed (directory (changed (dirAddr size)) (dirSlot size)) blocks (-1))
    (control : changed 0 = page 0)
    (free : freeShape.Segment changed (freeBlockHead (page 0)) layout.free (-1))
    (accounted : (layout.withBucket size blocks).owned + newExtra = pagesBelow newLength)
    (aligned : newLength % pageSize = 0) :
    Heap changed newLength (layout.withBucket size blocks) newExtra := by
  refine ⟨?_, by rw [control]; exact free, by rw [control]; exact heap.control, accounted, aligned⟩
  intro other inRange
  by_cases same : other = size
  · rw [same, HashLayout.with_bucket_self]
    exact chain
  · rw [words other inRange same, layout.with_bucket_other blocks same]
    exact NodeShape.segment_frame (others other inRange same) (heap.directory other inRange)

end Heap

end MyJQL.HashMapLayout
