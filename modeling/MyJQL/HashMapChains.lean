import MyJQL.HashMapFreeList

/-!
# Edits of one bucket chain

What inserting and removing do to the pages of a map, apart from how the functions get there: an
entry is added to or taken from a block, a block is linked behind the chain or unlinked from it.
-/

namespace MyJQL.HashMapChains

open MyJQL.FileIo
open MyJQL.HashMapModel
open MyJQL.HashMapLayout
open MyJQL.LinkedPages
open MyJQL.PageAccounting

set_option autoImplicit false

section Heap

variable {page changed : Int → HashPage} {length : Int} {layout : HashLayout}
  {extra newExtra : Multiset Int} {size : Nat} {front back : List ChainBlock} {block : ChainBlock}

theorem dir_apart (heap : Heap page length layout extra) (inRange : size < sizes) {addr : Int}
    (member : addr ∈ blockAddrs (layout.bucket size) + extra) : addr ≠ dirAddr size := by
  rintro rfl
  have once := owners_once heap inRange (dirAddr size)
  have := Multiset.count_pos.mpr (dir_addr_reserved inRange)
  have := Multiset.count_pos.mpr member
  rw [Multiset.count_add] at this
  omega

/-- A change inside one chain, its directory word and the held pages. -/
theorem heap_change_bucket (heap : Heap page length layout extra) (inRange : size < sizes)
    {blocks : List ChainBlock}
    (same : ∀ addr, addr ∉ blockAddrs (layout.bucket size) + extra → addr ≠ dirAddr size →
      changed addr = page addr)
    (words : ∀ index, index ≠ dirSlot size →
      directory (changed (dirAddr size)) index = directory (page (dirAddr size)) index)
    (chain : chainShape.Segment changed (directory (changed (dirAddr size)) (dirSlot size)) blocks (-1))
    (accounted : blockAddrs blocks + newExtra = blockAddrs (layout.bucket size) + extra) :
    Heap changed length (layout.withBucket size blocks) newExtra := by
  have outside : ∀ addr, (blockAddrs (layout.bucket size)).count addr + extra.count addr = 0 →
      addr ≠ dirAddr size → changed addr = page addr := by
    intro addr none apart
    refine same addr (fun member => ?_) apart
    have := Multiset.count_pos.mpr member
    rw [Multiset.count_add] at this
    omega
  have reservedSame : ∀ addr ∈ reservedPages, addr ≠ dirAddr size → changed addr = page addr := by
    intro addr member apart
    have once := owners_once heap inRange addr
    have := Multiset.count_pos.mpr member
    exact outside addr (by omega) apart
  have control := reservedSame 0 zero_reserved dir_addr_ne_zero.symm
  refine heap_with_bucket heap ?_ ?_ chain control ?_ ?_ heap.aligned
  · intro other otherInRange different
    by_cases samePage : dirAddr other = dirAddr size
    · rw [samePage]
      exact words _ (dir_slot_ne different samePage)
    · rw [reservedSame _ (dir_addr_reserved otherInRange) samePage]
  · intro other otherInRange different member inChain
    have once := owners_once heap inRange member.addr
    have := Multiset.count_pos.mpr (layout.mem_other_chains otherInRange different inChain)
    refine outside _ (by omega) fun isDir => ?_
    have := Multiset.count_pos.mpr (dir_addr_reserved inRange)
    rw [← isDir] at this
    omega
  · refine NodeShape.segment_frame ?_ heap.free
    intro member inFree
    have once := owners_once heap inRange member.addr
    have := Multiset.count_pos.mpr (free_block_page heap inFree)
    refine outside _ (by rw [free_shape_addr]; omega) fun isDir => ?_
    have := Multiset.count_pos.mpr (dir_addr_reserved inRange)
    rw [← isDir, free_shape_addr] at this
    omega
  · have whole := layout.owned_with_bucket blocks inRange
    rw [← heap.accounted]
    refine add_right_cancel (b := blockAddrs (layout.bucket size)) ?_
    calc (layout.withBucket size blocks).owned + newExtra + blockAddrs (layout.bucket size)
        = (layout.withBucket size blocks).owned + blockAddrs (layout.bucket size) + newExtra := by abel
      _ = layout.owned + (blockAddrs blocks + newExtra) := by rw [whole]; abel
      _ = layout.owned + extra + blockAddrs (layout.bucket size) := by rw [accounted]; abel

theorem neighbours_apart (heap : Heap page length layout extra) (inRange : size < sizes)
    (bucket : layout.bucket size = front ++ block :: back) :
    ∀ other ∈ front ++ back, other.addr ≠ block.addr := by
  intro other member same
  have nodup := chain_block_addrs_nodup heap inRange
  rw [bucket, List.map_append, List.map_cons, List.nodup_middle, List.nodup_cons] at nodup
  refine nodup.1 ?_
  rw [← List.map_append]
  exact List.mem_map.mpr ⟨other, member, same⟩

/-- One block is rewritten in place. -/
theorem heap_replace_block (heap : Heap page length layout extra) (inRange : size < sizes)
    (bucket : layout.bucket size = front ++ block :: back) {fresh : ChainBlock}
    (sameAddr : fresh.addr = block.addr)
    (same : ∀ addr, addr ≠ block.addr → changed addr = page addr)
    (holds : HoldsChainBlock (changed block.addr) fresh)
    (link : next (changed block.addr) = next (page block.addr)) :
    Heap changed length (layout.withBucket size (front ++ fresh :: back)) extra := by
  have apart := neighbours_apart heap inRange bucket
  have segment := heap.directory size inRange
  have inBucket : block.addr ∈ blockAddrs (layout.bucket size) := mem_block_addrs (by simp [bucket])
  have dirSame : changed (dirAddr size) = page (dirAddr size) :=
    same _ (dir_apart heap inRange (Multiset.mem_add.mpr (.inl inBucket))).symm
  refine heap_change_bucket heap inRange ?_ ?_ ?_ ?_
  · intro addr outside _
    exact same addr fun isBlock => outside (by simp [isBlock, inBucket])
  · intro index _
    rw [dirSame]
  · rw [bucket] at segment
    rw [dirSame]
    exact NodeShape.segment_replace segment sameAddr (fun other member => same _ (apart other member)) holds link
  · simp [blockAddrs, bucket, sameAddr]

theorem heap_unlink_first (heap : Heap page length layout extra) (inRange : size < sizes)
    (bucket : layout.bucket size = block :: back)
    (same : ∀ addr, addr ≠ dirAddr size → addr ≠ block.addr → changed addr = page addr)
    (relinked : changed (dirAddr size) =
      setDirectory (dirSlot size) (next (page block.addr)) (page (dirAddr size))) :
    Heap changed length (layout.withBucket size back) (block.addr ::ₘ extra) := by
  have apart := neighbours_apart heap inRange (show layout.bucket size = [] ++ block :: back from bucket)
  have segment := heap.directory size inRange
  refine heap_change_bucket heap inRange ?_ ?_ ?_ ?_
  · intro addr outside notDir
    exact same addr notDir fun isBlock => outside (by simp [isBlock, blockAddrs, bucket])
  · intro index different
    simp [relinked, different]
  · rw [bucket] at segment
    obtain ⟨_, _, behind⟩ := segment
    simp only [relinked, directory_set_directory, if_true]
    refine NodeShape.segment_frame (fun other member => same _ ?_ ?_) behind
    · exact dir_apart heap inRange (Multiset.mem_add.mpr (.inl (mem_block_addrs (by simp [bucket, member]))))
    · exact apart other (by simp [member])
  · rw [bucket]
    simp [blockAddrs, ← Multiset.cons_coe]

theorem chain_block_relinked {old : HashPage} {link : Int} (holds : HoldsChainBlock old block) :
    HoldsChainBlock (setNext link old) block :=
  ⟨⟨by simpa using holds.count, holds.bounded, by simpa using holds.entries⟩, by simpa using holds.previous,
    holds.nonempty, holds.nonneg, by simpa using holds.cleared⟩

theorem heap_unlink_behind (heap : Heap page length layout extra) (inRange : size < sizes)
    {before : ChainBlock} (bucket : layout.bucket size = front ++ before :: block :: back)
    (same : ∀ addr, addr ≠ before.addr → addr ≠ block.addr → changed addr = page addr)
    (relinked : changed before.addr = setNext (next (page block.addr)) (page before.addr)) :
    Heap changed length (layout.withBucket size (front ++ before :: back)) (block.addr ::ₘ extra) := by
  have bucketBehind : layout.bucket size = (front ++ [before]) ++ block :: back := by
    simpa using bucket
  have apart := neighbours_apart heap inRange bucketBehind
  have apartBefore := neighbours_apart heap inRange bucket
  have segment := heap.directory size inRange
  have member : ∀ other ∈ front ++ before :: block :: back,
      other.addr ∈ blockAddrs (layout.bucket size) + extra := fun other inList =>
    Multiset.mem_add.mpr (.inl (mem_block_addrs (by rw [bucket]; exact inList)))
  have dirSame : changed (dirAddr size) = page (dirAddr size) :=
    same _ (dir_apart heap inRange (member before (by simp))).symm
      (dir_apart heap inRange (member block (by simp))).symm
  refine heap_change_bucket heap inRange ?_ ?_ ?_ ?_
  · intro addr outside _
    refine same addr (fun isBefore => outside ?_) (fun isBlock => outside ?_)
    · rw [isBefore]; exact member before (by simp)
    · rw [isBlock]; exact member block (by simp)
  · intro index _
    rw [dirSame]
  · rw [bucket] at segment
    have holds := (NodeShape.segment_focus segment).2.1
    rw [dirSame]
    refine NodeShape.segment_unlink segment ?_ ?_ ?_
    · intro other member
      have inEither := List.mem_append.mp member
      exact same _ (apartBefore other (by simp; tauto)) (apart other (by simp; tauto))
    · simp only [chain_shape_addr, relinked] at holds ⊢
      exact chain_block_relinked holds
    · simp [relinked]
  · rw [bucket]
    simp only [blockAddrs, List.map_append, List.map_cons, ← Multiset.coe_add, ← Multiset.cons_coe]
    simp only [Multiset.add_cons, Multiset.cons_add]
    rw [Multiset.cons_swap]

theorem start_block_holds {previous addr now : Int} {old : HashPage} (nonneg : 0 ≤ addr) :
    HoldsChainBlock (startBlock previous addr old) ⟨now, previous, [addr]⟩ := by
  refine ⟨⟨by simp [startBlock], by simp, ?_⟩, by simp [startBlock], by simp, by simpa using nonneg, ?_⟩
  · intro index inside
    have first : index = 0 := by simpa using inside
    simp [startBlock, first]
  · intro index lower upper
    simp only [List.length_singleton] at lower
    simp only [startBlock, table_clear]
    rw [if_pos ⟨lower, upper⟩]

@[simp] theorem next_start_block {previous addr : Int} {old : HashPage} :
    next (startBlock previous addr old) = -1 := by
  simp [startBlock]

theorem heap_link_first {store : Int} {addr : Int} (old : HashPage)
    (heap : Heap page length layout (store ::ₘ extra))
    (inRange : size < sizes) (bucket : layout.bucket size = []) (nonneg : 0 ≤ addr)
    (same : ∀ other, other ≠ dirAddr size → other ≠ store → changed other = page other)
    (relinked : changed (dirAddr size) = setDirectory (dirSlot size) store (page (dirAddr size)))
    (started : changed store = startBlock (dirAddr size) addr old) :
    Heap changed length (layout.withBucket size [⟨store, dirAddr size, [addr]⟩]) extra := by
  refine heap_change_bucket heap inRange ?_ ?_ ?_ ?_
  · intro other outside notDir
    exact same other notDir fun isStore => outside (by simp [isStore])
  · intro index different
    simp [relinked, different]
  · refine ⟨?_, ?_, ?_⟩
    · simp [relinked]
    · simp only [chain_shape_addr, started]
      exact start_block_holds nonneg
    · simp [started, NodeShape.Segment]
  · simp [blockAddrs, bucket]

theorem heap_link_behind {store : Int} {addr : Int} (old : HashPage)
    (heap : Heap page length layout (store ::ₘ extra))
    (inRange : size < sizes) (bucket : layout.bucket size = front ++ [block]) (nonneg : 0 ≤ addr)
    (same : ∀ other, other ≠ block.addr → other ≠ store → changed other = page other)
    (relinked : changed block.addr = setNext store (page block.addr))
    (started : changed store = startBlock block.addr addr old) :
    Heap changed length (layout.withBucket size (front ++ [block, ⟨store, block.addr, [addr]⟩])) extra := by
  have segment := heap.directory size inRange
  have apart := neighbours_apart heap inRange bucket
  have member : ∀ other ∈ front ++ [block],
      other.addr ∈ blockAddrs (layout.bucket size) + store ::ₘ extra := fun other inList =>
    Multiset.mem_add.mpr (.inl (mem_block_addrs (by rw [bucket]; exact inList)))
  have notStore : ∀ other ∈ front ++ [block], other.addr ≠ store := by
    intro other inList isStore
    have once := owners_once heap inRange other.addr
    have := Multiset.count_pos.mpr (mem_block_addrs (show other ∈ layout.bucket size by
      rw [bucket]; exact inList))
    have := Multiset.count_pos.mpr (show other.addr ∈ store ::ₘ extra by simp [isStore])
    omega
  have dirSame : changed (dirAddr size) = page (dirAddr size) :=
    same _ (dir_apart heap inRange (member block (by simp))).symm
      (dir_apart heap inRange (Multiset.mem_add.mpr (.inr (Multiset.mem_cons_self _ _)))).symm
  refine heap_change_bucket heap inRange ?_ ?_ ?_ ?_
  · intro other outside _
    refine same other (fun isBlock => outside ?_) (fun isStore => outside (by simp [isStore]))
    rw [isBlock]; exact member block (by simp)
  · intro index _
    rw [dirSame]
  · rw [bucket] at segment
    have holds := (NodeShape.segment_focus segment).2.1
    rw [dirSame]
    refine NodeShape.segment_extend segment ?_ ?_ ?_ ?_ ?_
    · intro other inFront
      exact same _ (apart other (by simp [inFront])) (notStore other (by simp [inFront]))
    · simp only [chain_shape_addr, relinked] at holds ⊢
      exact chain_block_relinked holds
    · simp [relinked]
    · simp only [chain_shape_addr, started]
      exact start_block_holds nonneg
    · simp [started]
  · rw [bucket]
    simp only [blockAddrs, List.map_append, List.map_cons, List.map_nil, ← Multiset.coe_add,
      ← Multiset.cons_coe, Multiset.coe_nil, ← Multiset.singleton_add]
    abel

end Heap

end MyJQL.HashMapChains
