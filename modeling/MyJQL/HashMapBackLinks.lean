import MyJQL.HashMapAccounting

/-!
# Back links of the chains

An inserted block names the page before it. No removal gives the block behind an emptied one a new
predecessor, so a chain links back as long as only last blocks are emptied.
-/

namespace MyJQL.HashMapBackLinks

open MyJQL.FileIo
open MyJQL.BufferPoolModel
open MyJQL.StateProgram
open MyJQL.PageStoreLogic
open MyJQL.HashMapModel
open MyJQL.HashMapLayout
open MyJQL.HashMapFreeList
open MyJQL.HashMapChains
open MyJQL.HashMapInsertion
open MyJQL.HashMapRemoval
open MyJQL.HashMapOperations
open MyJQL.HashMapRefinement
open MyJQL.HashMapAccounting
open MyJQL.LinkedPages

set_option autoImplicit false

/-- Each block names the one before it, and the first block names `head`. -/
def LinkedBack (head : Int) : List ChainBlock → Prop
  | [] => True
  | block :: rest => block.previous = head ∧ LinkedBack block.addr rest

/-- The page that a block behind `front` has to name. -/
def lastAddr (head : Int) : List ChainBlock → Int
  | [] => head
  | block :: rest => lastAddr block.addr rest

section Blocks

variable {head addr : Int} {front back blocks before : List ChainBlock} {block : ChainBlock}

theorem linked_back_append : LinkedBack head (front ++ back) ↔
    LinkedBack head front ∧ LinkedBack (lastAddr head front) back := by
  induction front generalizing head with
  | nil => simp [LinkedBack, lastAddr]
  | cons block front ih => rw [List.cons_append, LinkedBack, LinkedBack, lastAddr, ih, and_assoc]

theorem last_addr_cases (head : Int) (front : List ChainBlock) :
    lastAddr head front = head ∨ ∃ other ∈ front, lastAddr head front = other.addr := by
  induction front generalizing head with
  | nil => exact .inl rfl
  | cons block front ih =>
      rcases ih block.addr with own | ⟨other, member, same⟩
      · exact .inr ⟨block, List.mem_cons_self, own⟩
      · exact .inr ⟨other, List.mem_cons_of_mem _ member, same⟩

theorem put_in_linked (put : PutIn head addr before blocks) (linked : LinkedBack head before) :
    LinkedBack head blocks := by
  cases put with
  | pushed front back block =>
      rw [linked_back_append] at linked ⊢
      exact linked
  | first store => exact ⟨rfl, trivial⟩
  | behind front last store =>
      rw [linked_back_append] at linked ⊢
      exact ⟨linked.1, linked.2.1, rfl, trivial⟩

/-- A block that leaves a chain breaks the back link of the block behind it, if there is one. -/
theorem taken_linked (taken : Taken front block back addr blocks) (linked : LinkedBack head (front ++ block :: back))
    (apartHead : block.addr ≠ head) (apart : ∀ other ∈ front, other.addr ≠ block.addr) :
    LinkedBack head blocks ↔ ¬(block.items = [addr] ∧ back ≠ []) := by
  have parts := linked_back_append.mp linked
  cases taken with
  | kept index inside item several =>
      refine iff_of_true (linked_back_append.mpr parts) fun emptied => several ?_
      rw [emptied.1, List.length_singleton]
  | emptied items =>
      rw [linked_back_append, and_iff_right parts.1, not_and_not_right, imp_iff_right items]
      cases back with
      | nil => exact iff_of_true trivial rfl
      | cons second rest =>
          refine iff_of_false (fun still => ?_) (List.cons_ne_nil _ _)
          have stale : lastAddr head front = block.addr := still.1.symm.trans parts.2.2.1
          rcases last_addr_cases head front with own | ⟨other, member, same⟩
          · exact apartHead (stale.symm.trans own)
          · exact apart other member (same.symm.trans stale)

theorem one_block_stores {other : ChainBlock} {front' behind : List ChainBlock}
    (nodup : ((front ++ block :: back).flatMap ChainBlock.items).Nodup)
    (same : front ++ block :: back = front' ++ other :: behind) (stored : addr ∈ block.items)
    (again : addr ∈ other.items) : block = other ∧ back = behind := by
  induction front generalizing front' with
  | nil =>
      cases front' with
      | nil =>
          rw [List.nil_append, List.nil_append, List.cons.injEq] at same
          exact same
      | cons first front' =>
          rw [List.nil_append, List.cons_append, List.cons.injEq] at same
          rw [List.nil_append, List.flatMap_cons, same.2] at nodup
          exact absurd (List.mem_flatMap.mpr ⟨other, by simp, again⟩) (List.disjoint_of_nodup_append nodup stored)
  | cons first front ih =>
      cases front' with
      | nil =>
          rw [List.nil_append, List.cons_append, List.cons.injEq] at same
          rw [List.cons_append, List.flatMap_cons, same.1] at nodup
          exact absurd (List.mem_flatMap.mpr ⟨block, by simp, stored⟩) (List.disjoint_of_nodup_append nodup again)
      | cons first' front' =>
          rw [List.cons_append, List.cons_append, List.cons.injEq] at same
          rw [List.cons_append, List.flatMap_cons] at nodup
          exact ih nodup.of_append_right same.2

end Blocks

/-- The blocks of a walk name the page before them, the first one `head`. -/
def NamesBack (page : Int → HashPage) : Int → List Int → Prop
  | _, [] => True
  | head, block :: rest => prv (page block) = head ∧ NamesBack page block rest

/-- In every chain the first block names the directory page of its size and every later block the block
before it. -/
def BackLinks (pool : HashPool) : Prop :=
  ∀ size, size < 128 → ∀ blocks, Walk (view pool) (chainHead (view pool) size) blocks →
    NamesBack (view pool) (dirAddr size) blocks

/-- The call takes the only address of a block that another block follows. -/
def CutsChain (page : Int → HashPage) : HashCall → Prop
  | .insert _ _ => False
  | .pop size addr => ∃ blocks block, Walk page (chainHead page size) blocks ∧ block ∈ blocks ∧
      addr ∈ liveEntries page block ∧ nItems (page block) = 1 ∧ next (page block) ≠ -1
  | .popLowerBound size => ∃ least : Nat, size ≤ least ∧ least < 128 ∧
      (∀ smaller : Nat, size ≤ smaller → smaller < least → chainHead page smaller = -1) ∧
      chainHead page least ≠ -1 ∧ nItems (page (chainHead page least)) = 1 ∧
      next (page (chainHead page least)) ≠ -1

section Reading

variable {pool : HashPool} {store : HashStore} {layout : HashLayout} {size : Nat} {addr : Int}
  {front back : List ChainBlock} {block : ChainBlock}

theorem names_back_iff (stores : StoresPool store pool) (heap : Heap store.page store.length layout 0)
    (inRange : size < sizes) {head : Int} {blocks : List ChainBlock}
    (inBucket : ∀ block ∈ blocks, block ∈ layout.bucket size) :
    NamesBack (view pool) head (blocks.map ChainBlock.addr) ↔ LinkedBack head blocks := by
  induction blocks generalizing head with
  | nil => exact Iff.rfl
  | cons block rest ih =>
      have member := inBucket block List.mem_cons_self
      have inRest : ∀ other ∈ rest, other ∈ layout.bucket size :=
        fun other behind => inBucket other (List.mem_cons_of_mem _ behind)
      have previous := (chain_block_holds heap inRange member).previous
      rw [List.map_cons, NamesBack, LinkedBack, ih inRest, view_in_file stores (chain_in_file heap inRange member),
        previous]

theorem back_links_iff (stores : StoresPool store pool) (heap : Heap store.page store.length layout 0) :
    BackLinks pool ↔ ∀ size, size < sizes → LinkedBack (dirAddr size) (layout.bucket size) := by
  constructor
  · intro links size inSizes
    have inRange : size < 128 := by simpa only [sizes] using inSizes
    exact (names_back_iff stores heap inSizes fun _ member => member).mp
      (links size inRange _ (chain_walk stores heap inSizes))
  · intro linked size inRange blocks walk
    have inSizes : size < sizes := by simpa only [sizes] using inRange
    rw [walk_unique walk (chain_walk stores heap inSizes)]
    exact (names_back_iff stores heap inSizes fun _ member => member).mpr (linked size inSizes)

theorem chain_head_empty (stores : StoresPool store pool) (heap : Heap store.page store.length layout 0)
    (inRange : size < sizes) : chainHead (view pool) size = -1 ↔ layout.bucket size = [] := by
  have walk := chain_walk stores heap inRange
  cases bucket : layout.bucket size with
  | nil =>
      rw [bucket] at walk
      exact iff_of_true walk rfl
  | cons block back =>
      rw [bucket] at walk
      exact iff_of_false walk.1 (List.cons_ne_nil _ _)

theorem chain_head_cons (stores : StoresPool store pool) (heap : Heap store.page store.length layout 0)
    (inRange : size < sizes) (bucket : layout.bucket size = block :: back) :
    chainHead (view pool) size = block.addr := by
  have walk := chain_walk stores heap inRange
  rw [bucket] at walk
  exact walk.2.1

theorem block_seen (stores : StoresPool store pool) (heap : Heap store.page store.length layout 0)
    (inRange : size < sizes) (bucket : layout.bucket size = front ++ block :: back) :
    (nItems (view pool block.addr) = 1 ↔ block.items.length = 1) ∧
      (next (view pool block.addr) ≠ -1 ↔ back ≠ []) ∧ liveEntries (view pool) block.addr = block.items := by
  have member : block ∈ layout.bucket size := by simp [bucket]
  have inFile := chain_in_file heap inRange member
  obtain ⟨holds, behind⟩ := chain_focus heap inRange bucket
  have count := holds.count
  refine ⟨?_, not_congr ?_, live_entries_eq stores inFile holds.toHoldsItems⟩
  · rw [view_in_file stores inFile]
    omega
  · rw [view_in_file stores inFile]
    cases back with
    | nil => exact iff_of_true behind rfl
    | cons second rest =>
        have nonneg := (chain_in_file heap inRange (show second ∈ layout.bucket size by simp [bucket])).1
        have following : next (store.page block.addr) = second.addr := behind.1
        exact iff_of_false (by omega) (List.cons_ne_nil _ _)

end Reading

def CutsLayout (layout : HashLayout) : HashCall → Prop
  | .insert _ _ => False
  | .pop size addr => ∃ front block back, layout.bucket size = front ++ block :: back ∧ block.items = [addr] ∧ back ≠ []
  | .popLowerBound size => ∃ least block back, size ≤ least ∧ least < sizes ∧
      (∀ smaller, size ≤ smaller → smaller < least → layout.bucket smaller = []) ∧
      layout.bucket least = block :: back ∧ block.items.length = 1 ∧ back ≠ []

section Cuts

variable {pool : HashPool} {store : HashStore} {layout : HashLayout}

theorem search_cuts_iff (stores : StoresPool store pool) (heap : Heap store.page store.length layout 0) (size : Nat) :
    CutsChain (view pool) (.popLowerBound size) ↔ CutsLayout layout (.popLowerBound size) := by
  constructor
  · rintro ⟨least, lower, inRange, smaller, nonempty, single, followed⟩
    have inSizes : least < sizes := by simpa only [sizes] using inRange
    cases bucket : layout.bucket least with
    | nil => exact absurd ((chain_head_empty stores heap inSizes).mpr bucket) nonempty
    | cons block back =>
        rw [chain_head_cons stores heap inSizes bucket] at single followed
        obtain ⟨count, behind, _⟩ :=
          block_seen stores heap inSizes (show layout.bucket least = [] ++ block :: back from bucket)
        refine ⟨least, block, back, lower, inSizes, ?_, bucket, count.mp single, behind.mp followed⟩
        intro other atLeast below
        exact (chain_head_empty stores heap (by omega)).mp (smaller other atLeast below)
  · rintro ⟨least, block, back, lower, inSizes, smaller, bucket, single, followed⟩
    have head := chain_head_cons stores heap inSizes bucket
    obtain ⟨count, behind, _⟩ :=
      block_seen stores heap inSizes (show layout.bucket least = [] ++ block :: back from bucket)
    refine ⟨least, lower, by simpa only [sizes] using inSizes, ?_, ?_, ?_, ?_⟩
    · intro other atLeast below
      exact (chain_head_empty stores heap (by omega)).mpr (smaller other atLeast below)
    · rw [ne_eq, chain_head_empty stores heap inSizes, bucket]
      exact List.cons_ne_nil _ _
    · rw [head]
      exact count.mpr single
    · rw [head]
      exact behind.mpr followed

theorem cuts_iff {map : SizeMap} {call : HashCall} (stores : StoresPool store pool)
    (heap : Heap store.page store.length layout 0) (graph : IsGraph layout.entries map) (allowed : call.Allowed map) :
    CutsChain (view pool) call ↔ CutsLayout layout call := by
  cases call with
  | insert size addr => exact Iff.rfl
  | pop size addr =>
      have inRange := stored_below graph allowed
      constructor
      · rintro ⟨blocks, _, walk, member, stored, single, followed⟩
        rw [walk_unique walk (chain_walk stores heap inRange)] at member
        obtain ⟨block, inBucket, rfl⟩ := List.mem_map.mp member
        obtain ⟨front, back, bucket⟩ := List.append_of_mem inBucket
        obtain ⟨count, behind, live⟩ := block_seen stores heap inRange bucket
        obtain ⟨item, items⟩ := List.length_eq_one_iff.mp (count.mp single)
        rw [live, items, List.mem_singleton] at stored
        exact ⟨front, block, back, bucket, by rw [items, stored], behind.mp followed⟩
      · rintro ⟨front, block, back, bucket, items, followed⟩
        obtain ⟨count, behind, live⟩ := block_seen stores heap inRange bucket
        refine ⟨_, block.addr, chain_walk stores heap inRange, List.mem_map_of_mem (by simp [bucket]), ?_, ?_,
          behind.mpr followed⟩
        · rw [live, items]
          exact List.mem_singleton_self _
        · exact count.mpr (by rw [items, List.length_singleton])
  | popLowerBound size => exact search_cuts_iff stores heap size

end Cuts

section Calls

variable {store : HashStore} {layout left : HashLayout} {others : List Int} {map : SizeMap} {size : Nat} {addr : Int}
  {front back blocks : List ChainBlock} {block : ChainBlock}

def LinkedLayout (layout : HashLayout) : Prop := ∀ size, size < sizes → LinkedBack (dirAddr size) (layout.bucket size)

theorem linked_with_bucket (linked : LinkedLayout layout) (inRange : size < sizes)
    (bucket : left.bucket = (layout.withBucket size blocks).bucket) :
    LinkedLayout left ↔ LinkedBack (dirAddr size) blocks := by
  rw [LinkedLayout, bucket]
  constructor
  · intro all
    have own := all size inRange
    rwa [HashLayout.with_bucket_self] at own
  · intro own other otherInRange
    by_cases same : other = size
    · rw [same, HashLayout.with_bucket_self]
      exact own
    · rw [layout.with_bucket_other blocks same]
      exact linked other otherInRange

theorem bucket_items_nodup (graph : IsGraph layout.entries map) (inRange : size < sizes) :
    ((layout.bucket size).flatMap ChainBlock.items).Nodup := by
  have split := Finset.add_sum_erase _ (fun index => HashLayout.bucketEntries index (layout.bucket index))
    (Finset.mem_range.mpr inRange)
  have nodup := graph.nodup
  rw [HashLayout.entries, ← split, Multiset.map_add, Multiset.nodup_add] at nodup
  have own := nodup.1
  rw [HashLayout.bucketEntries, Multiset.map_coe, List.map_map, Multiset.coe_nodup] at own
  simpa [Function.comp_def] using own

theorem removed_linked (heap : Heap store.page store.length layout 0) (linked : LinkedLayout layout)
    (inRange : size < sizes) (bucket : layout.bucket size = front ++ block :: back)
    (taken : Taken front block back addr blocks) (changed : left.bucket = (layout.withBucket size blocks).bucket) :
    LinkedLayout left ↔ ¬(block.items = [addr] ∧ back ≠ []) := by
  rw [linked_with_bucket linked inRange changed]
  have member : block ∈ layout.bucket size := by simp [bucket]
  apply taken_linked taken (bucket ▸ linked size inRange)
  · exact dir_apart heap inRange (Multiset.mem_add.mpr (.inl (mem_block_addrs member)))
  · intro other inFront
    exact neighbours_apart heap inRange bucket other (List.mem_append_left _ inFront)

theorem taken_stored (taken : Taken front block back addr blocks) : addr ∈ block.items := by
  cases taken with
  | kept index inside item several => exact item ▸ List.getElem_mem inside
  | emptied items => simp [items]

theorem pop_cuts (graph : IsGraph layout.entries map) (inRange : size < sizes)
    (bucket : layout.bucket size = front ++ block :: back) (stored : addr ∈ block.items) :
    CutsLayout layout (.pop size addr) ↔ block.items = [addr] ∧ back ≠ [] := by
  constructor
  · rintro ⟨front', other, behind, split, items, followed⟩
    have nodup := bucket_items_nodup graph inRange
    rw [bucket] at nodup split
    obtain ⟨rfl, rfl⟩ := one_block_stores nodup split stored (by rw [items]; exact List.mem_singleton_self _)
    exact ⟨items, followed⟩
  · rintro ⟨items, followed⟩
    exact ⟨front, block, back, bucket, items, followed⟩

theorem lower_bound_cuts {least : Nat} (lower : size ≤ least) (inRange : least < sizes)
    (smaller : ∀ smaller, size ≤ smaller → smaller < least → layout.bucket smaller = [])
    (bucket : layout.bucket least = block :: back) (stored : addr ∈ block.items) :
    CutsLayout layout (.popLowerBound size) ↔ block.items = [addr] ∧ back ≠ [] := by
  constructor
  · rintro ⟨other, first, behind, otherLower, _, otherSmaller, otherBucket, single, followed⟩
    rcases Nat.lt_trichotomy other least with below | rfl | above
    · rw [smaller other otherLower below] at otherBucket
      cases otherBucket
    · rw [bucket, List.cons.injEq] at otherBucket
      obtain ⟨rfl, rfl⟩ := otherBucket
      obtain ⟨item, items⟩ := List.length_eq_one_iff.mp single
      rw [items, List.mem_singleton] at stored
      exact ⟨by rw [items, stored], followed⟩
    · rw [otherSmaller least lower above] at bucket
      cases bucket
  · rintro ⟨items, followed⟩
    exact ⟨least, block, back, lower, inRange, smaller, bucket, by rw [items, List.length_singleton], followed⟩

theorem call_links {call : HashCall} (heap : Heap store.page store.length layout 0) (within : PinnedWithin store others)
    (room : others.length + 4 < cachePage) (graph : IsGraph layout.entries map) (allowed : call.Allowed map)
    (linked : LinkedLayout layout) :
    Ensures StoresPool store call.run fun _ after => ∃ left, Heap after.page after.length left 0 ∧
      (LinkedLayout left ↔ ¬CutsLayout layout call) := by
  cases call with
  | insert size addr =>
      have inRange : size < sizes := by simpa only [sizes] using allowed.1
      apply ensures_bind
      apply ensures_mono (ensures_insert_chain inRange allowed.2.1 heap within room)
      rintro _ after ⟨blocks, put, left, afterHeap, bucket, _⟩
      refine ensures_pure _ ⟨left, afterHeap, iff_of_true ?_ id⟩
      exact (linked_with_bucket linked inRange bucket).mpr (put_in_linked put (linked size inRange))
  | pop size addr =>
      have present := (graph.mem size addr).mpr allowed
      have inRange := stored_below graph allowed
      apply ensures_bind
      apply ensures_mono (ensures_pop_chain inRange heap present within room)
      rintro _ after ⟨front, block, back, blocks, bucket, taken, left, afterHeap, changed, _⟩
      refine ensures_pure _ ⟨left, afterHeap, ?_⟩
      rw [pop_cuts graph inRange bucket (taken_stored taken)]
      exact removed_linked heap linked inRange bucket taken changed
  | popLowerBound size =>
      by_cases finds : ∃ large stored, (large, stored) ∈ layout.entries ∧ size ≤ large
      · obtain ⟨large, stored, present, enough⟩ := finds
        have inRange : size < sizes := lt_of_le_of_lt enough (layout.mem_entries.mp present).1
        apply ensures_bind
        apply ensures_mono (ensures_pop_lower_bound_chain inRange heap within room present enough)
        rintro ans after ⟨least, block, back, blocks, ⟨lower, leastInRange⟩, smaller, bucket, item, taken, left,
          afterHeap, changed, _⟩
        refine ensures_pure _ ⟨left, afterHeap, ?_⟩
        rw [lower_bound_cuts lower leastInRange smaller bucket item.1]
        exact removed_linked heap linked leastInRange (show layout.bucket least = [] ++ block :: back from bucket) taken
          changed
      · have all : ∀ other item, (other, item) ∈ layout.entries → other < size := by
          intro other item member
          by_contra enough
          exact finds ⟨other, item, member, by omega⟩
        have cutsNone : ¬CutsLayout layout (.popLowerBound size) := by
          rintro ⟨least, block, back, lower, leastInRange, _, bucket, single, _⟩
          obtain ⟨item, items⟩ := List.length_eq_one_iff.mp single
          have := all least item (layout.mem_entries.mpr ⟨leastInRange, block, by simp [bucket], by simp [items]⟩)
          omega
        by_cases inRange : size < sizes
        · apply ensures_bind
          apply ensures_mono (ensures_pop_lower_bound_kept inRange heap within room all)
          rintro ans after ⟨_, _, _, _, afterHeap⟩
          exact ensures_pure _ ⟨_, afterHeap, iff_of_true linked cutsNone⟩
        · rw [search_outside inRange]
          exact ensures_pure _ ⟨layout, heap, iff_of_true linked cutsNone⟩

end Calls

theorem back_links_after_call {pool : HashPool} {map : SizeMap} {call : HashCall} (invariant : HashInvariant pool map)
    (links : BackLinks pool) (allowed : call.Allowed map) :
    ∃ result after, call.run pool = some (result, after) ∧ (BackLinks after ↔ ¬CutsChain (view pool) call) := by
  obtain ⟨store, layout, stores, heap, within, graph⟩ := invariant
  have linked := (back_links_iff stores heap).mp links
  obtain ⟨result, after, final, ran, finalStores, left, afterHeap, leaves⟩ :=
    call_links heap within (by decide) graph allowed linked pool stores
  refine ⟨result, after, ran, ?_⟩
  rw [back_links_iff finalStores afterHeap, cuts_iff stores heap graph allowed]
  exact leaves

theorem fresh_back_links {pool : HashPool} {store : HashStore} (stores : StoresPool store pool)
    (heap : Heap store.page store.length emptyLayout 0) : BackLinks pool :=
  (back_links_iff stores heap).mpr fun _ _ => trivial

/-- The back links after every call from a reachable pool where they hold, and in every run that never
empties a block that another block follows. -/
theorem hash_map_back_links (pool : HashPool) (map : SizeMap) :
    (HashReachable pool map → BackLinks pool → ∀ call : HashCall, call.Allowed map →
      ∃ result after, call.run pool = some (result, after) ∧ (BackLinks after ↔ ¬CutsChain (view pool) call)) ∧
    (RunWhere (fun pool _ call => ¬CutsChain (view pool) call) pool map → BackLinks pool) := by
  refine ⟨?_, ?_⟩
  · intro run links call allowed
    exact back_links_after_call (hash_reachable_invariant run) links allowed
  · intro run
    apply run_where_keeps run
    · intro store pool stores _ heap
      exact fresh_back_links stores heap
    · intro pool map call invariant links allowed cutsNone
      obtain ⟨result, after, ran, leaves⟩ := back_links_after_call invariant links allowed
      exact ⟨result, after, ran, leaves.mpr cutsNone⟩

/-- Fourteen addresses do not fit into one block. -/
theorem two_blocks {store : HashStore} {layout : HashLayout} (heap : Heap store.page store.length layout 0)
    (graph : IsGraph layout.entries (firstAddrs 14)) :
    ∃ block second rest, layout.bucket 5 = block :: second :: rest := by
  have inRange : 5 < sizes := by simp only [sizes]; omega
  have stored : ∀ addr : Int, 0 ≤ addr ∧ addr < 14 → ∃ block ∈ layout.bucket 5, addr ∈ block.items :=
    fun addr bound => (layout.mem_entries.mp ((graph.mem 5 addr).mpr (if_pos bound))).2
  cases bucket : layout.bucket 5 with
  | nil =>
      obtain ⟨_, member, _⟩ := stored 0 (by omega)
      rw [bucket] at member
      cases member
  | cons block rest =>
      cases rest with
      | cons second rest => exact ⟨block, second, rest, rfl⟩
      | nil =>
          have holds := (chain_focus heap inRange (show layout.bucket 5 = [] ++ [block] from bucket)).1
          have bounded := holds.bounded
          have all : (List.range 14).map (fun index : Nat => (index : Int)) ⊆ block.items := by
            intro addr member
            obtain ⟨index, inside, rfl⟩ := List.mem_map.mp member
            have below := List.mem_range.mp inside
            obtain ⟨_, inBucket, inItems⟩ := stored index (by omega)
            rw [bucket, List.mem_singleton] at inBucket
            exact inBucket ▸ inItems
          have nodup : ((List.range 14).map fun index : Nat => (index : Int)).Nodup :=
            List.nodup_range.map fun _ _ same => Int.ofNat_inj.mp same
          have fits := (nodup.subperm all).length_le
          simp only [List.length_map, List.length_range, hashMapBlockSize] at fits bounded
          omega

/-- The blocks of a chain with fourteen addresses name each other. -/
theorem hash_map_back_links_two_blocks : ∃ pool block second rest,
    Walk (view pool) (chainHead (view pool) 5) (block :: second :: rest) ∧ prv (view pool second) = block ∧
      ∃ result after, (HashCall.insert 5 14).run pool = some (result, after) ∧ BackLinks after := by
  obtain ⟨pool, run⟩ :=
    @first_addrs_run (fun pool _ call => ¬CutsChain (view pool) call) (fun _ _ cuts => cuts) 14
  have reachable := run_where_reachable run
  obtain ⟨calls, runs⟩ := hash_map_back_links pool (firstAddrs 14)
  have links := runs run
  obtain ⟨store, layout, stores, heap, _, graph⟩ := hash_reachable_invariant reachable
  obtain ⟨block, second, rest, bucket⟩ := two_blocks heap graph
  have walk := chain_walk stores heap (show 5 < sizes by simp only [sizes]; omega)
  rw [bucket] at walk
  have named := links 5 (by decide) _ walk
  obtain ⟨result, after, ran, leaves⟩ :=
    calls reachable links (.insert 5 14) ⟨by decide, by decide, first_addrs_absent 14⟩
  exact ⟨pool, _, _, _, walk, named.2.1, result, after, ran, leaves.mpr fun cuts => cuts⟩

/-- A search takes an address of the first block, and leaves the block in place if it has another one. -/
theorem search_shortens {store : HashStore} {layout : HashLayout} {block second : ChainBlock} {rest : List ChainBlock}
    (heap : Heap store.page store.length layout 0) (within : PinnedWithin store [behindDirectory])
    (bucket : layout.bucket 5 = block :: second :: rest) (several : 1 < block.items.length) :
    Ensures StoresPool store (HashCall.popLowerBound 5).run fun _ after =>
      ∃ left shorter, Heap after.page after.length left 0 ∧ PinnedWithin after [behindDirectory] ∧
        left.bucket 5 = shorter :: second :: rest ∧ shorter.items.length = block.items.length - 1 := by
  have inRange : 5 < sizes := by simp only [sizes]; omega
  have nonempty : 0 < block.items.length := by omega
  have present : ((5 : Nat), block.items[0]) ∈ layout.entries :=
    layout.mem_entries.mpr ⟨inRange, block, by simp [bucket], List.getElem_mem nonempty⟩
  apply ensures_bind
  apply ensures_mono (ensures_pop_lower_bound_chain inRange heap within (by decide) present le_rfl)
  rintro ans after ⟨least, first, back, blocks, ⟨lower, _⟩, smaller, found, _, taken, left, afterHeap, changed, _,
    afterWithin⟩
  have own : least = 5 := by
    by_contra other
    rw [smaller 5 le_rfl (by omega)] at bucket
    cases bucket
  subst own
  rw [bucket, List.cons.injEq] at found
  obtain ⟨rfl, rfl⟩ := found
  refine ensures_pure _ ?_
  have atFive : left.bucket 5 = blocks := by rw [changed, HashLayout.with_bucket_self]
  cases taken with
  | kept index inside item _ => exact ⟨left, _, afterHeap, afterWithin, atFive, close_gap_length _ _⟩
  | emptied items =>
      rw [items, List.length_singleton] at several
      omega

theorem drained {pool : HashPool} {map : SizeMap} {store : HashStore} {layout : HashLayout} {block second : ChainBlock}
    {rest : List ChainBlock} (count : Nat) (reachable : HashReachable pool map) (stores : StoresPool store pool)
    (heap : Heap store.page store.length layout 0) (within : PinnedWithin store [behindDirectory])
    (bucket : layout.bucket 5 = block :: second :: rest) (items : block.items.length = count + 1) :
    ∃ pool map, HashReachable pool map ∧ ¬BackLinks pool := by
  have allowed : ∀ map, (HashCall.popLowerBound 5).Allowed map := fun _ => trivial
  induction count generalizing pool map store layout block with
  | zero =>
      by_cases links : BackLinks pool
      · obtain ⟨_, after, ran, leaves⟩ :=
          back_links_after_call (hash_reachable_invariant reachable) links (allowed map)
        refine ⟨after, _, .called reachable (allowed map) ran, fun still => leaves.mp still ?_⟩
        rw [search_cuts_iff stores heap]
        have inRange : 5 < sizes := by simp only [sizes]; omega
        exact ⟨5, block, second :: rest, le_rfl, inRange, by omega, bucket, items, List.cons_ne_nil _ _⟩
      · exact ⟨pool, map, reachable, links⟩
  | succ count ih =>
      obtain ⟨_, after, _, ran, afterStores, left, shorter, afterHeap, afterWithin, leftBucket, fewer⟩ :=
        search_shortens heap within bucket (by omega) pool stores
      exact ih (.called reachable (allowed map) ran) afterStores afterHeap afterWithin leftBucket (by omega)

/-- The block behind the emptied one still names it. -/
theorem removal_leaves_stale_link : ¬∀ pool map, HashReachable pool map → BackLinks pool := by
  intro always
  obtain ⟨pool, run⟩ := @first_addrs_run (fun _ _ _ => True) (fun _ _ => trivial) 14
  have reachable := run_where_reachable run
  obtain ⟨store, layout, stores, heap, within, graph⟩ := hash_reachable_invariant reachable
  obtain ⟨block, second, rest, bucket⟩ := two_blocks heap graph
  have inRange : 5 < sizes := by simp only [sizes]; omega
  have holds := (chain_focus heap inRange (show layout.bucket 5 = [] ++ block :: second :: rest from bucket)).1
  have positive := List.length_pos_iff.mpr holds.nonempty
  obtain ⟨after, map, reached, stale⟩ :=
    drained (block.items.length - 1) reachable stores heap within bucket (by omega)
  exact stale (always after map reached)

end MyJQL.HashMapBackLinks
