import MyJQL.BlockOperations
import MyJQL.FreeSpaceMap
import MyJQL.TableModel

/-!
# Tables as heaps of items

From above a table is a partial map from record ids to items. Below it every block holds a stack of
items, and the space map lists every block once, under the size that its contents determine.
-/

namespace MyJQL.TableStore

open MyJQL.FileIo
open MyJQL.BufferPoolModel
open MyJQL.BufferPoolInvariant
open MyJQL.StateProgram
open MyJQL.PageStoreLogic
open MyJQL.HashMapModel
open MyJQL.HashMapLayout
open MyJQL.FreeSpaceMap
open MyJQL.PageAccounting
open MyJQL.Cells
open MyJQL.BlockModel
open MyJQL.BlockInvariant
open MyJQL.BlockOperations
open MyJQL.TableModel

set_option autoImplicit false

section OneBlock

variable {block : Block} {stack : Stack} {slots : Nat}

theorem get_item_holds (holds : HoldsStack block stack slots) {idx : Nat} {item : List Cell}
    (member : (idx, item) ∈ stack) :
    ∃ offset itemId, getItem block idx = some (some offset) ∧ getItemId block idx = some itemId ∧
      InData offset (itemIdSize itemId) ∧ cellsAt block.cell offset (itemIdSize itemId) = item := by
  obtain ⟨front, back, split⟩ := List.append_of_mem member
  obtain ⟨itemId, found, available, offset, size⟩ := used_fields holds split
  have nItems := holds.nItems
  have inside := holds.inSlots _ member
  have fit := slots_fit holds
  have tailPtr := holds.tailPtr
  have content := holds.content
  rw [split] at tailPtr content
  simp only [stack_bytes_append, stack_bytes_cons, List.length_append] at tailPtr
  simp only [stack_bytes_append, stack_bytes_cons] at content
  push_cast at tailPtr
  obtain ⟨_, rest⟩ := cells_at_append.mp content
  obtain ⟨own, _⟩ := cells_at_append.mp rest
  refine ⟨itemIdOffset itemId, itemId, ?_, found, ?_, ?_⟩
  · have isUsed : ¬itemIdAvailability itemId = 1 := by omega
    rw [getItem, if_neg (by omega), found]
    simp only [Option.bind_eq_bind, Option.bind_some, if_neg isUsed]
  · simp only [InData, dataOffset, itemIdBytes, blockSize] at *
    omega
  · rw [offset, size]
    exact own

theorem item_at_holds (holds : HoldsStack block stack slots) {idx : Int} {item : List Cell} :
    itemAt block idx = some item ↔ ∃ slot : Nat, idx = slot ∧ (slot, item) ∈ stack := by
  have reads : ∀ (slot : Nat) (other : List Cell), (slot, other) ∈ stack →
      itemAt block slot = some other := by
    intro slot other member
    obtain ⟨offset, itemId, isItem, found, _, bytes⟩ := get_item_holds holds member
    simp only [itemAt, isItem, found, Option.bind_eq_bind, Option.bind_some, bytes]
  constructor
  · intro read
    have nItems := holds.nItems
    by_cases outside : idx < 0 ∨ idx ≥ block.nItems
    · rw [itemAt, getItem, if_pos outside] at read
      cases read
    · obtain ⟨slot, rfl⟩ : ∃ slot : Nat, idx = slot := ⟨idx.toNat, by omega⟩
      have inSlots : slot < slots := by omega
      by_cases named : slot ∈ stack.map Prod.fst
      · obtain ⟨⟨_, other⟩, member, rfl⟩ := List.mem_map.mp named
        rw [reads _ other member, Option.some.injEq] at read
        exact ⟨_, rfl, read ▸ member⟩
      · obtain ⟨itemId, found, available⟩ := free_fields holds inSlots named
        rw [itemAt, getItem, if_neg outside, found] at read
        simp [available] at read
  · rintro ⟨slot, rfl, member⟩
    exact reads slot item member

theorem recorded_size_holds (holds : HoldsStack block stack slots) :
    ∃ size : Nat, recordedSize block = some (size : Int) ∧ size < sizes ∧
      (size : Int) = max 0 (block.tailPtr - block.headPtr -
        if firstAvailable block = some none then itemIdBytes else 0) := by
  have fit := slots_fit holds
  have headPtr := holds.headPtr
  have fits := holds.fits
  rcases first_available_holds holds with ⟨idx, found, _, _⟩ | ⟨none, _⟩
  · refine ⟨(block.tailPtr - block.headPtr).toNat, ?_, ?_, ?_⟩
    · simp only [recordedSize, found, Option.bind_eq_bind, Option.bind_some, Option.some.injEq]
      omega
    · simp only [sizes, dataOffset, itemIdBytes, blockSize] at *
      omega
    · rw [if_neg (by simp [found])]
      push_cast
      omega
  · refine ⟨(block.tailPtr - block.headPtr - itemIdBytes).toNat, ?_, ?_, ?_⟩
    · simp only [recordedSize, none, Option.bind_eq_bind, Option.bind_some, Option.some.injEq]
      split_ifs <;> omega
    · simp only [sizes, dataOffset, itemIdBytes, blockSize] at *
      omega
    · rw [if_pos none]
      omega

/-- The free space as a size of the space map. -/
def freeSpace (block : Block) : Nat := ((recordedSize block).getD 0).toNat

theorem recorded_size_eq (holds : HoldsStack block stack slots) :
    recordedSize block = some (freeSpace block : Int) ∧ freeSpace block < sizes ∧
      (freeSpace block : Int) = max 0 (block.tailPtr - block.headPtr -
        if firstAvailable block = some none then itemIdBytes else 0) := by
  obtain ⟨size, recorded, inRange, value⟩ := recorded_size_holds holds
  have same : freeSpace block = size := by simp [freeSpace, recorded]
  rw [same]
  exact ⟨recorded, inRange, value⟩

theorem item_at_push (holds : HoldsStack block stack slots) {idx : Nat} {item : List Cell}
    (absent : idx ∉ stack.map Prod.fst) {changed : Block} {newSlots : Nat}
    (pushed : HoldsStack changed ((idx, item) :: stack) newSlots) (place : Int) :
    itemAt changed place = if place = idx then some item else itemAt block place := by
  apply Option.ext
  intro read
  rw [item_at_holds pushed]
  split_ifs with own
  · constructor
    · rintro ⟨slot, isSlot, member⟩
      rcases List.mem_cons.mp member with same | old
      · rw [(Prod.mk.inj same).2]
      · have isIdx : slot = idx := by omega
        exact absurd (List.mem_map_of_mem old) (isIdx ▸ absent)
    · intro same
      cases same
      exact ⟨idx, own, List.mem_cons_self⟩
  · rw [item_at_holds holds]
    constructor
    · rintro ⟨slot, isSlot, member⟩
      rcases List.mem_cons.mp member with same | old
      · exact absurd (isSlot.trans (congrArg _ (Prod.mk.inj same).1)) own
      · exact ⟨slot, isSlot, old⟩
    · rintro ⟨slot, isSlot, member⟩
      exact ⟨slot, isSlot, List.mem_cons_of_mem _ member⟩

theorem item_at_remove {front back : Stack} {idx : Nat} {item : List Cell}
    (holds : HoldsStack block (front ++ (idx, item) :: back) slots) {changed : Block} {newSlots : Nat}
    (removed : HoldsStack changed (front ++ back) newSlots) (place : Int) :
    itemAt changed place = if place = idx then none else itemAt block place := by
  have nodup := holds.nodup
  rw [List.map_append, List.map_cons, List.nodup_middle, List.nodup_cons, ← List.map_append] at nodup
  apply Option.ext
  intro read
  rw [item_at_holds removed]
  split_ifs with own
  · constructor
    · rintro ⟨slot, isSlot, member⟩
      have isIdx : slot = idx := by omega
      exact absurd (List.mem_map_of_mem member) (isIdx ▸ nodup.1)
    · intro impossible
      cases impossible
  · rw [item_at_holds holds]
    constructor
    · rintro ⟨slot, isSlot, member⟩
      refine ⟨slot, isSlot, ?_⟩
      rcases List.mem_append.mp member with first | last
      · simp [first]
      · simp [last]
    · rintro ⟨slot, isSlot, member⟩
      refine ⟨slot, isSlot, ?_⟩
      simp only [List.mem_append, List.mem_cons, Prod.mk.injEq] at member ⊢
      rcases member with first | ⟨same, _⟩ | last
      · exact .inl first
      · exact absurd (isSlot.trans (congrArg _ same)) own
      · exact .inr last

end OneBlock

abbrev Heap := RID → Option (List Cell)

/-- The data pool and the pairs of the space map. -/
abbrev TableState := PageStore Block × Multiset (Nat × Int)

structure HoldsHeap (heap : Heap) (state : TableState) : Prop where
  nonneg : 0 ≤ state.1.length
  aligned : state.1.length % pageSize = 0
  size : state.1.size = state.1.length
  blocks : ∀ addr ∈ pagesBelow state.1.length, ∃ stack slots, HoldsStack (state.1.page addr) stack slots
  entries : state.2 = (pagesBelow state.1.length).map fun addr => (freeSpace (state.1.page addr), addr)
  live : ∀ rid, heap rid = if rid.blockAddr ∈ pagesBelow state.1.length then
    itemAt (state.1.page rid.blockAddr) rid.idx else none

/-- Between two operations no block is pinned. -/
def TableHolds (heap : Heap) (table : Table) : Prop :=
  ∃ state, (HoldsHeap heap state ∧ PinnedWithin state.1 []) ∧ Both StoresPool FsmHolds state table

section AllBlocks

variable {heap : Heap} {store : PageStore Block} {entries : Multiset (Nat × Int)} {addr : Int}

theorem entries_change (nodup : (pagesBelow store.length).Nodup) (inFile : addr ∈ pagesBelow store.length)
    {changed : Int → Block} (same : ∀ other, other ≠ addr → changed other = store.page other) :
    (pagesBelow store.length).map (fun other => (freeSpace (changed other), other)) =
      (freeSpace (changed addr), addr) ::ₘ ((pagesBelow store.length).map fun other =>
        (freeSpace (store.page other), other)).erase (freeSpace (store.page addr), addr) := by
  obtain ⟨rest, split⟩ := Multiset.exists_cons_of_mem inFile
  rw [split] at nodup ⊢
  rw [Multiset.map_cons, Multiset.map_cons, Multiset.erase_cons_head]
  congr 1
  apply Multiset.map_congr rfl
  intro other member
  rw [same other fun isAddr => (Multiset.nodup_cons.mp nodup).1 (isAddr ▸ member)]

theorem heap_change_block (holds : HoldsHeap heap (store, entries))
    (inFile : addr ∈ pagesBelow store.length) {idx : Int} {value : Option (List Cell)}
    {changed : PageStore Block} (same : ∀ other, other ≠ addr → changed.page other = store.page other)
    (length : changed.length = store.length) (size : changed.size = store.size)
    (block : ∃ stack slots, HoldsStack (changed.page addr) stack slots)
    (items : ∀ place, itemAt (changed.page addr) place =
      if place = idx then value else itemAt (store.page addr) place) :
    HoldsHeap (Function.update heap ⟨addr, idx⟩ value) (changed,
      (freeSpace (changed.page addr), addr) ::ₘ entries.erase (freeSpace (store.page addr), addr)) := by
  refine ⟨by rw [length]; exact holds.nonneg, by rw [length]; exact holds.aligned,
    by rw [length, size]; exact holds.size, ?_, ?_, ?_⟩
  · intro other member
    rw [length] at member
    by_cases own : other = addr
    · rw [own]
      exact block
    · rw [same other own]
      exact holds.blocks other member
  · have old := holds.entries
    simp only at old ⊢
    rw [length, entries_change (pages_below_nodup _) inFile same, old]
  · intro rid
    have old := holds.live rid
    simp only [length] at old ⊢
    rw [Function.update_apply, old]
    by_cases target : rid = ⟨addr, idx⟩
    · rw [if_pos target, target, if_pos inFile, items, if_pos rfl]
    · rw [if_neg target]
      by_cases own : rid.blockAddr = addr
      · have otherSlot : rid.idx ≠ idx := fun isSlot => target (by rw [← own, ← isSlot])
        rw [own, items, if_neg otherSlot]
      · rw [same _ own]

theorem heap_append_block (holds : HoldsHeap heap (store, entries)) {page : Block}
    {changed : PageStore Block}
    (same : ∀ other, other ≠ store.length → changed.page other = store.page other)
    (fresh : changed.page store.length = initBlock page)
    (length : changed.length = store.length + pageSize)
    (size : changed.size = max store.size (store.length + pageSize)) :
    HoldsHeap heap (changed, (freeSpace (initBlock page), store.length) ::ₘ entries) := by
  have aligned : store.length % pageSize = 0 := holds.aligned
  have nonneg : 0 ≤ store.length := holds.nonneg
  have sameSize : store.size = store.length := holds.size
  have grown := pages_below_grow store.length nonneg aligned
  have empty := init_block_holds page
  have last : store.length ∉ pagesBelow store.length := fun member => by
    have := ((mem_pages_below aligned).mp member).2.2
    omega
  refine ⟨?_, ?_, ?_, ?_, ?_, ?_⟩
  · simp only [length, pageSize]
    omega
  · simp only [length, pageSize] at *
    omega
  · simp only [length, size, sameSize, pageSize]
    omega
  · simp only [length, grown]
    intro addr member
    rcases Multiset.mem_cons.mp member with rfl | old
    · exact ⟨[], 0, by rw [fresh]; exact empty⟩
    · rw [same addr fun isLast => last (isLast ▸ old)]
      exact holds.blocks addr old
  · have old := holds.entries
    simp only at old ⊢
    rw [length, grown, Multiset.map_cons, fresh, old]
    congr 1
    apply Multiset.map_congr rfl
    intro addr member
    rw [same addr fun isLast => last (isLast ▸ member)]
  · intro rid
    rw [holds.live rid]
    simp only [length, grown, Multiset.mem_cons]
    by_cases own : rid.blockAddr = store.length
    · rw [if_neg (own ▸ last), if_pos (.inl own), own, fresh]
      symm
      apply Option.eq_none_iff_forall_ne_some.mpr
      intro item read
      obtain ⟨_, _, impossible⟩ := (item_at_holds empty).mp read
      cases impossible
    · simp only [own, false_or, same _ own]

/-- A block has no more slots than before, or all of them are in use. -/
def Reslotted (before after : PageStore Block) : Prop :=
  ∀ addr ∈ pagesBelow after.length, ∃ (stack : Stack) (slots : Nat), HoldsStack (after.page addr) stack slots ∧
    (slots = stack.length ∨ addr ∈ pagesBelow before.length ∧ (slots : Int) ≤ (before.page addr).nItems)

theorem reslotted_block (holds : HoldsHeap heap (store, entries)) (inFile : addr ∈ pagesBelow store.length)
    {changed : PageStore Block} (same : ∀ other, other ≠ addr → changed.page other = store.page other)
    (length : changed.length = store.length) {stack : Stack} {slots : Nat}
    (block : HoldsStack (changed.page addr) stack slots)
    (few : slots = stack.length ∨ (slots : Int) ≤ (store.page addr).nItems) : Reslotted store changed := by
  intro other member
  rw [length] at member
  by_cases own : other = addr
  · subst own
    exact ⟨stack, slots, block, few.imp_right fun fewer => ⟨inFile, fewer⟩⟩
  · obtain ⟨old, oldSlots, oldBlock⟩ := holds.blocks other member
    refine ⟨old, oldSlots, ?_, .inr ⟨member, oldBlock.nItems.ge⟩⟩
    rw [same other own]
    exact oldBlock

/-- A new block has no slots before its first item. -/
theorem reslotted_behind {middle after : PageStore Block} (reslotted : Reslotted middle after)
    (same : ∀ addr ∈ pagesBelow store.length, middle.page addr = store.page addr)
    (fresh : ∀ addr ∈ pagesBelow middle.length, addr ∉ pagesBelow store.length → (middle.page addr).nItems = 0) :
    Reslotted store after := by
  intro addr member
  obtain ⟨stack, slots, block, full | ⟨inMiddle, fewer⟩⟩ := reslotted addr member
  · exact ⟨stack, slots, block, .inl full⟩
  · by_cases inFile : addr ∈ pagesBelow store.length
    · rw [same addr inFile] at fewer
      exact ⟨stack, slots, block, .inr ⟨inFile, fewer⟩⟩
    · rw [fresh addr inMiddle inFile] at fewer
      obtain rfl : slots = 0 := by omega
      refine ⟨stack, 0, block, .inl ?_⟩
      cases stack with
      | nil => rfl
      | cons entry _ => exact absurd (block.inSlots entry List.mem_cons_self) (Nat.not_lt_zero _)

end AllBlocks

section Operations

variable {Value : Type} {heap : Heap} {store : PageStore Block} {entries : Multiset (Nat × Int)}

theorem ensures_data {program : Program (BufferPool Block) Value} {post : Value → TableState → Prop}
    (holds : Ensures StoresPool store program fun value after => post value (after, entries)) :
    Ensures (Both StoresPool FsmHolds) (store, entries) (onData program) post := ensures_first holds

theorem ensures_fsm {program : Program HashPool Value} {post : Value → TableState → Prop}
    (holds : Ensures FsmHolds entries program fun value after => post value (store, after)) :
    Ensures (Both StoresPool FsmHolds) (store, entries) (onFsm program) post := ensures_second holds

theorem live_block (holds : HoldsHeap heap (store, entries)) {rid : RID} {item : List Cell}
    (live : heap rid = some item) :
    rid.blockAddr ∈ pagesBelow store.length ∧ ∃ (stack : Stack) (slots slot : Nat), rid.idx = slot ∧
      HoldsStack (store.page rid.blockAddr) stack slots ∧ (slot, item) ∈ stack := by
  have read := holds.live rid
  rw [live] at read
  split_ifs at read with inFile
  obtain ⟨stack, slots, block⟩ := holds.blocks _ inFile
  obtain ⟨slot, isSlot, member⟩ := (item_at_holds block).mp read.symm
  exact ⟨inFile, stack, slots, slot, isSlot, block, member⟩

theorem in_file_bounds (holds : HoldsHeap heap (store, entries)) {addr : Int}
    (inFile : addr ∈ pagesBelow store.length) :
    0 ≤ addr ∧ addr % pageSize = 0 ∧ addr < store.length :=
  (mem_pages_below holds.aligned).mp inFile

theorem ensures_read_kept {rid : RID} {item : List Cell} {post : List Cell → TableState → Prop}
    (holds : HoldsHeap heap (store, entries)) (within : PinnedWithin store []) (live : heap rid = some item)
    (continues : ∀ after, after.1.page = store.page → after.1.length = store.length → HoldsHeap heap after →
      PinnedWithin after.1 [] → post item after) :
    Ensures (Both StoresPool FsmHolds) (store, entries) (tableRead rid) post := by
  obtain ⟨inFile, stack, slots, slot, isSlot, block, member⟩ := live_block holds live
  obtain ⟨nonneg, aligned, inside⟩ := in_file_bounds holds inFile
  obtain ⟨offset, itemId, isItem, found, inData, bytes⟩ := get_item_holds block member
  rw [tableRead, isSlot]
  refine ensures_bind (ensures_data (ensures_fetch nonneg aligned inside within (by decide) ?_))
  intro frame _
  refine ensures_bind (ensures_data (ensures_load (by simp) ?_))
  refine ensures_bind (ensures_of_option isItem ?_)
  refine ensures_bind (ensures_of_option found ?_)
  refine ensures_bind (ensures_of_option rfl ?_)
  refine ensures_bind (ensures_check inData ?_)
  refine ensures_bind (ensures_data (ensures_unpin frame (by simp) ?_))
  rw [show (store.pinned rid.blockAddr frame).page = store.page from rfl, bytes]
  refine ensures_pure _ (continues _ rfl rfl ?_ (pinned_within_released (pinned_within_pinned within)))
  exact ⟨holds.nonneg, holds.aligned, holds.size, holds.blocks, holds.entries, holds.live⟩

theorem ensures_table_read {rid : RID} {item : List Cell} {post : List Cell → Heap → Prop}
    (live : heap rid = some item) (continues : post item heap) :
    Ensures TableHolds heap (tableRead rid) post := by
  apply ensures_lift
  rintro ⟨store, entries⟩ ⟨holds, within⟩
  apply ensures_read_kept holds within live
  intro after _ _ afterHolds afterWithin
  exact ⟨heap, ⟨afterHolds, afterWithin⟩, continues⟩

theorem ensures_place_item {src : List Cell} {addr : Int} {frame : Frame}
    {others : Multiset (Nat × Int)} {post : RID → TableState → Prop} (holds : HoldsHeap heap (store, entries))
    (inFile : addr ∈ pagesBelow store.length) (positive : 1 ≤ src.length)
    (room : src.length ≤ freeSpace (store.page addr)) (pin : store.pin addr = some frame)
    (within : PinnedWithin store [addr])
    (taken : others = entries.erase (freeSpace (store.page addr), addr))
    (continues : ∀ rid after, rid.blockAddr = addr → after.1.length = store.length → Reslotted store after.1 →
      heap rid = none → HoldsHeap (Function.update heap rid (some src)) after → PinnedWithin after.1 [] →
      post rid after) :
    Ensures (Both StoresPool FsmHolds) (store, others) (placeItem src addr ⟨frame, addr⟩) post := by
  rw [taken]
  obtain ⟨stack, slots, block⟩ : ∃ stack slots, HoldsStack (store.page addr) stack slots :=
    holds.blocks addr inFile
  obtain ⟨nonneg, _, _⟩ := in_file_bounds holds inFile
  obtain ⟨_, _, space⟩ := recorded_size_eq block
  obtain ⟨idx, filled, newSlots, placed, absent, pushed, few⟩ := new_item_grows block src (by omega)
  obtain ⟨recorded, inRange, _⟩ := recorded_size_eq pushed
  rw [placeItem]
  refine ensures_bind (ensures_data (ensures_load pin ?_))
  refine ensures_bind (ensures_of_option placed ?_)
  refine ensures_bind (ensures_data (ensures_amend pin ?_))
  refine ensures_bind (ensures_of_option recorded ?_)
  refine ensures_bind (ensures_fsm (ensures_fsm_insert inRange nonneg ?_))
  refine ensures_bind (ensures_data (ensures_unpin frame pin ?_))
  have page : ((store.written addr filled).unpinned addr).page addr = filled := by simp
  have same : ∀ other, other ≠ addr →
      ((store.written addr filled).unpinned addr).page other = store.page other :=
    fun other different => by simp [different]
  refine ensures_pure _ (continues _ _ rfl rfl ?_ ?_ ?_ (pinned_within_released within))
  · refine reslotted_block holds inFile same rfl (by rw [page]; exact pushed) ?_
    rcases few with fewer | full
    · exact .inr (by rw [block.nItems]; exact_mod_cast fewer)
    · exact .inl full
  · rw [holds.live, if_pos inFile]
    apply Option.eq_none_iff_forall_ne_some.mpr
    intro item read
    obtain ⟨slot, isSlot, member⟩ := (item_at_holds block).mp read
    have isIdx : slot = idx := by
      simp only at isSlot
      omega
    exact absent (isIdx ▸ List.mem_map_of_mem member)
  · have changed := heap_change_block holds inFile same rfl rfl
      ⟨_, _, by rw [page]; exact pushed⟩ (by rw [page]; exact item_at_push block absent pushed)
    rw [page] at changed
    exact changed

theorem init_block_free_space (page : Block) : freeSpace (initBlock page) = 118 := by
  obtain ⟨_, _, space⟩ := recorded_size_eq (init_block_holds page)
  have none : firstAvailable (initBlock page) = some none := rfl
  have headPtr : (initBlock page).headPtr = 6 := rfl
  have tailPtr : (initBlock page).tailPtr = 128 := rfl
  rw [if_pos none, headPtr, tailPtr] at space
  simp only [itemIdBytes] at space
  omega

/-- Where an item of a size goes: into a block with the least space that is enough, or into a new block
behind the others when none has enough. -/
def Placed (store : PageStore Block) (size : Nat) (addr length : Int) : Prop :=
  (addr ∈ pagesBelow store.length ∧ size ≤ freeSpace (store.page addr) ∧
    (∀ other ∈ pagesBelow store.length, size ≤ freeSpace (store.page other) →
      freeSpace (store.page addr) ≤ freeSpace (store.page other)) ∧ length = store.length) ∨
  ((∀ other ∈ pagesBelow store.length, freeSpace (store.page other) < size) ∧ addr = store.length ∧
    length = store.length + pageSize)

theorem ensures_insert_reslotted {src : List Cell} {post : RID → TableState → Prop}
    (holds : HoldsHeap heap (store, entries)) (within : PinnedWithin store []) (positive : 1 ≤ src.length)
    (fits : src.length ≤ 118)
    (continues : ∀ rid after, Placed store src.length rid.blockAddr after.1.length → Reslotted store after.1 →
      heap rid = none → HoldsHeap (Function.update heap rid (some src)) after → PinnedWithin after.1 [] →
      post rid after) :
    Ensures (Both StoresPool FsmHolds) (store, entries) (tableInsert src) post := by
  have inRange : src.length < sizes := by
    simp only [sizes]
    omega
  have entriesEq : entries = (pagesBelow store.length).map fun addr =>
    (freeSpace (store.page addr), addr) := holds.entries
  have listed : ∀ addr ∈ pagesBelow store.length, (freeSpace (store.page addr), addr) ∈ entries := by
    intro addr member
    rw [entriesEq]
    exact Multiset.mem_map_of_mem _ member
  rw [tableInsert]
  refine ensures_bind (ensures_fsm (ensures_fsm_pop_lower_bound inRange ?_ ?_))
  · intro smaller
    rw [if_pos rfl]
    refine ensures_bind (ensures_data (ensures_file_length ?_))
    refine ensures_bind (ensures_data (ensures_append rfl within (by decide) ?_))
    intro frame page
    refine ensures_bind (ensures_data (ensures_amend (by simp) ?_))
    have content : ((store.appended page).pinned store.length frame).page store.length = page := by simp
    rw [content]
    have appended : HoldsHeap heap (((store.appended page).pinned store.length frame).written
        store.length (initBlock page), (freeSpace (initBlock page), store.length) ::ₘ entries) :=
      heap_append_block holds (fun other different => by simp [different]) (by simp) rfl rfl
    have inFile : store.length ∈ pagesBelow (store.length + pageSize) := by
      rw [pages_below_grow _ holds.nonneg holds.aligned]
      exact Multiset.mem_cons_self _ _
    have fresh : (((store.appended page).pinned store.length frame).written store.length
        (initBlock page)).page store.length = initBlock page := by simp
    refine ensures_place_item appended inFile positive (by rw [fresh, init_block_free_space]; exact fits)
      (by simp) (pinned_within_written (pinned_within_pinned within))
      (by rw [fresh, Multiset.erase_cons_head]) ?_
    intro rid after place length reslotted dead afterHolds afterWithin
    refine continues rid after (.inr ⟨?_, place, length⟩) ?_ dead afterHolds afterWithin
    · intro other member
      exact smaller _ other (listed other member)
    · refine reslotted_behind reslotted (fun addr member => ?_) (fun addr inMiddle notOld => ?_)
      · have different : addr ≠ store.length := by
          rintro rfl
          have := (in_file_bounds holds member).2.2
          omega
        simp [different]
      · rw [PageStore.written_length, PageStore.pinned_length, PageStore.appended_length,
          pages_below_grow _ holds.nonneg holds.aligned] at inMiddle
        obtain rfl := (Multiset.mem_cons.mp inMiddle).resolve_right notOld
        rw [fresh]
        rfl
  · intro least addr present nonneg atLeast smallest
    rw [entriesEq] at present
    obtain ⟨other, inFile, same⟩ := Multiset.mem_map.mp present
    obtain ⟨rfl, rfl⟩ := Prod.mk.inj same
    obtain ⟨_, aligned, inside⟩ := in_file_bounds holds inFile
    rw [if_neg (by omega)]
    refine ensures_bind (ensures_data (ensures_fetch nonneg aligned inside within (by decide) ?_))
    intro frame _
    have pinned : HoldsHeap heap (store.pinned other frame, entries) :=
      ⟨holds.nonneg, holds.aligned, holds.size, holds.blocks, holds.entries, holds.live⟩
    refine ensures_place_item pinned inFile positive atLeast (by simp) (pinned_within_pinned within)
      rfl ?_
    intro rid after place length reslotted dead afterHolds afterWithin
    refine continues rid after ?_ reslotted dead afterHolds afterWithin
    rw [place]
    refine .inl ⟨inFile, atLeast, ?_, length⟩
    intro third member enough
    exact smallest _ third (listed third member) enough

theorem ensures_insert_placed {src : List Cell} {post : RID → TableState → Prop}
    (holds : HoldsHeap heap (store, entries)) (within : PinnedWithin store []) (positive : 1 ≤ src.length)
    (fits : src.length ≤ 118)
    (continues : ∀ rid after, Placed store src.length rid.blockAddr after.1.length → heap rid = none →
      HoldsHeap (Function.update heap rid (some src)) after → PinnedWithin after.1 [] → post rid after) :
    Ensures (Both StoresPool FsmHolds) (store, entries) (tableInsert src) post := by
  apply ensures_insert_reslotted holds within positive fits
  intro rid after placed _ dead afterHolds afterWithin
  exact continues rid after placed dead afterHolds afterWithin

theorem ensures_table_insert {src : List Cell} {post : RID → Heap → Prop} (positive : 1 ≤ src.length)
    (fits : src.length ≤ 118)
    (continues : ∀ rid, heap rid = none → post rid (Function.update heap rid (some src))) :
    Ensures TableHolds heap (tableInsert src) post := by
  apply ensures_lift
  rintro ⟨store, entries⟩ ⟨holds, within⟩
  apply ensures_insert_placed holds within positive fits
  intro rid after _ dead afterHolds afterWithin
  exact ⟨Function.update heap rid (some src), ⟨afterHolds, afterWithin⟩, continues rid dead⟩

theorem ensures_delete_reslotted {rid : RID} {item : List Cell} {post : Unit → TableState → Prop}
    (holds : HoldsHeap heap (store, entries)) (within : PinnedWithin store []) (live : heap rid = some item)
    (continues : ∀ after, after.1.length = store.length → Reslotted store after.1 →
      HoldsHeap (Function.update heap rid none) after → PinnedWithin after.1 [] → post () after) :
    Ensures (Both StoresPool FsmHolds) (store, entries) (tableDelete rid) post := by
  obtain ⟨inFile, stack, slots, slot, isSlot, block, member⟩ := live_block holds live
  obtain ⟨nonneg, aligned, inside⟩ := in_file_bounds holds inFile
  obtain ⟨front, back, rfl⟩ := List.append_of_mem member
  obtain ⟨lighter, newSlots, deleted, removed, fewer⟩ := delete_item_shrinks block
  obtain ⟨oldRecorded, _, _⟩ := recorded_size_eq block
  obtain ⟨recorded, inRange, _⟩ := recorded_size_eq removed
  have present : (freeSpace (store.page rid.blockAddr), rid.blockAddr) ∈ entries := by
    rw [show entries = _ from holds.entries]
    exact Multiset.mem_map.mpr ⟨rid.blockAddr, inFile, rfl⟩
  rw [tableDelete]
  refine ensures_bind (ensures_data (ensures_fetch nonneg aligned inside within (by decide) ?_))
  intro frame _
  refine ensures_bind (ensures_data (ensures_load (by simp) ?_))
  refine ensures_bind (ensures_of_option oldRecorded ?_)
  refine ensures_bind (ensures_of_option (by rw [isSlot]; exact deleted) ?_)
  refine ensures_bind (ensures_data (ensures_amend (by simp) ?_))
  refine ensures_bind (ensures_of_option recorded ?_)
  refine ensures_bind (ensures_fsm (ensures_fsm_pop present ?_))
  refine ensures_bind (ensures_fsm (ensures_fsm_insert inRange nonneg ?_))
  refine ensures_data (ensures_unpin frame (by simp) ?_)
  have same : rid = ⟨rid.blockAddr, slot⟩ := by rw [← isSlot]
  have page : (((store.pinned rid.blockAddr frame).written rid.blockAddr lighter).unpinned
      rid.blockAddr).page rid.blockAddr = lighter := by simp
  have untouched : ∀ other, other ≠ rid.blockAddr → (((store.pinned rid.blockAddr frame).written
      rid.blockAddr lighter).unpinned rid.blockAddr).page other = store.page other :=
    fun other different => by simp [different]
  refine continues _ rfl ?_ ?_ (pinned_within_released (pinned_within_pinned within))
  · refine reslotted_block holds inFile untouched rfl (by rw [page]; exact removed) (.inr ?_)
    rw [block.nItems]
    exact_mod_cast fewer
  · have changed := heap_change_block holds inFile untouched rfl rfl
      ⟨_, _, by rw [page]; exact removed⟩ (by rw [page]; exact item_at_remove block removed)
    rw [page, ← same] at changed
    exact changed

theorem ensures_table_delete {rid : RID} {item : List Cell} {post : Unit → Heap → Prop}
    (live : heap rid = some item) (continues : post () (Function.update heap rid none)) :
    Ensures TableHolds heap (tableDelete rid) post := by
  apply ensures_lift
  rintro ⟨store, entries⟩ ⟨holds, within⟩
  apply ensures_delete_reslotted holds within live
  intro after _ _ afterHolds afterWithin
  exact ⟨Function.update heap rid none, ⟨afterHolds, afterWithin⟩, continues⟩

end Operations

end MyJQL.TableStore
