import MyJQL.TableStore

/-!
# The runs of a table

Every table that the public operations reach from empty files holds the heap that the same calls
build, and its space map lists every block under the space that is free in it.
-/

namespace MyJQL.TableRefinement

open MyJQL.FileIo
open MyJQL.BufferPoolModel
open MyJQL.BufferPoolInvariant
open MyJQL.BufferPoolTransparency
open MyJQL.StateProgram
open MyJQL.PageStoreLogic
open MyJQL.PageAccounting
open MyJQL.HashMapModel
open MyJQL.HashMapLayout
open MyJQL.FreeSpaceMap
open MyJQL.Cells
open MyJQL.BlockModel
open MyJQL.BlockInvariant
open MyJQL.TableModel
open MyJQL.TableStore

set_option autoImplicit false

inductive TableCall where
  | insert (src : List Cell)
  | read (rid : RID)
  | delete (rid : RID)

inductive TableAnswer where
  | inserted (rid : RID)
  | copied (item : List Cell)
  | deleted
  deriving DecidableEq

namespace TableCall

def run : TableCall → Program Table TableAnswer
  | insert src => do return .inserted (← tableInsert src)
  | read rid => do return .copied (← tableRead rid)
  | delete rid => do
      tableDelete rid
      return .deleted

/-- An empty block holds 118 bytes beside one item id. -/
def Allowed (heap : Heap) : TableCall → Prop
  | insert src => 1 ≤ src.length ∧ src.length ≤ 118
  | read rid => (heap rid).isSome
  | delete rid => (heap rid).isSome

def Answers (heap : Heap) : TableCall → TableAnswer → Prop
  | insert _, answer => ∃ rid, answer = .inserted rid ∧ heap rid = none
  | read rid, answer => ∃ item, answer = .copied item ∧ heap rid = some item
  | delete _, answer => answer = .deleted

def advance (heap : Heap) : TableCall → TableAnswer → Heap
  | insert src, .inserted rid => Function.update heap rid (some src)
  | delete rid, _ => Function.update heap rid none
  | _, _ => heap

end TableCall

/-- The tables that the public operations reach from empty files, each with its reference. -/
inductive TableReachable : Table → Heap → Prop
  | opened {dataDisk : Disk Block} {fsmDisk : Disk HashPage} {memory table : Table}
      (dataEmpty : dataDisk.size = 0) (fsmEmpty : fsmDisk.size = 0)
      (ran : tableInit dataDisk fsmDisk memory = some ((), table)) : TableReachable table fun _ => none
  | called {table after : Table} {heap : Heap} {call : TableCall} {answer : TableAnswer}
      (before : TableReachable table heap) (allowed : call.Allowed heap)
      (ran : call.run table = some (answer, after)) :
      TableReachable after (call.advance heap answer)

theorem table_opened (dataDisk : Disk Block) (fsmDisk : Disk HashPage) (dataEmpty : dataDisk.size = 0)
    (fsmEmpty : fsmDisk.size = 0) (memory : Table) :
    ∃ table, tableInit dataDisk fsmDisk memory = some ((), table) ∧ TableHolds (fun _ => none) table := by
  obtain ⟨fsm, ran, holds⟩ := fsm_opened fsmDisk fsmEmpty memory.2
  refine ⟨(initBufferPool dataDisk memory.1, fsm), ?_, (PageStore.opened dataDisk, 0), ⟨?_, ?_⟩, ?_, holds⟩
  · change ((secondPart.run (hashTableInit fsmDisk 8)) (initBufferPool dataDisk memory.1, memory.2)) = _
    simp only [Part.run, secondPart, ran, Option.map_some]
  · have none : pagesBelow (PageStore.opened dataDisk).length = 0 := by
      simp [PageStore.opened, dataEmpty, pagesBelow]
    refine ⟨?_, ?_, rfl, ?_, ?_, ?_⟩
    · simp [PageStore.opened, dataEmpty]
    · simp [PageStore.opened, dataEmpty]
    · intro addr member
      simp [none] at member
    · simp [none]
    · intro rid
      simp [none]
  · exact opened_pinned_within dataDisk []
  · exact opened_stores dataDisk memory.1 (by omega) (by simp [dataEmpty])

theorem table_call_step {table : Table} {heap : Heap} {call : TableCall} (holds : TableHolds heap table)
    (allowed : call.Allowed heap) :
    ∃ answer after, call.run table = some (answer, after) ∧ call.Answers heap answer ∧
      TableHolds (call.advance heap answer) after := by
  have runs : Ensures TableHolds heap call.run fun answer after =>
      call.Answers heap answer ∧ after = call.advance heap answer := by
    cases call with
    | insert src =>
        apply ensures_bind
        apply ensures_table_insert allowed.1 allowed.2
        intro rid dead
        exact ensures_pure _ ⟨⟨rid, rfl, dead⟩, rfl⟩
    | read rid =>
        obtain ⟨item, live⟩ := Option.isSome_iff_exists.mp allowed
        apply ensures_bind
        apply ensures_table_read live
        exact ensures_pure _ ⟨⟨item, rfl, live⟩, rfl⟩
    | delete rid =>
        obtain ⟨item, live⟩ := Option.isSome_iff_exists.mp allowed
        apply ensures_bind
        apply ensures_table_delete live
        exact ensures_pure _ ⟨rfl, rfl⟩
  obtain ⟨answer, after, _, ran, afterHolds, answers, rfl⟩ := runs table holds
  exact ⟨answer, after, ran, answers, afterHolds⟩

theorem table_reachable_holds {table : Table} {heap : Heap} (run : TableReachable table heap) :
    TableHolds heap table := by
  induction run with
  | opened dataEmpty fsmEmpty ran =>
      obtain ⟨table, same, holds⟩ := table_opened _ _ dataEmpty fsmEmpty _
      rw [ran] at same
      cases same
      exact holds
  | called before allowed ran ih =>
      obtain ⟨answer, after, same, _, holds⟩ := table_call_step ih allowed
      rw [ran] at same
      cases same
      exact holds

section Holds

variable {table : Table} {heap : Heap}

theorem table_holds_live (holds : TableHolds heap table) : liveItem table = heap := by
  obtain ⟨⟨store, entries⟩, ⟨heapHolds, _⟩, stores, _⟩ := holds
  funext rid
  have live := heapHolds.live rid
  have aligned : store.length % pageSize = 0 := heapHolds.aligned
  have length : table.1.file.length = store.length := stores.length
  rw [live, liveItem, length]
  simp only [mem_pages_below aligned]
  split_ifs with inFile
  · rw [stores.page rid.blockAddr ⟨inFile.1, inFile.2.1, by rw [length]; exact inFile.2.2⟩]
  · rfl

theorem table_holds_block (holds : TableHolds heap table) {addr : Int} (inFile : InFile table.1 addr) :
    ∃ stack slots, HoldsStack (view table.1 addr) stack slots := by
  obtain ⟨⟨store, entries⟩, ⟨heapHolds, _⟩, stores, _⟩ := holds
  have member : addr ∈ pagesBelow store.length :=
    (mem_pages_below heapHolds.aligned).mpr
      ⟨inFile.1, inFile.2.1, by rw [← stores.length]; exact inFile.2.2⟩
  rw [stores.page addr inFile]
  exact heapHolds.blocks addr member

theorem table_holds_fsm (holds : TableHolds heap table) :
    FsmHolds ((pagesBelow table.1.file.length).map fun addr => (freeSpace (view table.1 addr), addr))
      table.2 := by
  obtain ⟨⟨store, entries⟩, ⟨heapHolds, _⟩, stores, fsm⟩ := holds
  have aligned : store.length % pageSize = 0 := heapHolds.aligned
  have length : table.1.file.length = store.length := stores.length
  have recorded : entries = (pagesBelow store.length).map fun addr =>
    (freeSpace (store.page addr), addr) := heapHolds.entries
  have same : ∀ addr ∈ pagesBelow store.length,
      (freeSpace (view table.1 addr), addr) = (freeSpace (store.page addr), addr) := by
    intro addr member
    obtain ⟨nonneg, addrAligned, inside⟩ := (mem_pages_below aligned).mp member
    rw [stores.page addr ⟨nonneg, addrAligned, by rw [length]; exact inside⟩]
  rw [length, Multiset.map_congr rfl same, ← recorded]
  exact fsm

theorem live_in_file (holds : TableHolds heap table) {rid : RID} (live : (heap rid).isSome) :
    InFile table.1 rid.blockAddr := by
  rw [← table_holds_live holds, liveItem] at live
  split_ifs at live with inFile
  · exact inFile
  · cases live

end Holds

/-- From empty files on, every table holds its reference, and every allowed call returns, answers
what the reference allows and leaves a table that holds the reference after the call. -/
theorem table_refines_heap :
    (∀ (dataDisk : Disk Block) (fsmDisk : Disk HashPage) (memory : Table), dataDisk.size = 0 →
      fsmDisk.size = 0 → ∃ table, tableInit dataDisk fsmDisk memory = some ((), table)) ∧
    ∀ table heap, TableReachable table heap → liveItem table = heap ∧
      ∀ call : TableCall, call.Allowed heap → ∃ answer after, call.run table = some (answer, after) ∧
        call.Answers heap answer ∧ liveItem after = call.advance heap answer := by
  constructor
  · intro dataDisk fsmDisk memory dataEmpty fsmEmpty
    obtain ⟨table, ran, _⟩ := table_opened dataDisk fsmDisk dataEmpty fsmEmpty memory
    exact ⟨table, ran⟩
  · intro table heap run
    have holds := table_reachable_holds run
    refine ⟨table_holds_live holds, ?_⟩
    intro call allowed
    obtain ⟨answer, after, ran, answers, afterHolds⟩ := table_call_step holds allowed
    exact ⟨answer, after, ran, answers, table_holds_live afterHolds⟩

def emptyDataDisk : Disk Block := ⟨0, fun _ => ⟨0, 0, 0, fun _ => .char 0⟩⟩

def emptySpaceDisk : Disk HashPage := ⟨0, fun _ _ => 0⟩

def blankTable : Table :=
  ⟨⟨⟨emptyDataDisk, 0⟩, fun _ => ⟨0, 0, 0, fun _ => .char 0⟩, fun _ => 0, fun _ => 0, fun _ => 0⟩,
    ⟨⟨emptySpaceDisk, 0⟩, fun _ _ => 0, fun _ => 0, fun _ => 0, fun _ => 0⟩⟩

/-- The first item of a new table. -/
theorem table_refines_heap_first_item :
    ∃ table rid after, TableReachable table (fun _ => none) ∧
      (TableCall.insert [.char 7]).run table = some (.inserted rid, after) ∧
      liveItem after = Function.update (fun _ => none) rid (some [.char 7]) := by
  obtain ⟨opens, refines⟩ := table_refines_heap
  obtain ⟨table, ran⟩ := opens emptyDataDisk emptySpaceDisk blankTable rfl rfl
  have reachable : TableReachable table fun _ => none := .opened rfl rfl ran
  obtain ⟨_, after, inserted, ⟨rid, rfl, _⟩, live⟩ :=
    (refines table _ reachable).2 (.insert [.char 7]) ⟨by decide, by decide⟩
  exact ⟨table, rid, after, reachable, inserted, live⟩

def hasAvailableSlot (block : Block) : Bool :=
  (List.range block.nItems.toNat).any fun idx : Nat =>
    (getItemId block idx).any fun itemId => itemIdAvailability itemId = 1

/-- The bytes that one more item may have, or none when not even its item id fits. -/
def exactSpace (block : Block) : Int :=
  max 0 (block.tailPtr - block.headPtr - if hasAvailableSlot block then 0 else 4)

theorem available_slot_holds {block : Block} {stack : Stack} {slots : Nat}
    (holds : HoldsStack block stack slots) :
    hasAvailableSlot block = true ↔ firstAvailable block ≠ some none := by
  have nItems : block.nItems.toNat = slots := by
    rw [holds.nItems, Int.toNat_natCast]
  have readable : hasAvailableSlot block = true ↔ ∃ idx < slots, idx ∉ stack.map Prod.fst := by
    simp only [hasAvailableSlot, nItems, List.any_eq_true, List.mem_range]
    constructor
    · rintro ⟨idx, inSlots, available⟩
      obtain ⟨itemId, found, unnamed⟩ := slot_readable holds inSlots
      rw [found] at available
      exact ⟨idx, inSlots, unnamed.mp (by simpa using available)⟩
    · rintro ⟨idx, inSlots, absent⟩
      obtain ⟨itemId, found, unnamed⟩ := slot_readable holds inSlots
      exact ⟨idx, inSlots, by simpa [found] using unnamed.mpr absent⟩
  rw [readable]
  rcases first_available_holds holds with ⟨idx, found, inSlots, absent⟩ | ⟨none, named⟩
  · simp only [found, ne_eq, Option.some.injEq, reduceCtorEq, not_false_eq_true, iff_true]
    exact ⟨idx, inSlots, absent⟩
  · simp only [none, ne_eq, not_true_eq_false, iff_false, not_exists, not_and, not_not]
    exact named

theorem free_space_exact {block : Block} {stack : Stack} {slots : Nat}
    (holds : HoldsStack block stack slots) : (freeSpace block : Int) = exactSpace block := by
  obtain ⟨_, _, space⟩ := recorded_size_eq holds
  have available := available_slot_holds holds
  rw [space, exactSpace]
  by_cases full : firstAvailable block = some none
  · have none : hasAvailableSlot block = false := by
      rw [Bool.eq_false_iff]
      exact fun some => (available.mp some) full
    simp only [full, none, if_true, Bool.false_eq_true, if_false, itemIdBytes]
    rfl
  · rw [if_neg full, if_pos (available.mpr full)]
    rfl

/-- The map prints every block of the file once, under its exact space, and nothing else. -/
def PrintsSpace (table : Table) (lines : List (Nat × List PrintedBlock)) : Prop :=
  ((printedPairs lines).map Prod.snd).Nodup ∧ ∀ size addr, (size, addr) ∈ printedPairs lines ↔
    InFile table.1 addr ∧ (size : Int) = exactSpace (view table.1 addr)

theorem table_holds_prints {table : Table} {heap : Heap} (holds : TableHolds heap table)
    (aligned : table.1.file.length % pageSize = 0) :
    ∃ lines after, printHashTable table.2 = some (lines, after) ∧ PrintsSpace table lines ∧
      (printedPairs lines : Multiset (Nat × Int)) = (pagesBelow table.1.file.length).map fun addr =>
        (freeSpace (view table.1 addr), addr) := by
  obtain ⟨lines, after, printed, pairs⟩ := fsm_prints (table_holds_fsm holds)
  refine ⟨lines, after, printed, ⟨?_, ?_⟩, pairs⟩
  · rw [← Multiset.coe_nodup, ← Multiset.map_coe, pairs, Multiset.map_map]
    have own : Prod.snd ∘ (fun addr => (freeSpace (view table.1 addr), addr)) = id := rfl
    rw [own, Multiset.map_id]
    exact pages_below_nodup _
  · intro size addr
    rw [← Multiset.mem_coe, pairs, Multiset.mem_map]
    constructor
    · rintro ⟨other, member, same⟩
      obtain ⟨rfl, rfl⟩ := Prod.mk.inj same
      have inFile : InFile table.1 other := (mem_pages_below aligned).mp member
      obtain ⟨_, _, block⟩ := table_holds_block holds inFile
      exact ⟨inFile, free_space_exact block⟩
    · rintro ⟨inFile, space⟩
      obtain ⟨_, _, block⟩ := table_holds_block holds inFile
      refine ⟨addr, (mem_pages_below aligned).mpr inFile, ?_⟩
      rw [← free_space_exact block] at space
      rw [Int.ofNat.inj space]

/-- In every reachable table the space map lists every block exactly once, under the space of its
current contents. So an insertion always finds room, and a deletion takes the very pair of its block
out of the map. -/
theorem free_space_map_exact {table : Table} {heap : Heap} (run : TableReachable table heap) :
    ∃ lines printed, printHashTable table.2 = some (lines, printed) ∧ PrintsSpace table lines ∧
      (∀ src : List Cell, 1 ≤ src.length → src.length ≤ 118 → ∃ rid after,
        tableInsert src table = some (rid, after) ∧ InFile after.1 rid.blockAddr ∧
        (view after.1 rid.blockAddr).headPtr ≤ (view after.1 rid.blockAddr).tailPtr) ∧
      ∀ rid : RID, (heap rid).isSome → ∃ oldsize : Nat,
        recordedSize (view table.1 rid.blockAddr) = some (oldsize : Int) ∧
        (oldsize, rid.blockAddr) ∈ printedPairs lines ∧
        ∃ popped left reprinted, hashTablePop oldsize rid.blockAddr table.2 = some ((), popped) ∧
          printHashTable popped = some (left, reprinted) ∧
          (printedPairs left : Multiset (Nat × Int)) =
            (printedPairs lines : Multiset (Nat × Int)).erase (oldsize, rid.blockAddr) := by
  have holds := table_reachable_holds run
  have aligned : table.1.file.length % pageSize = 0 := by
    obtain ⟨_, _, stores, _⟩ := holds
    exact stores.invariant.lengthAligned
  obtain ⟨lines, printed, prints, space, pairs⟩ := table_holds_prints holds aligned
  refine ⟨lines, printed, prints, space, ?_, ?_⟩
  · intro src positive fits
    have inserts : Ensures TableHolds heap (tableInsert src) fun rid final =>
        (final rid).isSome :=
      ensures_table_insert positive fits fun rid _ => by simp
    obtain ⟨rid, after, final, ran, afterHolds, live⟩ := inserts table holds
    have inFile := live_in_file afterHolds live
    obtain ⟨_, _, block⟩ := table_holds_block afterHolds inFile
    exact ⟨rid, after, ran, inFile, block.fits⟩
  · intro rid live
    have inFile := live_in_file holds live
    obtain ⟨_, _, block⟩ := table_holds_block holds inFile
    obtain ⟨recorded, _, _⟩ := recorded_size_eq block
    have present : (freeSpace (view table.1 rid.blockAddr), rid.blockAddr) ∈ printedPairs lines :=
      (space.2 _ _).mpr ⟨inFile, free_space_exact block⟩
    have fsm := table_holds_fsm holds
    rw [← pairs] at fsm
    have pops : Ensures FsmHolds (printedPairs lines)
        (hashTablePop (freeSpace (view table.1 rid.blockAddr)) rid.blockAddr) fun _ left => left =
          (printedPairs lines : Multiset (Nat × Int)).erase
            (freeSpace (view table.1 rid.blockAddr), rid.blockAddr) :=
      ensures_fsm_pop (Multiset.mem_coe.mpr present) rfl
    obtain ⟨_, popped, _, ran, poppedHolds, rfl⟩ := pops table.2 fsm
    obtain ⟨left, reprinted, printedLeft, leftPairs⟩ := fsm_prints poppedHolds
    exact ⟨_, recorded, present, popped, left, reprinted, ran, printedLeft, leftPairs⟩

/-- A new table with its first item. -/
theorem free_space_map_exact_first_item :
    ∃ table heap rid, TableReachable table heap ∧ heap rid = some [.char 7] ∧
      ∃ lines printed, printHashTable table.2 = some (lines, printed) ∧ PrintsSpace table lines := by
  obtain ⟨table, opened, holds⟩ := table_opened emptyDataDisk emptySpaceDisk rfl rfl blankTable
  have allowed : (TableCall.insert [.char 7]).Allowed fun _ => none := ⟨by decide, by decide⟩
  obtain ⟨_, after, inserted, ⟨rid, rfl, _⟩, _⟩ := table_call_step holds allowed
  have reachable := TableReachable.called (.opened rfl rfl opened) allowed inserted
  obtain ⟨lines, printed, prints, space, _⟩ := free_space_map_exact reachable
  exact ⟨after, _, rid, reachable, by simp [TableCall.advance], lines, printed, prints, space⟩

def availableSpace (block : Block) : Int :=
  block.tailPtr - block.headPtr - if hasAvailableSlot block then 0 else 4

def Fits (table : Table) (size : Nat) (addr : Int) : Prop :=
  InFile table.1 addr ∧ size ≤ availableSpace (view table.1 addr)

/-- Where the item went whose insertion made `after` out of `table`. -/
structure BestFit (table after : Table) (size : Nat) (rid : RID) : Prop where
  fitting : (∃ addr, Fits table size addr) → Fits table size rid.blockAddr ∧
    (∀ addr, Fits table size addr →
      availableSpace (view table.1 rid.blockAddr) ≤ availableSpace (view table.1 addr)) ∧
    after.1.file.length = table.1.file.length
  appending : (¬∃ addr, Fits table size addr) → rid.blockAddr = table.1.file.length ∧
    after.1.file.length = table.1.file.length + pageSize

theorem free_space_available {block : Block} {stack : Stack} {slots : Nat} (holds : HoldsStack block stack slots) :
    (freeSpace block : Int) = max 0 (availableSpace block) := by
  rw [free_space_exact holds]
  rfl

theorem fits_iff {table : Table} {store : PageStore Block} {entries : Multiset (Nat × Int)} {heap : Heap}
    {size : Nat} {addr : Int} (stores : StoresPool store table.1) (holds : HoldsHeap heap (store, entries))
    (positive : 1 ≤ size) :
    Fits table size addr ↔ addr ∈ pagesBelow store.length ∧ size ≤ freeSpace (store.page addr) := by
  have aligned : store.length % pageSize = 0 := holds.aligned
  rw [Fits, mem_pages_below aligned, InFile, stores.length]
  apply and_congr_right
  intro inFile
  obtain ⟨_, _, block⟩ := holds.blocks addr ((mem_pages_below aligned).mpr inFile)
  have space := free_space_available block
  rw [stores.page addr ⟨inFile.1, inFile.2.1, by rw [stores.length]; exact inFile.2.2⟩]
  simp only at space
  omega

/-- In every reachable table an item goes where the least space is that suffices for it. -/
theorem best_fit_placement : ∀ table heap, TableReachable table heap → ∀ src : List Cell, 1 ≤ src.length →
    src.length ≤ 118 → ∃ rid after, tableInsert src table = some (rid, after) ∧
      BestFit table after src.length rid ∧ liveItem after rid = some src := by
  intro table heap run src positive fits
  obtain ⟨⟨store, entries⟩, ⟨holds, within⟩, both⟩ := table_reachable_holds run
  have placed : Ensures (Both StoresPool FsmHolds) (store, entries) (tableInsert src) fun rid after =>
      Placed store src.length rid.blockAddr after.1.length ∧
        HoldsHeap (Function.update heap rid (some src)) after ∧ PinnedWithin after.1 [] := by
    apply ensures_insert_placed holds within positive fits
    intro rid after placed _ afterHolds afterWithin
    exact ⟨placed, afterHolds, afterWithin⟩
  obtain ⟨rid, after, final, ran, afterBoth, place, afterHolds, afterWithin⟩ := placed table both
  have stores := both.1
  have length : table.1.file.length = store.length := stores.length
  have afterLength : after.1.file.length = final.1.length := afterBoth.1.length
  have live := table_holds_live (show TableHolds _ after from ⟨final, ⟨afterHolds, afterWithin⟩, afterBoth⟩)
  refine ⟨rid, after, ran, ⟨?_, ?_⟩, by rw [live, Function.update_self]⟩
  · rintro ⟨addr, fit⟩
    have known := (fits_iff stores holds positive).mp fit
    rcases place with ⟨inFile, enough, least, same⟩ | ⟨none, _⟩
    · refine ⟨(fits_iff stores holds positive).mpr ⟨inFile, enough⟩, ?_, ?_⟩
      · intro other otherFit
        obtain ⟨otherInFile, otherEnough⟩ := (fits_iff stores holds positive).mp otherFit
        have smaller := least other otherInFile otherEnough
        obtain ⟨_, _, block⟩ := holds.blocks _ inFile
        obtain ⟨_, _, otherBlock⟩ := holds.blocks _ otherInFile
        have space := free_space_available block
        have otherSpace := free_space_available otherBlock
        rw [stores.page _ otherFit.1, stores.page _ ((fits_iff stores holds positive).mpr ⟨inFile, enough⟩).1]
        simp only at space otherSpace smaller enough otherEnough ⊢
        omega
      · rw [afterLength, same, length]
    · exact absurd known.2 (Nat.not_le.mpr (none addr known.1))
  · intro nowhere
    rcases place with ⟨inFile, enough, _⟩ | ⟨_, isEnd, longer⟩
    · exact absurd ⟨_, (fits_iff stores holds positive).mpr ⟨inFile, enough⟩⟩ nowhere
    · rw [afterLength, length]
      exact ⟨isEnd, longer⟩

theorem two_blocks_reached : ∃ table heap, TableReachable table heap ∧ table.1.file.length = 256 ∧
    availableSpace (view table.1 0) = 54 ∧ availableSpace (view table.1 128) = 14 := by
  obtain ⟨empty, opened, holds⟩ := table_opened emptyDataDisk emptySpaceDisk rfl rfl blankTable
  have small : ∀ heap, (TableCall.insert (List.replicate 60 (.char 7))).Allowed heap := fun _ => ⟨by decide, by decide⟩
  have large : ∀ heap, (TableCall.insert (List.replicate 100 (.char 7))).Allowed heap := fun _ => ⟨by decide, by decide⟩
  obtain ⟨_, one, first, _, holdsOne⟩ := table_call_step holds (small _)
  obtain ⟨_, two, second, _⟩ := table_call_step holdsOne (large _)
  have spaces : ((tableInit emptyDataDisk emptySpaceDisk blankTable).bind fun opened =>
      ((TableCall.insert (List.replicate 60 (.char 7))).run opened.2).bind fun first =>
        ((TableCall.insert (List.replicate 100 (.char 7))).run first.2).map fun second =>
          (second.2.1.file.length, availableSpace (view second.2.1 0), availableSpace (view second.2.1 128))) =
      some (256, 54, 14) := by
    decide +kernel
  rw [opened, Option.bind_some, first, Option.bind_some, second, Option.map_some, Option.some.injEq] at spaces
  simp only [Prod.mk.injEq] at spaces
  exact ⟨two, _, .called (.called (.opened rfl rfl opened) (small _) first) (large _) second, spaces⟩

/-- Both blocks have space for eight bytes, and they go where less is left. -/
theorem best_fit_placement_two_blocks : ∃ table rid after, Fits table 8 0 ∧ Fits table 8 128 ∧
    tableInsert (List.replicate 8 (.char 7)) table = some (rid, after) ∧ BestFit table after 8 rid ∧
      rid.blockAddr ≠ 0 := by
  obtain ⟨table, heap, reachable, length, roomy, tight⟩ := two_blocks_reached
  have fitsFirst : Fits table 8 0 := ⟨⟨by decide, by decide, by omega⟩, by omega⟩
  have fitsSecond : Fits table 8 128 := ⟨⟨by decide, by decide, by omega⟩, by omega⟩
  obtain ⟨rid, after, ran, fit, _⟩ :=
    best_fit_placement table heap reachable (List.replicate 8 (.char 7)) (by decide) (by decide)
  refine ⟨table, rid, after, fitsFirst, fitsSecond, ran, fit, fun first => ?_⟩
  have least := (fit.fitting ⟨0, fitsFirst⟩).2.1 128 fitsSecond
  rw [first] at least
  omega

end MyJQL.TableRefinement
