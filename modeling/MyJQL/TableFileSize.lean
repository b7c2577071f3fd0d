import MyJQL.BlockRefinement
import MyJQL.TableRefinement
import Mathlib.Algebra.Order.BigOperators.Group.Finset

/-!
# How long the data file of a table gets

A table never gives a block back, but it puts a new one behind the others only when no block has room for an
item. Then every block is full up to a remainder that depends on the sizes of the items alone, so the file is
never longer than the greatest number of bytes that were stored at one time asks for.
-/

namespace MyJQL.TableFileSize

open MyJQL.FileIo
open MyJQL.BufferPoolModel
open MyJQL.StateProgram
open MyJQL.PageStoreLogic
open MyJQL.PageAccounting
open MyJQL.HashMapModel
open MyJQL.FreeSpaceMap
open MyJQL.Cells
open MyJQL.BlockModel
open MyJQL.BlockInvariant
open MyJQL.BlockRefinement
open MyJQL.TableModel
open MyJQL.TableStore
open MyJQL.TableRefinement

set_option autoImplicit false

variable {least most bound : Nat} {heap : Heap} {store : PageStore Block} {entries : Multiset (Nat × Int)}

/-- The slots that a block can have when no item is shorter than `least`. -/
def slotsFor (least : Nat) : Nat := 122 / (least + itemIdBytes)

/-- The bytes that are in a block that has no room for an item of at most `most` bytes. -/
def fillOf (least most : Nat) : Nat := 119 - most - itemIdBytes * slotsFor least

theorem slots_few {block : Block} {stack : Stack} {slots : Nat} (holds : HoldsStack block stack slots)
    (full : slots = stack.length) (long : ∀ entry ∈ stack, least ≤ entry.2.length) : slots ≤ slotsFor least := by
  have bytes : stack.length * least ≤ (stackBytes stack).length := by
    have each := List.card_nsmul_le_sum _ _ (List.forall_mem_map.mpr long)
    rw [List.length_map, nsmul_eq_mul, Nat.cast_id] at each
    rw [stack_bytes_length]
    exact each
  have headPtr := holds.headPtr
  have fits := holds.fits
  have tailPtr := holds.tailPtr
  rw [slotsFor, Nat.le_div_iff_mul_le (by simp only [itemIdBytes]; omega), Nat.mul_add]
  rw [← full] at bytes
  simp only [dataOffset, itemIdBytes, blockSize] at *
  omega

theorem block_filled {block : Block} {stack : Stack} {slots size : Nat} (holds : HoldsStack block stack slots)
    (few : slots ≤ slotsFor least) (fits : size ≤ most) (noRoom : freeSpace block < size) :
    fillOf least most ≤ (stackBytes stack).length := by
  obtain ⟨_, _, space⟩ := recorded_size_eq holds
  have headPtr := holds.headPtr
  have tailPtr := holds.tailPtr
  have spent := Nat.mul_le_mul_left itemIdBytes few
  rw [fillOf]
  simp only [dataOffset, itemIdBytes, blockSize] at *
  split_ifs at space <;> omega

/-- At most so many bytes are stored. -/
def Light (bound : Nat) (heap : Heap) : Prop :=
  ∀ rids : Finset RID, ∑ rid ∈ rids, ((heap rid).getD []).length ≤ bound

def ridsOf (addr : Int) (stack : Stack) : Finset RID := (stack.map fun entry => (⟨addr, entry.1⟩ : RID)).toFinset

theorem rids_bytes (holds : HoldsHeap heap (store, entries)) {addr : Int} (inFile : addr ∈ pagesBelow store.length)
    {stack : Stack} {slots : Nat} (block : HoldsStack (store.page addr) stack slots) :
    ∑ rid ∈ ridsOf addr stack, ((heap rid).getD []).length = (stackBytes stack).length := by
  have once : (stack.map fun entry => (⟨addr, entry.1⟩ : RID)).Nodup := by
    have nodup := block.nodup
    rw [List.Nodup, List.pairwise_map] at nodup ⊢
    exact nodup.imp fun different same => different (Int.ofNat.inj (RID.mk.inj same).2)
  rw [ridsOf, List.sum_toFinset _ once, stack_bytes_length, List.map_map]
  congr 1
  apply List.map_congr_left
  intro entry member
  have live : heap ⟨addr, entry.1⟩ = some entry.2 := by
    rw [holds.live, if_pos inFile]
    exact (item_at_holds block).mpr ⟨entry.1, rfl, member⟩
  simp [live]

theorem filled_light {fill : Nat} (holds : HoldsHeap heap (store, entries)) (light : Light bound heap)
    (filled : ∀ addr ∈ pagesBelow store.length, ∃ (stack : Stack) (slots : Nat),
      HoldsStack (store.page addr) stack slots ∧ fill ≤ (stackBytes stack).length) :
    (pagesBelow store.length).card * fill ≤ bound := by
  choose! stack slots block enough using filled
  let blocks := (pagesBelow store.length).toFinset
  have inFile : ∀ addr ∈ blocks, addr ∈ pagesBelow store.length := fun addr member => Multiset.mem_toFinset.mp member
  have apart : (blocks : Set Int).PairwiseDisjoint fun addr => ridsOf addr (stack addr) := by
    intro first _ second _ different
    refine Finset.disjoint_left.mpr fun rid inFirst inSecond => different ?_
    obtain ⟨_, _, rfl⟩ := List.mem_map.mp (List.mem_toFinset.mp inFirst)
    obtain ⟨_, _, same⟩ := List.mem_map.mp (List.mem_toFinset.mp inSecond)
    exact (RID.mk.inj same).1.symm
  have card : blocks.card = (pagesBelow store.length).card := Multiset.toFinset_card_of_nodup (pages_below_nodup _)
  calc (pagesBelow store.length).card * fill
      = blocks.card • fill := by rw [card, nsmul_eq_mul, Nat.cast_id]
    _ ≤ ∑ addr ∈ blocks, ∑ rid ∈ ridsOf addr (stack addr), ((heap rid).getD []).length := by
        refine Finset.card_nsmul_le_sum _ _ _ fun addr member => ?_
        rw [rids_bytes holds (inFile addr member) (block addr (inFile addr member))]
        exact enough addr (inFile addr member)
    _ = ∑ rid ∈ blocks.biUnion fun addr => ridsOf addr (stack addr), ((heap rid).getD []).length :=
        (Finset.sum_biUnion apart).symm
    _ ≤ bound := light _

def Sized (least most : Nat) : TableCall → Prop
  | .insert src => least ≤ src.length ∧ src.length ≤ most
  | .read _ | .delete _ => True

/-- The runs in which all items have a size in a range, and never more than `bound` bytes are stored. -/
inductive Confined (least most bound : Nat) : Table → Heap → Prop
  | opened {dataDisk : Disk Block} {fsmDisk : Disk HashPage} {memory table : Table}
      (dataEmpty : dataDisk.size = 0) (fsmEmpty : fsmDisk.size = 0)
      (ran : tableInit dataDisk fsmDisk memory = some ((), table)) : Confined least most bound table fun _ => none
  | called {table after : Table} {heap : Heap} {call : TableCall} {answer : TableAnswer}
      (before : Confined least most bound table heap) (allowed : call.Allowed heap) (sized : Sized least most call)
      (light : Light bound (call.advance heap answer)) (ran : call.run table = some (answer, after)) :
      Confined least most bound after (call.advance heap answer)

/-- What holds of every run besides the invariant of a table. -/
structure Dense (least most bound : Nat) (heap : Heap) (store : PageStore Block) : Prop where
  long : ∀ rid item, heap rid = some item → least ≤ item.length
  slots : ∀ addr ∈ pagesBelow store.length, (store.page addr).nItems ≤ slotsFor least
  short : store.length ≤ ((bound / fillOf least most + 1 : Nat) : Int) * pageSize

theorem reslotted_few {after : PageStore Block} (reslotted : Reslotted store after)
    (holds : HoldsHeap heap (after, entries)) (long : ∀ rid item, heap rid = some item → least ≤ item.length)
    (few : ∀ addr ∈ pagesBelow store.length, (store.page addr).nItems ≤ slotsFor least) :
    ∀ addr ∈ pagesBelow after.length, (after.page addr).nItems ≤ slotsFor least := by
  intro addr inFile
  obtain ⟨stack, slots, block, full | ⟨inBefore, fewer⟩⟩ := reslotted addr inFile
  · rw [block.nItems]
    refine Int.ofNat_le.mpr (slots_few block full fun entry member => long ⟨addr, entry.1⟩ entry.2 ?_)
    rw [holds.live, if_pos inFile]
    exact (item_at_holds block).mpr ⟨entry.1, rfl, member⟩
  · rw [block.nItems]
    exact fewer.trans (few addr inBefore)

theorem dense_insert {after : PageStore Block} {entries' : Multiset (Nat × Int)} {rid : RID} {src : List Cell}
    (positive : 0 < fillOf least most) (holds : HoldsHeap heap (store, entries))
    (dense : Dense least most bound heap store) (light : Light bound heap)
    (sized : least ≤ src.length ∧ src.length ≤ most) (placed : Placed store src.length rid.blockAddr after.length)
    (reslotted : Reslotted store after)
    (afterHolds : HoldsHeap (Function.update heap rid (some src)) (after, entries')) :
    Dense least most bound (Function.update heap rid (some src)) after := by
  have long : ∀ other item, Function.update heap rid (some src) other = some item → least ≤ item.length := by
    intro other item live
    rw [Function.update_apply] at live
    split_ifs at live
    · cases live
      exact sized.1
    · exact dense.long other item live
  refine ⟨long, reslotted_few reslotted afterHolds long dense.slots, ?_⟩
  rcases placed with ⟨_, _, _, same⟩ | ⟨noRoom, _, longer⟩
  · rw [same]
    exact dense.short
  · have filled := filled_light holds light fun addr inFile => by
      obtain ⟨stack, slots, block⟩ := holds.blocks addr inFile
      have few := dense.slots addr inFile
      rw [block.nItems] at few
      exact ⟨stack, slots, block, block_filled block (Int.ofNat_le.mp few) sized.2 (noRoom addr inFile)⟩
    rw [← Nat.le_div_iff_mul_le positive, card_pages_below] at filled
    have aligned : store.length % pageSize = 0 := holds.aligned
    have nonneg : 0 ≤ store.length := holds.nonneg
    rw [longer]
    simp only [pageSize] at *
    omega

theorem dense_delete {after : PageStore Block} {entries' : Multiset (Nat × Int)} {rid : RID}
    (dense : Dense least most bound heap store) (length : after.length = store.length)
    (reslotted : Reslotted store after) (afterHolds : HoldsHeap (Function.update heap rid none) (after, entries')) :
    Dense least most bound (Function.update heap rid none) after := by
  have long : ∀ other item, Function.update heap rid none other = some item → least ≤ item.length := by
    intro other item live
    rw [Function.update_apply] at live
    split_ifs at live
    exact dense.long other item live
  exact ⟨long, reslotted_few reslotted afterHolds long dense.slots, length ▸ dense.short⟩

theorem ensures_dense {call : TableCall} (positive : 0 < fillOf least most) (holds : HoldsHeap heap (store, entries))
    (within : PinnedWithin store []) (dense : Dense least most bound heap store) (light : Light bound heap)
    (allowed : call.Allowed heap) (sized : Sized least most call) :
    Ensures (Both StoresPool FsmHolds) (store, entries) call.run fun answer after =>
      (HoldsHeap (call.advance heap answer) after ∧ PinnedWithin after.1 []) ∧
        Dense least most bound (call.advance heap answer) after.1 := by
  cases call with
  | insert src =>
      apply ensures_bind
      apply ensures_insert_reslotted holds within allowed.1 allowed.2
      intro rid after placed reslotted _ afterHolds afterWithin
      exact ensures_pure _ ⟨⟨afterHolds, afterWithin⟩,
        dense_insert positive holds dense light sized placed reslotted afterHolds⟩
  | read rid =>
      obtain ⟨item, live⟩ := Option.isSome_iff_exists.mp allowed
      apply ensures_bind
      apply ensures_read_kept holds within live
      intro after page length afterHolds afterWithin
      refine ensures_pure _ ⟨⟨afterHolds, afterWithin⟩, dense.long, ?_, length ▸ dense.short⟩
      rw [page, length]
      exact dense.slots
  | delete rid =>
      obtain ⟨item, live⟩ := Option.isSome_iff_exists.mp allowed
      apply ensures_bind
      apply ensures_delete_reslotted holds within live
      intro after length reslotted afterHolds afterWithin
      exact ensures_pure _ ⟨⟨afterHolds, afterWithin⟩, dense_delete dense length reslotted afterHolds⟩

theorem opened_length {dataDisk : Disk Block} {fsmDisk : Disk HashPage} {memory table : Table}
    (dataEmpty : dataDisk.size = 0) (ran : tableInit dataDisk fsmDisk memory = some ((), table)) :
    table.1.file.length = 0 := by
  obtain ⟨⟨_, fsm⟩, _, same⟩ := Option.map_eq_some_iff.mp ran
  obtain rfl : (initBufferPool dataDisk memory.1, fsm) = table := congrArg Prod.snd same
  simp [initBufferPool, openFile, dataEmpty]

theorem dense_opened (empty : store.length = 0) : Dense least most bound (fun _ => none) store := by
  have none : pagesBelow store.length = 0 := by
    rw [empty, pagesBelow]
    rfl
  refine ⟨?_, ?_, ?_⟩
  · intro rid item live
    cases live
  · intro addr inFile
    rw [none] at inFile
    cases Multiset.notMem_zero _ inFile
  · rw [empty]
    exact Int.mul_nonneg (Int.natCast_nonneg _) (by decide)

theorem confined_dense {table : Table} (positive : 0 < fillOf least most)
    (confined : Confined least most bound table heap) :
    ∃ state, (HoldsHeap heap state ∧ PinnedWithin state.1 []) ∧ Both StoresPool FsmHolds state table ∧
      Dense least most bound heap state.1 ∧ Light bound heap := by
  induction confined with
  | opened dataEmpty fsmEmpty ran =>
      obtain ⟨table, same, state, holds, both⟩ := table_opened _ _ dataEmpty fsmEmpty _
      rw [ran] at same
      cases same
      refine ⟨state, holds, both, dense_opened ?_, fun rids => ?_⟩
      · rw [← both.1.length]
        exact opened_length dataEmpty ran
      · simp
  | called _ allowed sized light ran ih =>
      obtain ⟨⟨store, entries⟩, ⟨holds, within⟩, both, dense, lightBefore⟩ := ih
      obtain ⟨final, bothAfter, holdsAfter, denseAfter⟩ :=
        allows_of_ensures (ensures_dense positive holds within dense lightBefore allowed sized) _ both _ _ ran
      exact ⟨final, holdsAfter, bothAfter, denseAfter, light⟩

/-- Whatever is inserted and deleted, the file is never longer than what was stored at one time asks for. -/
theorem table_file_bounded (least most bound : Nat) (positive : 0 < fillOf least most) : ∀ table heap,
    Confined least most bound table heap →
      table.1.file.length ≤ ((bound / fillOf least most + 1 : Nat) : Int) * pageSize ∧
        table.1.file.fp.size ≤ ((bound / fillOf least most + 1 : Nat) : Int) * pageSize := by
  intro table heap confined
  obtain ⟨state, ⟨holds, _⟩, ⟨stores, _⟩, dense, _⟩ := confined_dense positive confined
  rw [stores.size, holds.size, stores.length]
  exact ⟨dense.short, dense.short⟩

/-- Records have 20 bytes, pieces of a string 12 to 32. -/
example : fillOf 20 20 = 79 ∧ fillOf 12 32 = 59 := by decide

theorem light_none (bound : Nat) : Light bound fun _ => none := by
  intro rids
  simp

theorem light_one (rid : RID) (item : List Cell) :
    Light item.length (Function.update (fun _ => none) rid (some item)) := by
  intro rids
  have outside : ∀ other ∈ rids, other ≠ rid →
      ((Function.update (fun _ => none) rid (some item) other).getD []).length = 0 := by
    intro other _ different
    rw [Function.update_of_ne different]
    rfl
  by_cases member : rid ∈ rids
  · rw [Finset.sum_eq_single_of_mem rid member outside, Function.update_self]
    rfl
  · rw [Finset.sum_eq_zero fun other inRids => outside other inRids fun same => member (same ▸ inRids)]
    exact Nat.zero_le _

def someRecord : List Cell := List.replicate 20 (.char 7)

section OneRecord

variable {table : Table} {rid : RID}

theorem record_comes (confined : Confined 20 20 20 table fun _ => none) : ∃ rid after,
    (TableCall.insert someRecord).run table = some (.inserted rid, after) ∧
      Confined 20 20 20 after (Function.update (fun _ => none) rid (some someRecord)) := by
  obtain ⟨state, holds, both, _⟩ := confined_dense (by decide) confined
  have allowed : (TableCall.insert someRecord).Allowed fun _ => none := ⟨by decide, by decide⟩
  obtain ⟨_, after, ran, ⟨rid, rfl, _⟩, _⟩ := table_call_step ⟨state, holds, both⟩ allowed
  have light : Light 20 ((TableCall.insert someRecord).advance (fun _ => none) (.inserted rid)) :=
    light_one rid someRecord
  exact ⟨rid, after, ran, .called confined allowed ⟨by decide, by decide⟩ light ran⟩

theorem record_goes (confined : Confined 20 20 20 table (Function.update (fun _ => none) rid (some someRecord))) :
    ∃ after, (TableCall.delete rid).run table = some (.deleted, after) ∧
      Confined 20 20 20 after fun _ => none := by
  obtain ⟨state, holds, both, _⟩ := confined_dense (by decide) confined
  have allowed : (TableCall.delete rid).Allowed (Function.update (fun _ => none) rid (some someRecord)) := by
    simp [TableCall.Allowed]
  have gone : Function.update (Function.update (fun _ => none) rid (some someRecord)) rid none = fun _ => none := by
    rw [Function.update_idem, Function.update_eq_self_iff]
  obtain ⟨_, after, ran, rfl, _⟩ := table_call_step ⟨state, holds, both⟩ allowed
  have light : Light 20 ((TableCall.delete rid).advance _ .deleted) := (congrArg (Light 20) gone).mpr (light_none 20)
  have next := Confined.called confined allowed trivial light ran
  exact ⟨after, ran, gone ▸ next⟩

end OneRecord

/-- A record comes, goes, and comes back, and one block is enough. -/
theorem table_file_bounded_come_and_go : ∃ opened one empty last rid again,
    tableInit emptyDataDisk emptySpaceDisk blankTable = some ((), opened) ∧
    (TableCall.insert someRecord).run opened = some (.inserted rid, one) ∧
    (TableCall.delete rid).run one = some (.deleted, empty) ∧
    (TableCall.insert someRecord).run empty = some (.inserted again, last) ∧
    last.1.file.length ≤ pageSize ∧ last.1.file.fp.size ≤ pageSize := by
  obtain ⟨opened, ran, _⟩ := table_opened emptyDataDisk emptySpaceDisk rfl rfl blankTable
  obtain ⟨rid, one, came, confinedOne⟩ := record_comes (.opened rfl rfl ran)
  obtain ⟨empty, went, confinedEmpty⟩ := record_goes confinedOne
  obtain ⟨again, last, cameBack, confined⟩ := record_comes confinedEmpty
  have bounded := table_file_bounded 20 20 20 (by decide) last _ confined
  exact ⟨opened, one, empty, last, rid, again, ran, came, went, cameBack, bounded⟩

end MyJQL.TableFileSize
