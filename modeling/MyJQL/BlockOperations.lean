import MyJQL.BlockInvariant
import Mathlib.Data.List.Nodup
import Mathlib.Data.List.Perm.Subperm

/-!
# Inserting into and deleting from a block
-/

namespace MyJQL.BlockOperations

open MyJQL.Cells
open MyJQL.BlockModel
open MyJQL.BlockInvariant

set_option autoImplicit false

variable {block : Block} {stack : Stack} {slots : Nat}

def withItem (block : Block) (idx : Nat) (item : List Cell) : Block :=
  let named := withItemId block idx (composeItemId 0 (block.tailPtr - item.length) item.length)
  { named with
    tailPtr := named.tailPtr - item.length
    cell := storeAt named.cell (named.tailPtr - item.length) item }

section WithItem

variable {idx : Nat} {item : List Cell}

theorem get_item_id_with_item {other : Nat} (below : itemIdPlace other + itemIdBytes ≤ block.tailPtr - item.length) :
    getItemId (withItem block idx item) other = getItemId (withItemId block idx
      (composeItemId 0 (block.tailPtr - item.length) item.length)) other := by
  apply get_item_id_congr
  intro place lower upper
  apply store_at_outside
  left
  simp only [withItemId]
  omega

theorem with_item_bytes (holds : HoldsStack block stack slots)
    (above : itemIdPlace idx + itemIdBytes ≤ block.tailPtr - item.length) :
    cellsAt (withItem block idx item).cell (block.tailPtr - item.length)
      (item ++ stackBytes stack).length = item ++ stackBytes stack := by
  apply cells_at_append.mpr
  constructor
  · exact cells_at_store
  · have behind : block.tailPtr - item.length + (item.length : Int) = block.tailPtr := by omega
    have fromItem : cellsAt (withItem block idx item).cell block.tailPtr (stackBytes stack).length =
        cellsAt (withItemId block idx (composeItemId 0 (block.tailPtr - item.length) item.length)).cell
          block.tailPtr (stackBytes stack).length := by
      apply cells_at_store_apart
      right
      simp only [withItemId]
      omega
    rw [behind, fromItem, withItemId, cells_at_store_apart, holds.content]
    right
    simp only [encode_length]
    omega

end WithItem

theorem with_item_holds (holds : HoldsStack block stack slots) {idx : Nat} {item : List Cell}
    (absent : idx ∉ stack.map Prod.fst) {newSlots : Nat} (inSlots : idx < newSlots)
    (grows : slots ≤ newSlots) (covered : ∀ other, other < newSlots → other ≠ idx → other < slots)
    (room : dataOffset + itemIdBytes * (newSlots : Int) ≤ block.tailPtr - item.length)
    {changed : Block} (cells : changed.cell = (withItem block idx item).cell)
    (tail : changed.tailPtr = block.tailPtr - item.length) (count : changed.nItems = newSlots)
    (head : changed.headPtr = dataOffset + itemIdBytes * newSlots) :
    HoldsStack changed ((idx, item) :: stack) newSlots := by
  have fit := slots_fit holds
  have tailPtr := holds.tailPtr
  have below : ∀ other : Nat, other < newSlots →
      itemIdPlace other + itemIdBytes ≤ block.tailPtr - item.length := by
    intro other inside
    simp only [itemIdPlace, dataOffset, itemIdBytes] at *
    omega
  have inData := slot_in_data inSlots (room.trans (by omega))
  have sameIds : ∀ other : Nat, getItemId changed other = getItemId (withItem block idx item) other :=
    fun other => get_item_id_congr fun place _ _ => by rw [cells]
  have otherIds : ∀ other : Nat, other < newSlots → other ≠ idx →
      getItemId changed other = getItemId block other := by
    intro other inside different
    rw [sameIds, get_item_id_with_item (below other inside)]
    exact get_item_id_other (by exact_mod_cast different)
  refine ⟨count, head, ?_, ?_, ?_, ?_, ?_, ?_, ?_⟩
  · rw [head, tail]
    exact room
  · rw [tail, stack_bytes_cons, List.length_append]
    push_cast
    omega
  · rw [List.map_cons, List.nodup_cons]
    exact ⟨absent, holds.nodup⟩
  · intro entry member
    rcases List.mem_cons.mp member with rfl | old
    · exact inSlots
    · exact (holds.inSlots entry old).trans_le grows
  · rw [cells, tail, stack_bytes_cons]
    exact with_item_bytes holds (below idx inSlots)
  · intro front other otherItem back split
    rw [tail]
    cases front with
    | nil =>
        rw [List.nil_append, List.cons.injEq, Prod.mk.injEq] at split
        obtain ⟨⟨rfl, rfl⟩, _⟩ := split
        rw [sameIds, get_item_id_with_item (below _ inSlots), get_item_id_self inData]
        simp [stackBytes]
    | cons entry front =>
        rw [List.cons_append, List.cons.injEq] at split
        obtain ⟨rfl, split⟩ := split
        have member : other ∈ stack.map Prod.fst := by
          rw [split]
          simp
        have different : other ≠ idx := fun same => absent (same ▸ member)
        obtain ⟨_, inStack, rfl⟩ := List.mem_map.mp member
        rw [otherIds _ ((holds.inSlots _ inStack).trans_le grows) different,
          holds.used front _ otherItem back split, stack_bytes_cons, List.length_append]
        congr 2
        push_cast
        omega
  · intro other inside notNamed
    rw [List.map_cons, List.mem_cons, not_or] at notNamed
    rw [otherIds other inside notNamed.1]
    exact holds.free other (covered other inside notNamed.1) notNamed.2

theorem named_length (holds : HoldsStack block stack slots) (named : ∀ idx, idx < slots → idx ∈ stack.map Prod.fst) :
    stack.length = slots := by
  have fewer : stack.map Prod.fst ⊆ List.range slots := by
    intro idx member
    obtain ⟨entry, listed, rfl⟩ := List.mem_map.mp member
    exact List.mem_range.mpr (holds.inSlots entry listed)
  have more : List.range slots ⊆ stack.map Prod.fst := fun idx member => named idx (List.mem_range.mp member)
  have least := (List.subperm_of_subset holds.nodup fewer).length_le
  have most := (List.subperm_of_subset List.nodup_range more).length_le
  rw [List.length_map, List.length_range] at least most
  exact le_antisymm least most

/-- What `new_item` does: the item is pushed onto the stack under a slot that was not in use. There is a new slot
only if all are in use. -/
theorem new_item_grows (holds : HoldsStack block stack slots) (item : List Cell)
    (room : (item.length : Int) ≤ block.tailPtr - block.headPtr -
      if firstAvailable block = some none then itemIdBytes else 0) :
    ∃ (idx : Nat) (changed : Block) (newSlots : Nat), newItem block item = some ((idx : Int), changed) ∧
      idx ∉ stack.map Prod.fst ∧ HoldsStack changed ((idx, item) :: stack) newSlots ∧
      (newSlots ≤ slots ∨ newSlots = stack.length + 1) := by
  have fit := slots_fit holds
  have headPtr := holds.headPtr
  rcases first_available_holds holds with ⟨idx, found, inSlots, absent⟩ | ⟨none, named⟩
  · rw [if_neg (by simp [found])] at room
    have inData := block_slot_in_data holds inSlots
    have itemData : InData (block.tailPtr - item.length) item.length := by
      simp only [InData, dataOffset, itemIdBytes, blockSize] at *
      omega
    refine ⟨idx, withItem block idx item, slots, ?_, absent, ?_, .inl le_rfl⟩
    · simp only [newItem, found, Option.bind_eq_bind, Option.bind_some, set_item_id_eq inData]
      rw [copy_item_eq itemData]
      rfl
    · refine with_item_holds holds absent inSlots le_rfl (fun _ inside _ => inside) ?_ rfl rfl
        holds.nItems headPtr
      simp only [dataOffset, itemIdBytes] at *
      omega
  · rw [if_pos none] at room
    have fits : dataOffset + itemIdBytes * ((slots + 1 : Nat) : Int) ≤ block.tailPtr - item.length := by
      push_cast
      simp only [dataOffset, itemIdBytes] at *
      omega
    have inData := slot_in_data (Nat.lt_succ_self slots) (fits.trans (by omega))
    have itemData : InData (block.tailPtr - item.length) item.length := by
      simp only [InData, dataOffset, itemIdBytes, blockSize] at *
      omega
    have absent : slots ∉ stack.map Prod.fst := by
      intro member
      obtain ⟨entry, inStack, same⟩ := List.mem_map.mp member
      have := holds.inSlots entry inStack
      omega
    refine ⟨slots, { withItem block slots item with
      nItems := block.nItems + 1, headPtr := block.headPtr + itemIdBytes }, slots + 1, ?_, absent, ?_,
      .inr (by rw [named_length holds named])⟩
    · simp only [newItem, none, Option.bind_eq_bind, Option.bind_some, holds.nItems,
        set_item_id_eq inData]
      rw [copy_item_eq itemData]
      simp [withItem, holds.nItems]
    · refine with_item_holds holds absent (Nat.lt_succ_self slots) (Nat.le_succ slots) ?_ fits rfl rfl
        ?_ ?_
      · intro other inside different
        omega
      · simp [holds.nItems]
      · push_cast
        simp only [dataOffset, itemIdBytes] at *
        omega

theorem new_item_holds (holds : HoldsStack block stack slots) (item : List Cell)
    (room : (item.length : Int) ≤ block.tailPtr - block.headPtr -
      if firstAvailable block = some none then itemIdBytes else 0) :
    ∃ (idx : Nat) (changed : Block) (newSlots : Nat), newItem block item = some ((idx : Int), changed) ∧
      idx ∉ stack.map Prod.fst ∧ HoldsStack changed ((idx, item) :: stack) newSlots := by
  obtain ⟨idx, changed, newSlots, ran, absent, pushed, _⟩ := new_item_grows holds item room
  exact ⟨idx, changed, newSlots, ran, absent, pushed⟩

/-- An item id after the loop over the offsets has passed it. -/
def raisedId (deleted id : ItemId) : ItemId :=
  if itemIdAvailability id = 0 ∧ itemIdOffset id ≤ itemIdOffset deleted then
    composeItemId 0 (itemIdOffset id + itemIdSize deleted) (itemIdSize id)
  else id

/-- Two blocks that differ in nothing but the item ids of the first slots. -/
structure SameButIds (block changed : Block) (slots : Nat) : Prop where
  nItems : changed.nItems = block.nItems
  headPtr : changed.headPtr = block.headPtr
  tailPtr : changed.tailPtr = block.tailPtr
  cell : ∀ place, itemIdPlace slots ≤ place → changed.cell place = block.cell place

theorem raise_offsets_spec {skip : Nat} {deleted : ItemId} {count first : Nat} {ids : Nat → ItemId}
    (bound : first + count ≤ slots)
    (inData : ∀ idx : Nat, idx < slots → InData (itemIdPlace idx) itemIdBytes)
    (reads : ∀ idx : Nat, idx < slots → getItemId block idx = some (ids idx)) :
    ∃ changed, raiseOffsets skip deleted count first block = some changed ∧
      SameButIds block changed slots ∧ ∀ idx : Nat, idx < slots → getItemId changed idx =
        some (if first ≤ idx ∧ idx < first + count ∧ idx ≠ skip then raisedId deleted (ids idx)
          else ids idx) := by
  induction count generalizing first block ids with
  | zero =>
      refine ⟨block, rfl, ⟨rfl, rfl, rfl, fun _ _ => rfl⟩, fun idx inside => ?_⟩
      rw [reads idx inside, if_neg (by omega)]
  | succ count ih =>
      have next : ((first : Int) + 1) = ((first + 1 : Nat) : Int) := by push_cast; rfl
      have here : first < slots := by omega
      -- what the rest of the loop does once this slot has its new id
      have continues : ∀ stepped : Block, SameButIds block stepped slots →
          (∀ idx : Nat, idx < slots → getItemId stepped idx =
            some (if idx = first ∧ idx ≠ skip then raisedId deleted (ids idx) else ids idx)) →
          ∃ changed, raiseOffsets skip deleted count (first + 1 : Nat) stepped = some changed ∧
            SameButIds block changed slots ∧ ∀ idx : Nat, idx < slots → getItemId changed idx =
              some (if first ≤ idx ∧ idx < first + (count + 1) ∧ idx ≠ skip then
                raisedId deleted (ids idx) else ids idx) := by
        intro stepped same steppedReads
        obtain ⟨changed, ran, rest, changedReads⟩ := ih (show first + 1 + count ≤ slots by omega) steppedReads
        refine ⟨changed, ran, ⟨rest.nItems.trans same.nItems, rest.headPtr.trans same.headPtr,
          rest.tailPtr.trans same.tailPtr,
          fun place above => (rest.cell place above).trans (same.cell place above)⟩, ?_⟩
        intro idx inside
        rw [changedReads idx inside]
        by_cases isFirst : idx = first
        · rw [if_neg (by omega)]
          split_ifs <;> first | rfl | omega
        · rw [if_neg (show ¬(idx = first ∧ idx ≠ skip) by omega)]
          split_ifs <;> first | rfl | omega
      rw [raiseOffsets, reads first here, next]
      simp only [Option.bind_eq_bind, Option.bind_some]
      by_cases isSkip : first = skip
      · rw [if_neg (by simp [isSkip])]
        refine continues block ⟨rfl, rfl, rfl, fun _ _ => rfl⟩ fun idx inside => ?_
        rw [reads idx inside, if_neg (by omega)]
      · rw [if_pos (by exact_mod_cast isSkip)]
        by_cases lower : itemIdAvailability (ids first) = 0 ∧
            itemIdOffset (ids first) ≤ itemIdOffset deleted
        · rw [if_pos lower, set_item_id_eq (inData first here), Option.bind_some]
          refine continues _ ⟨rfl, rfl, rfl, fun place above => ?_⟩ fun idx inside => ?_
          · apply store_at_outside
            simp only [encode_length, itemIdPlace, dataOffset, itemIdBytes] at *
            omega
          · by_cases isFirst : idx = first
            · subst isFirst
              rw [get_item_id_self (inData idx inside), if_pos ⟨rfl, isSkip⟩, raisedId, if_pos lower]
            · rw [get_item_id_other (by exact_mod_cast isFirst), reads idx inside, if_neg (by omega)]
        · rw [if_neg lower]
          refine continues block ⟨rfl, rfl, rfl, fun _ _ => rfl⟩ fun idx inside => ?_
          rw [reads idx inside]
          split_ifs with isFirst
          · rw [isFirst.1, raisedId, if_neg lower]
          · rfl

theorem raise_bytes_spec {size count : Nat} {ptrn : Int}
    (lower : dataOffset ≤ ptrn - count + 1) (upper : ptrn + size < blockSize) :
    ∃ memory, raiseBytes size count ptrn block = some { block with cell := memory } ∧
      ∀ place, memory place = if ptrn - count + size < place ∧ place ≤ ptrn + size then
        block.cell (place - size) else block.cell place := by
  induction count generalizing ptrn block with
  | zero =>
      refine ⟨block.cell, rfl, fun place => ?_⟩
      rw [if_neg (by omega)]
  | succ count ih =>
      have inData : InData ptrn 1 ∧ InData (ptrn + size) 1 := by
        simp only [InData, dataOffset, blockSize] at *
        push_cast at *
        omega
      rw [raiseBytes, if_pos inData]
      obtain ⟨memory, ran, moved⟩ := @ih
        { block with cell := Function.update block.cell (ptrn + size) (block.cell ptrn) } (ptrn - 1)
        (by push_cast at *; omega) (by omega)
      refine ⟨memory, ran, fun place => ?_⟩
      rw [moved place]
      push_cast
      by_cases top : place = ptrn + size
      · rw [if_neg (by omega), if_pos (by omega), top]
        simp
      · have old : ∀ other, other ≠ ptrn + size →
            Function.update block.cell (ptrn + size) (block.cell ptrn) other = block.cell other :=
          fun other different => Function.update_of_ne different _ _
        split_ifs with inner outer outer
        · exact old _ (by omega)
        · omega
        · omega
        · exact old _ top

section Delete

variable {front back : Stack} {idx : Nat} {item : List Cell}

theorem remaining_split {before behind : Stack} {other : Nat} {otherItem : List Cell}
    (split : front ++ back = before ++ (other, otherItem) :: behind) :
    (∃ between, front = before ++ (other, otherItem) :: between) ∨
    ∃ between, before = front ++ between ∧ back = between ++ (other, otherItem) :: behind := by
  rcases List.append_eq_append_iff.mp split with ⟨between, rfl, rfl⟩ | ⟨between, rfl, rest⟩
  · exact .inr ⟨between, rfl, rfl⟩
  · cases between with
    | nil => exact .inr ⟨[], by simp, by simpa using rest.symm⟩
    | cons entry between =>
        rw [List.cons_append, List.cons.injEq] at rest
        obtain ⟨rfl, rfl⟩ := rest
        exact .inl ⟨between, rfl⟩

theorem raised_id_used (holds : HoldsStack block (front ++ (idx, item) :: back) slots) {deleted : ItemId}
    (deletedOffset : (itemIdOffset deleted : Int) = block.tailPtr + (stackBytes front).length)
    (deletedSize : itemIdSize deleted = item.length)
    {before behind : Stack} {other : Nat} {otherItem : List Cell}
    (split : front ++ back = before ++ (other, otherItem) :: behind) :
    ∃ itemId, getItemId block other = some itemId ∧ raisedId deleted itemId =
      composeItemId 0 (block.tailPtr + item.length + (stackBytes before).length) otherItem.length := by
  rcases remaining_split split with ⟨between, rfl⟩ | ⟨between, rfl, rfl⟩
  · obtain ⟨itemId, found, available, offset, size⟩ := used_fields holds
      (show (before ++ (other, otherItem) :: between) ++ (idx, item) :: back =
        before ++ (other, otherItem) :: (between ++ (idx, item) :: back) by simp)
    refine ⟨itemId, found, ?_⟩
    have lower : itemIdOffset itemId ≤ itemIdOffset deleted := by
      simp only [stack_bytes_append, stack_bytes_cons, List.length_append] at deletedOffset
      push_cast at deletedOffset
      omega
    rw [raisedId, if_pos ⟨available, lower⟩, deletedSize, size, offset]
    congr 1
    omega
  · obtain ⟨itemId, found, available, offset, size⟩ := used_fields holds
      (show front ++ (idx, item) :: (between ++ (other, otherItem) :: behind) =
        (front ++ (idx, item) :: between) ++ (other, otherItem) :: behind by simp)
    simp only [stack_bytes_append, stack_bytes_cons, List.length_append] at offset ⊢
    push_cast at offset ⊢
    refine ⟨itemId, found, ?_⟩
    have written := holds.used (front ++ (idx, item) :: between) other otherItem behind (by simp)
    rw [found, Option.some.injEq] at written
    rw [raisedId]
    split_ifs with lower
    · have empty : item.length = 0 := by omega
      rw [deletedSize, size, offset, empty]
      congr 1
      push_cast
      omega
    · rw [written]
      congr 1
      simp only [stack_bytes_append, stack_bytes_cons, List.length_append]
      push_cast
      omega

/-- The block that the loops of `delete_item` leave, in terms of the block before. -/
structure Lowered (block changed : Block) (front back : Stack) (idx : Nat) (item : List Cell)
    (slots : Nat) : Prop where
  nItems : changed.nItems = block.nItems
  headPtr : changed.headPtr = block.headPtr
  tailPtr : changed.tailPtr = block.tailPtr
  content : cellsAt changed.cell (block.tailPtr + item.length) (stackBytes (front ++ back)).length =
    stackBytes (front ++ back)
  used : ∀ (before : Stack) (other : Nat) (otherItem : List Cell) (behind : Stack),
    front ++ back = before ++ (other, otherItem) :: behind → other ≠ idx → getItemId changed other =
      some (composeItemId 0 (block.tailPtr + item.length + (stackBytes before).length) otherItem.length)
  free : ∀ other : Nat, other < slots → other ∉ (front ++ back).map Prod.fst → other ≠ idx →
    getItemId changed other = some (composeItemId 1 0 0)

theorem lowered_holds (holds : HoldsStack block (front ++ (idx, item) :: back) slots) {lowered : Block}
    (shape : Lowered block lowered front back idx item slots) {newSlots : Nat}
    (covered : ∀ other, other < slots → other ≠ idx → other < newSlots) (shrinks : newSlots ≤ slots)
    {changed : Block}
    (cells : changed.cell = (withItemId lowered idx (composeItemId 1 0 0)).cell)
    (tail : changed.tailPtr = block.tailPtr + item.length) (count : changed.nItems = newSlots)
    (head : changed.headPtr = dataOffset + itemIdBytes * newSlots) :
    HoldsStack changed (front ++ back) newSlots := by
  have fit := slots_fit holds
  have tailPtr := holds.tailPtr
  have nodup := holds.nodup
  rw [List.map_append, List.map_cons, List.nodup_middle, List.nodup_cons, ← List.map_append] at nodup
  have inSlots : ∀ entry ∈ front ++ back, entry.1 < slots ∧ entry.1 ≠ idx := by
    intro entry member
    have member' : entry.1 ∈ (front ++ back).map Prod.fst := List.mem_map_of_mem member
    refine ⟨holds.inSlots entry ?_, fun same => nodup.1 (same ▸ member')⟩
    rcases List.mem_append.mp member with before | behind
    · simp [before]
    · simp [behind]
  have idxInSlots : idx < slots := holds.inSlots (idx, item) (by simp)
  have inData := block_slot_in_data holds idxInSlots
  have ids : ∀ other : Nat, other ≠ idx → getItemId changed other = getItemId lowered other := by
    intro other different
    have sameCells : getItemId changed other =
        getItemId (withItemId lowered idx (composeItemId 1 0 0)) other :=
      get_item_id_congr fun place _ _ => by rw [cells]
    rw [sameCells, get_item_id_other (by exact_mod_cast different)]
  simp only [stack_bytes_append, stack_bytes_cons, List.length_append] at tailPtr
  refine ⟨count, head, ?_, ?_, nodup.2, ?_, ?_, ?_, ?_⟩
  · rw [head, tail]
    simp only [dataOffset, itemIdBytes] at *
    omega
  · rw [tail, stack_bytes_append, List.length_append]
    push_cast at *
    omega
  · intro entry member
    exact covered entry.1 (inSlots entry member).1 (inSlots entry member).2
  · rw [tail, cells, ← shape.content, cells_at_length]
    apply cells_at_store_apart
    right
    simp only [encode_length, itemIdPlace, dataOffset, itemIdBytes] at *
    omega
  · intro before other otherItem behind split
    have member : (other, otherItem) ∈ front ++ back := by simp [split]
    have different := (inSlots _ member).2
    rw [ids other different, shape.used before other otherItem behind split different, tail]
  · intro other inside absent
    by_cases isDeleted : other = idx
    · have sameCells : getItemId changed other =
          getItemId (withItemId lowered idx (composeItemId 1 0 0)) other :=
        get_item_id_congr fun place _ _ => by rw [cells]
      rw [sameCells, isDeleted, get_item_id_self inData]
    · rw [ids other isDeleted]
      exact shape.free other (inside.trans_le shrinks) absent isDeleted

/-- The block once the two loops are through: the offsets of the item ids below the item are raised, and so are
the bytes. -/
theorem lowered_of_raised {raised : Block} {memory : Int → Cell} {deleted : ItemId}
    (holds : HoldsStack block (front ++ (idx, item) :: back) slots) (same : SameButIds block raised slots)
    (deletedOffset : (itemIdOffset deleted : Int) = block.tailPtr + (stackBytes front).length)
    (deletedSize : itemIdSize deleted = item.length)
    (ids : ∀ slot : Nat, slot < slots → slot ≠ idx → ∀ itemId, getItemId block slot = some itemId →
      getItemId raised slot = some (raisedId deleted itemId))
    (moved : ∀ place, memory place =
      if itemIdOffset deleted - 1 - (stackBytes front).length + item.length < place ∧
        place ≤ itemIdOffset deleted - 1 + item.length then raised.cell (place - item.length) else raised.cell place) :
    Lowered block { raised with cell := memory } front back idx item slots := by
  have fit := slots_fit holds
  have tailPtr := holds.tailPtr
  simp only [stack_bytes_append, stack_bytes_cons, List.length_append] at tailPtr
  push_cast at tailPtr
  have above : itemIdPlace slots ≤ block.tailPtr := by
    simp only [itemIdPlace, dataOffset, itemIdBytes] at *
    omega
  have whole := holds.content
  simp only [stack_bytes_append, stack_bytes_cons] at whole
  obtain ⟨frontBytes, restBytes⟩ := cells_at_append.mp whole
  obtain ⟨_, backBytes⟩ := cells_at_append.mp restBytes
  have cell : ∀ place, ({ raised with cell := memory } : Block).cell place = memory place := fun _ => rfl
  have kept : ∀ slot : Nat, slot < slots →
      getItemId { raised with cell := memory } slot = getItemId raised slot := by
    intro slot inside
    apply get_item_id_congr
    intro place lower upper
    rw [cell, moved place, if_neg]
    simp only [itemIdPlace, dataOffset, itemIdBytes] at *
    omega
  refine ⟨same.nItems, same.headPtr, same.tailPtr, ?_, ?_, ?_⟩
  · rw [stack_bytes_append]
    apply cells_at_append.mpr
    constructor
    · apply cells_at_eq_iff.mpr
      intro index inside
      have old := cells_at_eq_iff.mp frontBytes index inside
      rw [← old, cell, moved, if_pos (by omega), same.cell _ (by omega)]
      congr 1
      omega
    · have place : block.tailPtr + item.length + ((stackBytes front).length : Int) =
          block.tailPtr + (stackBytes front).length + item.length := by omega
      rw [place]
      refine (cells_at_congr ?_).trans backBytes
      intro other lower upper
      rw [cell, moved, if_neg (by omega), same.cell _ (by omega)]
  · intro before other otherItem behind split different
    have member : (other, otherItem) ∈ front ++ back := by simp [split]
    have inside : other < slots := by
      apply holds.inSlots (other, otherItem)
      rcases List.mem_append.mp member with first | last
      · simp [first]
      · simp [last]
    obtain ⟨itemId, read, after⟩ := raised_id_used holds deletedOffset deletedSize split
    rw [kept other inside, ids other inside different itemId read, after]
  · intro other inside absent different
    have free : other ∉ (front ++ (idx, item) :: back).map Prod.fst := by
      simp only [List.map_append, List.map_cons, List.mem_append, List.mem_cons] at absent ⊢
      tauto
    have written := holds.free other inside free
    obtain ⟨itemId, read, isFree⟩ := free_fields holds inside free
    rw [written, Option.some.injEq] at read
    rw [kept other inside, ids other inside different _ written, raisedId, if_neg (by rw [read, isFree]; simp)]

/-- What `delete_item` does: an entry leaves the middle of the stack. -/
theorem delete_item_shrinks (holds : HoldsStack block (front ++ (idx, item) :: back) slots) :
    ∃ changed newSlots, deleteItem block idx = some changed ∧
      HoldsStack changed (front ++ back) newSlots ∧ newSlots ≤ slots := by
  have fit := slots_fit holds
  have tailPtr := holds.tailPtr
  have headPtr := holds.headPtr
  have idxInSlots : idx < slots := holds.inSlots (idx, item) (by simp)
  have inData : ∀ slot : Nat, slot < slots → InData (itemIdPlace slot) itemIdBytes :=
    fun slot inside => block_slot_in_data holds inside
  obtain ⟨deleted, found, available, deletedOffset, deletedSize⟩ := used_fields holds rfl
  simp only [stack_bytes_append, stack_bytes_cons, List.length_append] at tailPtr
  push_cast at tailPtr
  -- the item ids
  obtain ⟨raised, raisedRan, same, raisedReads⟩ :=
    @raise_offsets_spec block slots idx deleted slots 0 (fun slot => (getItemId block slot).getD 0)
      (by omega) inData (by
        intro slot inside
        obtain ⟨itemId, read, _⟩ := slot_readable holds inside
        rw [read, Option.getD_some])
  have ids : ∀ slot : Nat, slot < slots → slot ≠ idx → ∀ itemId, getItemId block slot = some itemId →
      getItemId raised slot = some (raisedId deleted itemId) := by
    intro slot inside different itemId read
    rw [raisedReads slot inside, if_pos ⟨Nat.zero_le _, by omega, different⟩, read, Option.getD_some]
  -- the bytes
  have count : (itemIdOffset deleted - raised.tailPtr).toNat = (stackBytes front).length := by
    rw [same.tailPtr]
    omega
  obtain ⟨memory, movedRan, moved⟩ :=
    @raise_bytes_spec raised item.length (stackBytes front).length (itemIdOffset deleted - 1)
      (by simp only [dataOffset, itemIdBytes, blockSize] at *; omega)
      (by simp only [dataOffset, itemIdBytes, blockSize] at *; omega)
  have shape : Lowered block { raised with cell := memory } front back idx item slots :=
    lowered_of_raised holds same deletedOffset deletedSize ids moved
  have ran : deleteItem block idx = (if (idx : Int) = block.nItems - 1 then
      some { withItemId { raised with cell := memory } idx (composeItemId 1 0 0) with
        tailPtr := block.tailPtr + item.length
        nItems := block.nItems - 1, headPtr := block.headPtr - itemIdBytes }
      else some { withItemId { raised with cell := memory } idx (composeItemId 1 0 0) with
        tailPtr := block.tailPtr + item.length }) := by
    have isUsed : ¬itemIdAvailability deleted = 1 := by omega
    rw [deleteItem, if_neg (by have := holds.nItems; omega), found]
    simp only [Option.bind_eq_bind, Option.bind_some]
    rw [if_neg isUsed, holds.nItems, Int.toNat_natCast, show (0 : Int) = ((0 : Nat) : Int) from rfl,
      raisedRan, Option.bind_some, count, deletedSize, movedRan, Option.bind_some,
      set_item_id_eq (inData idx idxInSlots), Option.bind_some]
    simp only [with_item_id_n_items, with_item_id_tail_ptr, with_item_id_head_ptr, same.nItems,
      same.tailPtr, same.headPtr, holds.nItems]
  have nItems := holds.nItems
  rw [ran]
  by_cases isLast : (idx : Int) = block.nItems - 1
  · rw [if_pos isLast]
    refine ⟨_, slots - 1, rfl, lowered_holds holds shape ?_ (Nat.sub_le _ _) rfl rfl ?_ ?_, Nat.sub_le _ _⟩
    · intro other inside different
      omega
    · simp only
      omega
    · simp only [dataOffset, itemIdBytes] at *
      omega
  · rw [if_neg isLast]
    exact ⟨_, slots, rfl, lowered_holds holds shape (fun _ inside _ => inside) le_rfl rfl rfl
      (same.nItems.trans nItems) (same.headPtr.trans headPtr), le_rfl⟩

theorem delete_item_holds (holds : HoldsStack block (front ++ (idx, item) :: back) slots) :
    ∃ changed newSlots, deleteItem block idx = some changed ∧
      HoldsStack changed (front ++ back) newSlots := by
  obtain ⟨changed, newSlots, ran, removed, _⟩ := delete_item_shrinks holds
  exact ⟨changed, newSlots, ran, removed⟩

end Delete

end MyJQL.BlockOperations
