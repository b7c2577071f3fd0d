import MyJQL.BlockOperations
import Mathlib.Algebra.BigOperators.Group.Finset.Basic
import Mathlib.Algebra.BigOperators.Group.List.Basic

/-!
# The runs of a block

Every block that insertions and deletions reach is a slotted page: the header fits its slots, the
items lie apart from each other between the tail pointer and the end of the block and fill that space,
and each used slot yields what was put into it.
-/

namespace MyJQL.BlockRefinement

open MyJQL.Cells
open MyJQL.BlockModel
open MyJQL.BlockInvariant
open MyJQL.BlockOperations

set_option autoImplicit false

/-- The reference: the items by their slots. -/
abbrev Items := Int → Option (List Cell)

def slotCost (block : Block) : Nat := if firstAvailable block = some none then itemIdBytes else 0

/-- The blocks that calls of `new_item` with enough room and calls of `delete_item` reach. -/
inductive BlockReachable : Block → Items → Prop
  | opened (block : Block) : BlockReachable (initBlock block) fun _ => none
  | inserted {block after : Block} {items : Items} {item : List Cell} {idx : Int}
      (before : BlockReachable block items)
      (room : (item.length : Int) + slotCost block ≤ block.tailPtr - block.headPtr)
      (ran : newItem block item = some (idx, after)) :
      BlockReachable after (Function.update items idx (some item))
  | deleted {block after : Block} {items : Items} {idx : Int} (before : BlockReachable block items)
      (ran : deleteItem block idx = some after) : BlockReachable after (Function.update items idx none)

def slotSize (block : Block) (idx : Nat) : Nat :=
  match getItemId block idx with
  | some id => if itemIdAvailability id = 1 then 0 else itemIdSize id
  | none => 0

structure SlotHolds (block : Block) (idx : Int) (item : List Cell) (offset : Nat) : Prop where
  inSlots : 0 ≤ idx ∧ idx < block.nItems
  used : ∃ id, getItemId block idx = some id ∧ itemIdAvailability id = 0 ∧ itemIdOffset id = offset ∧
    itemIdSize id = item.length
  found : getItem block idx = some (some (offset : Int))
  inside : block.tailPtr ≤ offset ∧ (offset : Int) + item.length ≤ 128
  bytes : cellsAt block.cell offset item.length = item

structure SlottedPage (block : Block) (items : Items) : Prop where
  header : block.headPtr = 6 + 4 * block.nItems ∧ block.headPtr ≤ block.tailPtr ∧ block.tailPtr ≤ 128
  used : ∀ idx item, items idx = some item → ∃ offset, SlotHolds block idx item offset
  unused : ∀ idx, 0 ≤ idx → idx < block.nItems → items idx = none →
    ∃ id, getItemId block idx = some id ∧ itemIdAvailability id = 1
  apart : ∀ idx other item otherItem offset otherOffset, idx ≠ other →
    SlotHolds block idx item offset → SlotHolds block other otherItem otherOffset →
      offset + item.length ≤ otherOffset ∨ otherOffset + otherItem.length ≤ offset
  filled : block.tailPtr + (∑ idx ∈ Finset.range block.nItems.toNat, slotSize block idx : Nat) = 128

/-- The items of a stack by their slots. -/
def Names (stack : Stack) (items : Items) : Prop :=
  ∀ idx item, items idx = some item ↔ ∃ slot : Nat, (slot : Int) = idx ∧ (slot, item) ∈ stack

section Stacks

variable {block : Block} {stack front back : Stack} {slots slot : Nat} {items : Items} {item : List Cell}

theorem names_unused (names : Names stack items) : items slot = none ↔ slot ∉ stack.map Prod.fst := by
  rw [Option.eq_none_iff_forall_ne_some]
  constructor
  · intro unused member
    obtain ⟨⟨_, item⟩, inStack, rfl⟩ := List.mem_map.mp member
    exact unused item ((names _ item).mpr ⟨_, rfl, inStack⟩)
  · intro absent item bound
    obtain ⟨other, same, inStack⟩ := (names _ item).mp bound
    rw [Int.natCast_inj] at same
    rw [← same] at absent
    exact absent (List.mem_map_of_mem inStack)

theorem names_pushed (names : Names stack items) (absent : slot ∉ stack.map Prod.fst) :
    Names ((slot, item) :: stack) (Function.update items slot (some item)) := by
  intro idx other
  rw [Function.update_apply]
  split_ifs with own
  · rw [own, Option.some.injEq]
    constructor
    · rintro rfl
      exact ⟨slot, rfl, List.mem_cons_self⟩
    · rintro ⟨named, same, member⟩
      rw [Int.natCast_inj] at same
      rcases List.mem_cons.mp member with here | later
      · exact (Prod.mk.inj here).2.symm
      · exact absurd (List.mem_map_of_mem later) (same ▸ absent)
  · rw [names]
    constructor
    · rintro ⟨named, same, member⟩
      exact ⟨named, same, List.mem_cons_of_mem _ member⟩
    · rintro ⟨named, same, member⟩
      rcases List.mem_cons.mp member with here | later
      · exact absurd (same.symm.trans (congrArg _ (Prod.mk.inj here).1)) own
      · exact ⟨named, same, later⟩

theorem names_removed (names : Names (front ++ (slot, item) :: back) items)
    (nodup : ((front ++ (slot, item) :: back).map Prod.fst).Nodup) :
    Names (front ++ back) (Function.update items slot none) := by
  rw [List.map_append, List.map_cons, List.nodup_middle, List.nodup_cons, ← List.map_append] at nodup
  intro idx other
  rw [Function.update_apply]
  split_ifs with own
  · constructor
    · intro impossible
      cases impossible
    · rintro ⟨named, same, member⟩
      rw [own, Int.natCast_inj] at same
      exact absurd (List.mem_map_of_mem member) (same ▸ nodup.1)
  · rw [names]
    constructor
    · rintro ⟨named, same, member⟩
      refine ⟨named, same, ?_⟩
      rw [List.mem_append, List.mem_cons] at member
      rcases member with before | here | behind
      · exact List.mem_append.mpr (.inl before)
      · exact absurd (same.symm.trans (congrArg _ (Prod.mk.inj here).1)) own
      · exact List.mem_append.mpr (.inr behind)
    · rintro ⟨named, same, member⟩
      refine ⟨named, same, ?_⟩
      rw [List.mem_append, List.mem_cons]
      rcases List.mem_append.mp member with before | behind
      · exact .inl before
      · exact .inr (.inr behind)

theorem stack_slot_holds (holds : HoldsStack block (front ++ (slot, item) :: back) slots) :
    ∃ offset : Nat, (offset : Int) = block.tailPtr + (stackBytes front).length ∧
      SlotHolds block slot item offset := by
  have tailPtr := holds.tailPtr
  have nItems := holds.nItems
  have inSlots : slot < slots := holds.inSlots (slot, item) (by simp)
  obtain ⟨id, read, available, offset, size⟩ := used_fields holds rfl
  have content := holds.content
  simp only [stack_bytes_append, stack_bytes_cons] at content tailPtr
  obtain ⟨_, bytes⟩ := cells_at_append.mp (cells_at_append.mp content).2
  have own := (cells_at_append.mp (cells_at_append.mp content).2).1
  rw [← offset] at own
  simp only [List.length_append, blockSize] at tailPtr
  push_cast at tailPtr
  refine ⟨itemIdOffset id, offset, ⟨by omega, by omega⟩, ⟨id, read, available, rfl, size⟩, ?_,
    ⟨by omega, by omega⟩, own⟩
  have unavailable : ¬itemIdAvailability id = 1 := by omega
  rw [getItem, if_neg (by omega), read]
  simp only [Option.bind_eq_bind, Option.bind_some, if_neg unavailable]

theorem slot_in_stack (holds : HoldsStack block stack slots) {idx : Int} {offset : Nat}
    (used : SlotHolds block idx item offset) : ∃ (named : Nat) (own : List Cell) (front back : Stack),
      (named : Int) = idx ∧ stack = front ++ (named, own) :: back ∧ own.length = item.length ∧
        (offset : Int) = block.tailPtr + (stackBytes front).length := by
  obtain ⟨⟨nonneg, inside⟩, ⟨id, read, available, isOffset, isSize⟩, _⟩ := used
  have nItems := holds.nItems
  obtain ⟨named, rfl⟩ := Int.eq_ofNat_of_zero_le nonneg
  obtain ⟨other, same, free⟩ := slot_readable holds (show named < slots by omega)
  rw [read, Option.some.injEq] at same
  rw [← same, available] at free
  have member : named ∈ stack.map Prod.fst := by
    by_contra absent
    exact absurd (free.mpr absent) (by decide)
  obtain ⟨front, own, back, rfl⟩ := stack_split member
  obtain ⟨again, sameRead, _, ownOffset, ownSize⟩ := used_fields holds rfl
  rw [read, Option.some.injEq] at sameRead
  rw [← sameRead] at ownOffset ownSize
  exact ⟨named, own, front, back, rfl, rfl, ownSize.symm.trans isSize, isOffset ▸ ownOffset⟩

theorem slots_apart (holds : HoldsStack block stack slots) {idx other : Int} {otherItem : List Cell}
    {offset otherOffset : Nat} (different : idx ≠ other) (first : SlotHolds block idx item offset)
    (second : SlotHolds block other otherItem otherOffset) :
    offset + item.length ≤ otherOffset ∨ otherOffset + otherItem.length ≤ offset := by
  obtain ⟨named, own, front, back, rfl, split, size, place⟩ := slot_in_stack holds first
  obtain ⟨otherNamed, otherOwn, otherFront, otherBack, rfl, otherSplit, otherSize, otherPlace⟩ :=
    slot_in_stack holds second
  have apart : named ≠ otherNamed := fun same => different (congrArg _ same)
  rw [split, List.append_eq_append_iff] at otherSplit
  rcases otherSplit with ⟨between, rfl, rest⟩ | ⟨between, rfl, rest⟩
  · cases between with
    | nil =>
        rw [List.nil_append, List.cons.injEq, Prod.mk.injEq] at rest
        exact absurd rest.1.1 apart
    | cons entry between =>
        rw [List.cons_append, List.cons.injEq] at rest
        rw [← rest.1] at otherPlace
        simp only [stack_bytes_append, stack_bytes_cons, List.length_append] at otherPlace
        push_cast at otherPlace
        left
        omega
  · cases between with
    | nil =>
        rw [List.nil_append, List.cons.injEq, Prod.mk.injEq] at rest
        exact absurd rest.1.1.symm apart
    | cons entry between =>
        rw [List.cons_append, List.cons.injEq] at rest
        rw [← rest.1] at place
        simp only [stack_bytes_append, stack_bytes_cons, List.length_append] at place
        push_cast at place
        right
        omega

theorem stack_bytes_length (stack : Stack) :
    (stackBytes stack).length = (stack.map fun entry => entry.2.length).sum := by
  induction stack with
  | nil => rfl
  | cons entry rest ih => rw [stack_bytes_cons, List.length_append, ih, List.map_cons, List.sum_cons]

theorem slot_size_used (holds : HoldsStack block stack slots) {entry : Nat × List Cell} (member : entry ∈ stack) :
    slotSize block entry.1 = entry.2.length := by
  obtain ⟨front, back, split⟩ := List.append_of_mem member
  obtain ⟨id, read, available, _, size⟩ := used_fields holds split
  simp only [slotSize, read]
  rw [if_neg (by omega), size]

/-- Unused slots take up nothing, so the sizes of all slots are the sizes of the items. -/
theorem slot_sizes_sum (holds : HoldsStack block stack slots) :
    ∑ idx ∈ Finset.range slots, slotSize block idx = (stackBytes stack).length := by
  have covers : (stack.map Prod.fst).toFinset ⊆ Finset.range slots := by
    intro idx member
    obtain ⟨entry, inStack, rfl⟩ := List.mem_map.mp (List.mem_toFinset.mp member)
    exact Finset.mem_range.mpr (holds.inSlots entry inStack)
  rw [stack_bytes_length, ← Finset.sum_subset covers, List.sum_toFinset _ holds.nodup, List.map_map]
  · congr 1
    apply List.map_congr_left
    intro entry member
    exact slot_size_used holds member
  · intro idx inSlots absent
    rw [List.mem_toFinset] at absent
    obtain ⟨id, read, available⟩ := free_fields holds (Finset.mem_range.mp inSlots) absent
    simp only [slotSize, read, if_pos available]

theorem slotted_page (holds : HoldsStack block stack slots) (names : Names stack items) : SlottedPage block items := by
  have nItems := holds.nItems
  have headPtr := holds.headPtr
  have fit := slots_fit holds
  have tailPtr := holds.tailPtr
  refine ⟨⟨?_, holds.fits, fit.2⟩, ?_, ?_, ?_, ?_⟩
  · rw [headPtr, nItems]
    rfl
  · intro idx item bound
    obtain ⟨slot, rfl, member⟩ := (names idx item).mp bound
    obtain ⟨front, back, rfl⟩ := List.append_of_mem member
    obtain ⟨offset, _, slotHolds⟩ := stack_slot_holds holds
    exact ⟨offset, slotHolds⟩
  · intro idx nonneg inside unused
    obtain ⟨slot, rfl⟩ := Int.eq_ofNat_of_zero_le nonneg
    exact free_fields holds (show slot < slots by omega) ((names_unused names).mp unused)
  · intro idx other item otherItem offset otherOffset different first second
    exact slots_apart holds different first second
  · rw [nItems, Int.toNat_natCast, slot_sizes_sum holds]
    exact tailPtr

end Stacks

def BlockHolds (block : Block) (items : Items) : Prop :=
  ∃ stack slots, HoldsStack block stack slots ∧ Names stack items

section Steps

variable {block : Block} {items : Items}

theorem new_item_step (holds : BlockHolds block items) (item : List Cell)
    (room : (item.length : Int) + slotCost block ≤ block.tailPtr - block.headPtr) :
    ∃ idx after, newItem block item = some (idx, after) ∧ items idx = none ∧
      BlockHolds after (Function.update items idx (some item)) := by
  obtain ⟨stack, slots, stackHolds, names⟩ := holds
  have enough : (item.length : Int) ≤ block.tailPtr - block.headPtr -
      if firstAvailable block = some none then itemIdBytes else 0 := by
    rw [slotCost] at room
    split_ifs at room ⊢ <;> omega
  obtain ⟨idx, after, newSlots, ran, absent, afterHolds⟩ := new_item_holds stackHolds item enough
  exact ⟨idx, after, ran, (names_unused names).mpr absent, _, newSlots, afterHolds, names_pushed names absent⟩

theorem delete_item_unused (holds : BlockHolds block items) {idx : Int} (unused : items idx = none) :
    deleteItem block idx = some block := by
  obtain ⟨stack, slots, stackHolds, names⟩ := holds
  rw [deleteItem]
  split_ifs with outside
  · rfl
  · have nItems := stackHolds.nItems
    obtain ⟨slot, rfl⟩ := Int.eq_ofNat_of_zero_le (show 0 ≤ idx by omega)
    obtain ⟨id, read, available⟩ := free_fields stackHolds (show slot < slots by omega)
      ((names_unused names).mp unused)
    rw [read]
    simp only [Option.bind_eq_bind, Option.bind_some, if_pos available]

theorem delete_item_step (holds : BlockHolds block items) (idx : Int) :
    ∃ after, deleteItem block idx = some after ∧ BlockHolds after (Function.update items idx none) := by
  cases bound : items idx with
  | none =>
      refine ⟨block, delete_item_unused holds bound, ?_⟩
      rw [← bound, Function.update_eq_self]
      exact holds
  | some item =>
      obtain ⟨stack, slots, stackHolds, names⟩ := holds
      obtain ⟨slot, rfl, member⟩ := (names idx item).mp bound
      obtain ⟨front, back, rfl⟩ := List.append_of_mem member
      obtain ⟨after, newSlots, ran, afterHolds⟩ := delete_item_holds stackHolds
      exact ⟨after, ran, _, newSlots, afterHolds, names_removed names stackHolds.nodup⟩

theorem reachable_holds (run : BlockReachable block items) : BlockHolds block items := by
  induction run with
  | opened block => exact ⟨[], 0, init_block_holds block, fun idx item => by simp⟩
  | inserted _ room ran ih =>
      obtain ⟨idx, after, same, _, holds⟩ := new_item_step ih _ room
      rw [ran] at same
      cases same
      exact holds
  | deleted _ ran ih =>
      obtain ⟨after, same, holds⟩ := delete_item_step ih _
      rw [ran] at same
      cases same
      exact holds

end Steps

/-- Every reachable block is a slotted page with the items of its reference. An insertion with enough
room takes a slot that was not in use, and a deletion of an unused slot changes nothing. -/
theorem slotted_pages : ∀ block items, BlockReachable block items → SlottedPage block items ∧
    (∀ item : List Cell, (item.length : Int) + slotCost block ≤ block.tailPtr - block.headPtr →
      ∃ idx after, newItem block item = some (idx, after) ∧ items idx = none) ∧
    (∀ idx, ∃ after, deleteItem block idx = some after) ∧
    ∀ idx, items idx = none → deleteItem block idx = some block := by
  intro block items run
  have holds := reachable_holds run
  refine ⟨?_, ?_, ?_, ?_⟩
  · obtain ⟨stack, slots, stackHolds, names⟩ := holds
    exact slotted_page stackHolds names
  · intro item room
    obtain ⟨idx, after, ran, unused, _⟩ := new_item_step holds item room
    exact ⟨idx, after, ran, unused⟩
  · intro idx
    obtain ⟨after, ran, _⟩ := delete_item_step holds idx
    exact ⟨after, ran⟩
  · intro idx unused
    exact delete_item_unused holds unused

def blankBlock : Block := initBlock ⟨0, 0, 0, fun _ => .char 0⟩

/-- Two items are put into a block, the first one is deleted, and a longer one takes its slot. -/
theorem slotted_pages_deleted : ∃ one two rest last : Block,
    newItem blankBlock [.char 7] = some (0, one) ∧ newItem one [.char 8, .char 8] = some (1, two) ∧
    deleteItem two 0 = some rest ∧ newItem rest [.char 9, .char 9, .char 9] = some (0, last) ∧
    ∃ items, SlottedPage last items ∧ items 0 = some [.char 9, .char 9, .char 9] ∧
      items 1 = some [.char 8, .char 8] := by
  have calls : ((newItem blankBlock [.char 7]).bind fun one =>
      (newItem one.2 [.char 8, .char 8]).bind fun two =>
        (deleteItem two.2 0).bind fun rest =>
          (newItem rest [.char 9, .char 9, .char 9]).map fun last =>
            ([one.1, two.1, last.1, slotCost one.2, one.2.tailPtr - one.2.headPtr, slotCost rest,
              rest.tailPtr - rest.headPtr] : List Int)) = some [0, 1, 0, 4, 117, 0, 112] := by
    decide +kernel
  simp only [Option.bind_eq_some_iff, Option.map_eq_some_iff, List.cons.injEq] at calls
  obtain ⟨⟨_, one⟩, first, ⟨_, two⟩, second, rest, deleted, ⟨_, last⟩, third, rfl, rfl, rfl, cost, space, costRest,
    spaceRest, _⟩ := calls
  dsimp only at first second third cost space
  have start : BlockReachable blankBlock fun _ => none := .opened _
  have roomFirst : (([.char 7] : List Cell).length : Int) + slotCost blankBlock ≤
      blankBlock.tailPtr - blankBlock.headPtr := by
    decide
  have runOne := BlockReachable.inserted start roomFirst first
  have runTwo := BlockReachable.inserted runOne
    (show (([.char 8, .char 8] : List Cell).length : Int) + slotCost one ≤ _ by simp; omega) second
  have runRest := BlockReachable.deleted runTwo deleted
  have run := BlockReachable.inserted runRest
    (show (([.char 9, .char 9, .char 9] : List Cell).length : Int) + slotCost rest ≤ _ by simp; omega) third
  exact ⟨one, two, rest, last, first, second, deleted, third, _, (slotted_pages _ _ run).1, by simp, by simp⟩

end MyJQL.BlockRefinement
