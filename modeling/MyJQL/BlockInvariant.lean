import MyJQL.BlockModel

/-!
# What a block holds

The items of a block lie in the order in which they were inserted, the newest at the tail pointer,
without gaps. `HoldsStack` says this of a block and of a stack of slots with their items; inserting
pushes onto the stack and deleting takes an entry out of its middle.
-/

namespace MyJQL.BlockInvariant

open MyJQL.Cells
open MyJQL.BlockModel

set_option autoImplicit false

/-- Slots with the items they name, from the tail pointer upwards. -/
abbrev Stack := List (Nat × List Cell)

def stackBytes (stack : Stack) : List Cell := stack.flatMap Prod.snd

@[simp] theorem stack_bytes_cons (entry : Nat × List Cell) (stack : Stack) :
    stackBytes (entry :: stack) = entry.2 ++ stackBytes stack := by
  simp [stackBytes]

@[simp] theorem stack_bytes_append (front back : Stack) :
    stackBytes (front ++ back) = stackBytes front ++ stackBytes back := by
  simp [stackBytes]

structure HoldsStack (block : Block) (stack : Stack) (slots : Nat) : Prop where
  nItems : block.nItems = slots
  headPtr : block.headPtr = dataOffset + itemIdBytes * slots
  fits : block.headPtr ≤ block.tailPtr
  tailPtr : block.tailPtr + (stackBytes stack).length = blockSize
  nodup : (stack.map Prod.fst).Nodup
  inSlots : ∀ entry ∈ stack, entry.1 < slots
  content : cellsAt block.cell block.tailPtr (stackBytes stack).length = stackBytes stack
  used : ∀ (front : Stack) (idx : Nat) (item : List Cell) (back : Stack),
    stack = front ++ (idx, item) :: back →
    getItemId block idx =
      some (composeItemId 0 (block.tailPtr + (stackBytes front).length) item.length)
  free : ∀ idx : Nat, idx < slots → idx ∉ stack.map Prod.fst →
    getItemId block idx = some (composeItemId 1 0 0)

theorem init_block_holds (block : Block) : HoldsStack (initBlock block) [] 0 where
  nItems := rfl
  headPtr := rfl
  fits := (by decide : dataOffset ≤ blockSize)
  tailPtr := rfl
  nodup := List.nodup_nil
  inSlots _ none := by cases none
  content := rfl
  used front idx item back split := by simp at split
  free idx inside := by cases inside

section ItemIds

variable {block changed : Block} {idx other : Int} {id : ItemId}

theorem get_item_id_congr (same : ∀ place, itemIdPlace idx ≤ place →
    place < itemIdPlace idx + itemIdBytes → changed.cell place = block.cell place) :
    getItemId changed idx = getItemId block idx := by
  rw [getItemId, getItemId, cells_at_congr (by exact_mod_cast same)]

theorem get_item_id_self (inData : InData (itemIdPlace idx) itemIdBytes) :
    getItemId (withItemId block idx id) idx = some id := by
  have stored : cellsAt (storeAt block.cell (itemIdPlace idx) (encode itemIdBytes id))
      (itemIdPlace idx) (encode itemIdBytes id).length = encode itemIdBytes id := cells_at_store
  rw [encode_length] at stored
  rw [getItemId, if_pos inData, withItemId, stored, decode_encode (by decide)]
  rfl

theorem get_item_id_other (different : other ≠ idx) :
    getItemId (withItemId block idx id) other = getItemId block other := by
  apply get_item_id_congr
  intro place lower upper
  apply store_at_outside
  simp only [encode_length, itemIdPlace, dataOffset, itemIdBytes] at *
  omega

theorem slot_in_data {slot : Nat} {slots : Nat} (inSlots : slot < slots)
    (fits : dataOffset + itemIdBytes * (slots : Int) ≤ blockSize) :
    InData (itemIdPlace slot) itemIdBytes := by
  simp only [InData, itemIdPlace, dataOffset, itemIdBytes, blockSize] at *
  omega

end ItemIds

section Holds

variable {block : Block} {stack : Stack} {slots : Nat}

theorem slots_fit (holds : HoldsStack block stack slots) :
    dataOffset + itemIdBytes * (slots : Int) ≤ block.tailPtr ∧ block.tailPtr ≤ blockSize := by
  have headPtr := holds.headPtr
  have fits := holds.fits
  have tailPtr := holds.tailPtr
  simp only [dataOffset, itemIdBytes, blockSize] at *
  omega

theorem block_slot_in_data (holds : HoldsStack block stack slots) {slot : Nat} (inSlots : slot < slots) :
    InData (itemIdPlace slot) itemIdBytes :=
  slot_in_data inSlots ((slots_fit holds).1.trans (slots_fit holds).2)

theorem stack_split {idx : Nat} (member : idx ∈ stack.map Prod.fst) :
    ∃ front item back, stack = front ++ (idx, item) :: back := by
  obtain ⟨⟨_, item⟩, inStack, rfl⟩ := List.mem_map.mp member
  obtain ⟨front, back, split⟩ := List.append_of_mem inStack
  exact ⟨front, item, back, split⟩

theorem used_fields (holds : HoldsStack block stack slots) {front back : Stack} {idx : Nat}
    {item : List Cell} (split : stack = front ++ (idx, item) :: back) :
    ∃ itemId, getItemId block idx = some itemId ∧ itemIdAvailability itemId = 0 ∧
      (itemIdOffset itemId : Int) = block.tailPtr + (stackBytes front).length ∧
      itemIdSize itemId = item.length := by
  have fit := slots_fit holds
  have tailPtr := holds.tailPtr
  rw [split] at tailPtr
  simp only [stack_bytes_append, stack_bytes_cons, List.length_append] at tailPtr
  obtain ⟨offset, offsetEq⟩ : ∃ offset : Nat, (offset : Int) =
      block.tailPtr + (stackBytes front).length :=
    ⟨(block.tailPtr + (stackBytes front).length).toNat, by
      simp only [dataOffset, itemIdBytes, blockSize] at *; omega⟩
  have offsetBound : offset < 2 ^ 15 := by
    simp only [dataOffset, itemIdBytes, blockSize] at *
    omega
  have sizeBound : item.length < 2 ^ 15 := by
    simp only [dataOffset, itemIdBytes, blockSize] at *
    omega
  have itemId := holds.used front idx item back split
  rw [← offsetEq] at itemId
  refine ⟨_, itemId, ?_, ?_, ?_⟩
  · exact item_id_availability_compose 0 offset item.length (by decide) offsetBound sizeBound
  · rw [← offsetEq]
    exact congrArg _ (item_id_offset_compose 0 offset item.length (by decide) offsetBound sizeBound)
  · exact item_id_size_compose 0 offset item.length (by decide) offsetBound sizeBound

theorem free_fields (holds : HoldsStack block stack slots) {idx : Nat} (inSlots : idx < slots)
    (free : idx ∉ stack.map Prod.fst) :
    ∃ itemId, getItemId block idx = some itemId ∧ itemIdAvailability itemId = 1 :=
  ⟨_, holds.free idx inSlots free,
    item_id_availability_compose 1 0 0 (by decide) (by decide) (by decide)⟩

/-- Whether a slot is available is whether the stack names it. -/
theorem slot_readable (holds : HoldsStack block stack slots) {idx : Nat} (inSlots : idx < slots) :
    ∃ itemId, getItemId block idx = some itemId ∧
      (itemIdAvailability itemId = 1 ↔ idx ∉ stack.map Prod.fst) := by
  by_cases named : idx ∈ stack.map Prod.fst
  · obtain ⟨front, item, back, split⟩ := stack_split named
    obtain ⟨itemId, found, available, _, _⟩ := used_fields holds split
    exact ⟨itemId, found, by simp [available, named]⟩
  · obtain ⟨itemId, found, available⟩ := free_fields holds inSlots named
    exact ⟨itemId, found, by simp [available, named]⟩

theorem find_available_holds (holds : HoldsStack block stack slots) {count first : Nat}
    (bound : first + count ≤ slots) :
    (∃ idx : Nat, findAvailable block count first = some (some (idx : Int)) ∧ idx < slots ∧
      idx ∉ stack.map Prod.fst) ∨
    (findAvailable block count first = some none ∧
      ∀ idx, first ≤ idx → idx < first + count → idx ∈ stack.map Prod.fst) := by
  induction count generalizing first with
  | zero => exact .inr ⟨rfl, fun idx lower upper => by omega⟩
  | succ count ih =>
      obtain ⟨itemId, found, available⟩ := slot_readable holds (show first < slots by omega)
      simp only [findAvailable, found, Option.bind_eq_bind, Option.bind_some]
      by_cases isFree : itemIdAvailability itemId = 1
      · rw [if_pos isFree]
        exact .inl ⟨first, rfl, by omega, available.mp isFree⟩
      · rw [if_neg isFree]
        have next : ((first : Int) + 1) = ((first + 1 : Nat) : Int) := by push_cast; rfl
        rw [next]
        rcases ih (show first + 1 + count ≤ slots by omega) with hit | ⟨none, named⟩
        · exact .inl hit
        · refine .inr ⟨none, fun idx lower upper => ?_⟩
          rcases Nat.eq_or_lt_of_le lower with here | behind
          · rw [← here]
            exact not_not.mp fun absent => isFree (available.mpr absent)
          · exact named idx behind (by omega)

theorem first_available_holds (holds : HoldsStack block stack slots) :
    (∃ idx : Nat, firstAvailable block = some (some (idx : Int)) ∧ idx < slots ∧
      idx ∉ stack.map Prod.fst) ∨
    (firstAvailable block = some none ∧ ∀ idx, idx < slots → idx ∈ stack.map Prod.fst) := by
  have found := find_available_holds holds (show 0 + slots ≤ slots by omega)
  rw [firstAvailable, holds.nItems, Int.toNat_natCast]
  simpa using found

end Holds

end MyJQL.BlockInvariant
