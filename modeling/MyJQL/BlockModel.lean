import MyJQL.Cells
import MyJQL.StateProgram
import Mathlib.Tactic.Ring

/-!
# Slotted blocks

A direct transcription of `block.c`. The three header fields are kept as they are; the item ids
and the items share the cells behind them, addressed by their offset in the block. An access
outside these cells is an error.
-/

namespace MyJQL.BlockModel

open MyJQL.Cells
open MyJQL.StateProgram

set_option autoImplicit false

abbrev ItemId := Nat

/-- `value & ((1 << 15) - 1)` -/
def itemIdField (value : Int) : Nat := (value % 2 ^ 15).toNat

def itemIdAvailability (id : ItemId) : Nat := id >>> 30 &&& 1
def itemIdOffset (id : ItemId) : Nat := id >>> 15 &&& 2 ^ 15 - 1
def itemIdSize (id : ItemId) : Nat := id &&& 2 ^ 15 - 1

def composeItemId (availability offset size : Int) : ItemId :=
  (availability % 2).toNat <<< 30 ||| itemIdField offset <<< 15 ||| itemIdField size

theorem compose_item_id_eq {availability offset size : Nat} (bit : availability < 2)
    (offsetBound : offset < 2 ^ 15) (sizeBound : size < 2 ^ 15) :
    composeItemId availability offset size = availability * 2 ^ 30 + offset * 2 ^ 15 + size := by
  have field : ∀ value : Nat, value < 2 ^ 15 → itemIdField value = value := by
    intro value bound
    simp only [itemIdField]
    omega
  have bitValue : ((availability : Int) % 2).toNat = availability := by omega
  have low : offset <<< 15 < 2 ^ 30 := by
    rw [Nat.shiftLeft_eq]
    omega
  rw [composeItemId, field offset offsetBound, field size sizeBound, bitValue,
    ← Nat.shiftLeft_add_eq_or_of_lt low]
  have shifted : availability <<< 30 + offset <<< 15 = (availability * 2 ^ 15 + offset) <<< 15 := by
    simp only [Nat.shiftLeft_eq]
    omega
  rw [shifted, ← Nat.shiftLeft_add_eq_or_of_lt sizeBound, Nat.shiftLeft_eq]
  ring

section Fields

variable (availability offset size : Nat) (bit : availability < 2) (offsetBound : offset < 2 ^ 15)
  (sizeBound : size < 2 ^ 15)

include bit offsetBound sizeBound

theorem item_id_availability_compose :
    itemIdAvailability (composeItemId availability offset size) = availability := by
  rw [compose_item_id_eq bit offsetBound sizeBound, itemIdAvailability, Nat.and_one_is_mod,
    Nat.shiftRight_eq_div_pow]
  omega

theorem item_id_offset_compose :
    itemIdOffset (composeItemId availability offset size) = offset := by
  rw [compose_item_id_eq bit offsetBound sizeBound, itemIdOffset, Nat.and_two_pow_sub_one_eq_mod,
    Nat.shiftRight_eq_div_pow]
  omega

theorem item_id_size_compose : itemIdSize (composeItemId availability offset size) = size := by
  rw [compose_item_id_eq bit offsetBound sizeBound, itemIdSize, Nat.and_two_pow_sub_one_eq_mod]
  omega

end Fields

structure Block where
  nItems : Int
  headPtr : Int
  tailPtr : Int
  cell : Int → Cell

abbrev blockSize : Int := 128

abbrev dataOffset : Int := 6

abbrev itemIdBytes : Nat := 4

def itemIdPlace (idx : Int) : Int := dataOffset + itemIdBytes * idx

def InData (offset : Int) (count : Nat) : Prop :=
  dataOffset ≤ offset ∧ offset + count ≤ blockSize

instance (offset : Int) (count : Nat) : Decidable (InData offset count) :=
  inferInstanceAs (Decidable (_ ∧ _))

def initBlock (block : Block) : Block :=
  { block with nItems := 0, headPtr := dataOffset, tailPtr := blockSize }

/-- `get_item_id(block, idx)` as a value -/
def getItemId (block : Block) (idx : Int) : Option ItemId :=
  if InData (itemIdPlace idx) itemIdBytes then
    (decode itemIdBytes (cellsAt block.cell (itemIdPlace idx) itemIdBytes)).map Int.toNat
  else none

def withItemId (block : Block) (idx : Int) (id : ItemId) : Block :=
  { block with cell := storeAt block.cell (itemIdPlace idx) (encode itemIdBytes id) }

@[simp] theorem with_item_id_n_items (block : Block) (idx : Int) (id : ItemId) :
    (withItemId block idx id).nItems = block.nItems := rfl
@[simp] theorem with_item_id_head_ptr (block : Block) (idx : Int) (id : ItemId) :
    (withItemId block idx id).headPtr = block.headPtr := rfl
@[simp] theorem with_item_id_tail_ptr (block : Block) (idx : Int) (id : ItemId) :
    (withItemId block idx id).tailPtr = block.tailPtr := rfl

/-- `get_item_id(block, idx) = id` -/
def setItemId (block : Block) (idx : Int) (id : ItemId) : Option Block :=
  if InData (itemIdPlace idx) itemIdBytes then some (withItemId block idx id) else none

theorem set_item_id_eq {block : Block} {idx : Int} {id : ItemId}
    (inData : InData (itemIdPlace idx) itemIdBytes) :
    setItemId block idx id = some (withItemId block idx id) := if_pos inData

/-- The offset of an item, or `NULL`. -/
def getItem (block : Block) (idx : Int) : Option (Option Int) :=
  if idx < 0 ∨ idx ≥ block.nItems then some none
  else do
    let itemId ← getItemId block idx
    if itemIdAvailability itemId = 1 then some none
    else some (some (itemIdOffset itemId))

def findAvailable (block : Block) : Nat → Int → Option (Option Int)
  | 0, _ => some none
  | count + 1, idx => do
      let itemId ← getItemId block idx
      if itemIdAvailability itemId = 1 then some (some idx) else findAvailable block count (idx + 1)

def firstAvailable (block : Block) : Option (Option Int) :=
  findAvailable block block.nItems.toNat 0

def copyItem (block : Block) (item : List Cell) : Option Block :=
  if InData block.tailPtr item.length then
    some { block with cell := storeAt block.cell block.tailPtr item }
  else none

theorem copy_item_eq {block : Block} {item : List Cell} (inData : InData block.tailPtr item.length) :
    copyItem block item = some { block with cell := storeAt block.cell block.tailPtr item } :=
  if_pos inData

def newItem (block : Block) (item : List Cell) : Option (Int × Block) := do
  match ← firstAvailable block with
  | some idx =>
      let named ← setItemId block idx (composeItemId 0 (block.tailPtr - item.length) item.length)
      let filled ← copyItem { named with tailPtr := named.tailPtr - item.length } item
      some (idx, filled)
  | none =>
      let named ← setItemId block block.nItems
        (composeItemId 0 (block.tailPtr - item.length) item.length)
      let grown := { named with
        nItems := named.nItems + 1
        headPtr := named.headPtr + itemIdBytes
        tailPtr := named.tailPtr - item.length }
      let filled ← copyItem grown item
      some (filled.nItems - 1, filled)

/-- The loop that moves the offsets of the items below a deleted one up by its size. -/
def raiseOffsets (skip : Int) (deleted : ItemId) : Nat → Int → Block → Option Block
  | 0, _, block => some block
  | count + 1, idx, block => do
      if idx ≠ skip then
        let tmp ← getItemId block idx
        if itemIdAvailability tmp = 0 ∧ itemIdOffset tmp ≤ itemIdOffset deleted then
          let raised ← setItemId block idx
            (composeItemId 0 (itemIdOffset tmp + itemIdSize deleted) (itemIdSize tmp))
          raiseOffsets skip deleted count (idx + 1) raised
        else raiseOffsets skip deleted count (idx + 1) block
      else raiseOffsets skip deleted count (idx + 1) block

/-- `for (; ptrn >= ptrb; ptrn--) *(ptrn + size) = *ptrn`, for `count` turns. -/
def raiseBytes (size : Nat) : Nat → Int → Block → Option Block
  | 0, _, block => some block
  | count + 1, ptrn, block =>
      if InData ptrn 1 ∧ InData (ptrn + size) 1 then
        raiseBytes size count (ptrn - 1)
          { block with cell := Function.update block.cell (ptrn + size) (block.cell ptrn) }
      else none

def deleteItem (block : Block) (idx : Int) : Option Block :=
  if idx < 0 ∨ idx ≥ block.nItems then some block
  else do
    let itemId ← getItemId block idx
    if itemIdAvailability itemId = 1 then some block
    else
      let size := itemIdSize itemId
      let raised ← raiseOffsets idx itemId block.nItems.toNat 0 block
      let moved ← raiseBytes size (itemIdOffset itemId - raised.tailPtr).toNat
        (itemIdOffset itemId - 1) raised
      let freed ← setItemId moved idx (composeItemId 1 0 0)
      let shrunk := { freed with tailPtr := freed.tailPtr + size }
      if idx = shrunk.nItems - 1 then
        some { shrunk with nItems := shrunk.nItems - 1, headPtr := shrunk.headPtr - itemIdBytes }
      else some shrunk

end MyJQL.BlockModel
