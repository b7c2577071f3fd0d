import MyJQL.BlockModel
import MyJQL.HashMapModel

/-!
# Tables

A direct transcription of `table.c`: a pool of slotted blocks and a space map that records the
free space of each block. A record id names a block and a slot.
-/

namespace MyJQL.TableModel

open MyJQL.FileIo
open MyJQL.BufferPoolModel
open MyJQL.StateProgram
open MyJQL.PageStoreLogic
open MyJQL.HashMapModel
open MyJQL.Cells
open MyJQL.BlockModel

set_option autoImplicit false

structure RID where
  blockAddr : Int
  idx : Int
  deriving DecidableEq, Repr

/-- `data_pool` and `fsm_pool` -/
abbrev Table := BufferPool Block × HashPool

variable {Value : Type}

def onData (program : Program (BufferPool Block) Value) : Program Table Value :=
  firstPart.run program

def onFsm (program : Program HashPool Value) : Program Table Value := secondPart.run program

abbrev fsmDirectoryBlocks : Nat := 8

def tableInit (dataDisk : Disk Block) (fsmDisk : Disk HashPage) : Program Table Unit := do
  onData (modify (initBufferPool dataDisk))
  onFsm (hashTableInit fsmDisk fsmDirectoryBlocks)

def tableClose (table : Table) : Table := (closeBufferPool table.1, hashTableClose table.2)

/-- The size under which the space map keeps a block: what `table_insert` computes after and
`table_delete` before and after their change of the block. -/
def recordedSize (block : Block) : Option Int := do
  let newsize := block.tailPtr - block.headPtr
  match ← firstAvailable block with
  | some _ => some newsize
  | none => some (if newsize - itemIdBytes < 0 then 0 else newsize - itemIdBytes)

/-- What `table_read` copies out. A null pointer cannot be read through. -/
def tableRead (rid : RID) : Program Table (List Cell) := do
  let pointer ← onData (fetch rid.blockAddr)
  let block ← onData (load pointer)
  let item ← ofOption (getItem block rid.idx)
  let itemId ← ofOption (getItemId block rid.idx)
  let offset ← ofOption item
  check (InData offset (itemIdSize itemId))
  onData (unpin rid.blockAddr)
  pure (cellsAt block.cell offset (itemIdSize itemId))

/-- The part of `table_insert` behind the choice of a block. -/
def placeItem (src : List Cell) (blockAddr : Int) (pointer : PagePtr) : Program Table RID := do
  let block ← onData (load pointer)
  let placed ← ofOption (newItem block src)
  onData (amend pointer fun _ => placed.2)
  let newsize ← ofOption (recordedSize placed.2)
  onFsm (hashTableInsert newsize blockAddr)
  onData (unpin blockAddr)
  pure ⟨blockAddr, placed.1⟩

def tableInsert (src : List Cell) : Program Table RID := do
  let found ← onFsm (hashTablePopLowerBound src.length)
  if found = -1 then
    let blockAddr ← onData fileLength
    let pointer ← onData (fetch blockAddr)
    onData (amend pointer initBlock)
    placeItem src blockAddr pointer
  else
    let pointer ← onData (fetch found)
    placeItem src found pointer

def tableDelete (rid : RID) : Program Table Unit := do
  let addr := rid.blockAddr
  let pointer ← onData (fetch addr)
  let block ← onData (load pointer)
  let oldsize ← ofOption (recordedSize block)
  let lighter ← ofOption (deleteItem block rid.idx)
  onData (amend pointer fun _ => lighter)
  let newsize ← ofOption (recordedSize lighter)
  onFsm (hashTablePop oldsize addr)
  onFsm (hashTableInsert newsize addr)
  onData (unpin addr)

/-- The bytes under a slot in use, as `get_item` and `get_item_id_size` find them. -/
def itemAt (block : Block) (idx : Int) : Option (List Cell) := do
  let offset ← (← getItem block idx)
  let itemId ← getItemId block idx
  some (cellsAt block.cell offset (itemIdSize itemId))

/-- A record id is live when its block is in the file and its slot is in use there. -/
def liveItem (table : Table) (rid : RID) : Option (List Cell) :=
  if 0 ≤ rid.blockAddr ∧ rid.blockAddr % pageSize = 0 ∧ rid.blockAddr < table.1.file.length then
    itemAt (view table.1 rid.blockAddr) rid.idx
  else none

end MyJQL.TableModel
