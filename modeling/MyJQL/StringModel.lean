import MyJQL.TableModel

/-!
# Strings in a table

A direct transcription of `str.c`. A string is a list of chunks, each an item of the table: the
record id of the next chunk, the number of characters, the characters. A chunk in memory is the list
of bytes that the last read copied out; the code never looks at what an earlier, longer read left
behind them.
-/

namespace MyJQL.StringModel

open MyJQL.FileIo
open MyJQL.StateProgram
open MyJQL.Cells
open MyJQL.TableModel

set_option autoImplicit false

abbrev offBytes : Nat := 8
abbrev shortBytes : Nat := 2

abbrev ridBytes : Nat := offBytes + shortBytes

abbrev strChunkMaxSize : Nat := 32
abbrev strChunkMaxLen : Nat := strChunkMaxSize - ridBytes - shortBytes

/-- The record id behind the last chunk. -/
def noRid : RID := ⟨-1, -1⟩

def encodeRid (rid : RID) : List Cell := encode offBytes rid.blockAddr ++ encode shortBytes rid.idx

def decodeRid (cells : List Cell) : Option RID := do
  let blockAddr ← decode offBytes (cells.take offBytes)
  let idx ← decode shortBytes ((cells.drop offBytes).take shortBytes)
  some ⟨blockAddr, idx⟩

abbrev StringChunk := List Cell

def getStrChunkRid (chunk : StringChunk) : Option RID := decodeRid chunk

def getStrChunkSize (chunk : StringChunk) : Option Int :=
  decode shortBytes ((chunk.drop ridBytes).take shortBytes)

/-- The character behind `get_str_chunk_data_ptr` with the given index. -/
def strChunkChar (chunk : StringChunk) (index : Int) : Option UInt8 :=
  if 0 ≤ index then
    match chunk[ridBytes + shortBytes + index.toNat]? with
    | some (.char value) => some value
    | _ => none
  else none

/-- The first `calc_str_chunk_size(size)` bytes of a chunk that is filled in. -/
def strChunk (next : RID) (size : Nat) (data : List UInt8) : StringChunk :=
  encodeRid next ++ encode shortBytes size ++ data.map Cell.char

structure StringRecord where
  chunk : StringChunk
  idx : Int
  deriving DecidableEq

def readString (rid : RID) : Program Table StringRecord := do
  let chunk ← tableRead rid
  check (chunk.length ≤ strChunkMaxSize)
  pure ⟨chunk, 0⟩

def hasNextChar (record : StringRecord) : Option Bool := do
  let size ← getStrChunkSize record.chunk
  if record.idx < size then some true
  else
    let rid ← getStrChunkRid record.chunk
    some (rid.blockAddr ≠ -1)

def nextChar (record : StringRecord) : Program Table (UInt8 × StringRecord) := do
  let size ← ofOption (getStrChunkSize record.chunk)
  if record.idx < size then
    let char ← ofOption (strChunkChar record.chunk record.idx)
    pure (char, { record with idx := record.idx + 1 })
  else
    let rid ← ofOption (getStrChunkRid record.chunk)
    let following ← readString rid
    let char ← ofOption (strChunkChar following.chunk 0)
    pure (char, { following with idx := 1 })

def sizeTurn : Int × StringRecord → Program Table ((Int × StringRecord) ⊕ Int)
  | (ans, record) => do
    let size ← ofOption (getStrChunkSize record.chunk)
    let rid ← ofOption (getStrChunkRid record.chunk)
    if rid.blockAddr < 0 then pure (.inr (ans + size))
    else
      let following ← readString rid
      pure (.inl (ans + size, following))

/-- The loop of `get_string_size`. -/
def sumChunkSizes (ans : Int) (record : StringRecord) : Program Table Int := loop sizeTurn (ans, record)

theorem sum_chunk_sizes_eq (ans : Int) (record : StringRecord) : sumChunkSizes ans record = (do
    let size ← ofOption (getStrChunkSize record.chunk)
    let rid ← ofOption (getStrChunkRid record.chunk)
    if rid.blockAddr < 0 then pure (ans + size)
    else
      let following ← readString rid
      sumChunkSizes (ans + size) following) := by
  rw [sumChunkSizes, loop_eq, sizeTurn]
  simp only [bind_assoc, bind_ite, pure_bind, afterTurn]
  rfl

/-- The length, and the record rewound to the start of the string at `root`. -/
def getStringSize (record : StringRecord) (root : RID) : Program Table (Int × StringRecord) := do
  let ans ← sumChunkSizes 0 record
  let rewound ← readString root
  pure (ans, rewound)

/-- `char` is signed on the platforms the project is built for. -/
def charValue (char : UInt8) : Int := char.toInt8.toInt

def compareTurn : StringRecord × StringRecord → Program Table ((StringRecord × StringRecord) ⊕ Int)
  | (a, b) => do
    let moreA ← ofOption (hasNextChar a)
    let moreB ← ofOption (hasNextChar b)
    if moreA ∧ moreB then
      let (x, a) ← nextChar a
      let (y, b) ← nextChar b
      if charValue x > charValue y then pure (.inr 1)
      else if charValue x < charValue y then pure (.inr (-1))
      else pure (.inl (a, b))
    else if moreA then pure (.inr 1)
    else if moreB then pure (.inr (-1))
    else pure (.inr 0)

def compareStringRecord (a b : StringRecord) : Program Table Int := loop compareTurn (a, b)

theorem compare_string_record_eq (a b : StringRecord) : compareStringRecord a b = (do
    let moreA ← ofOption (hasNextChar a)
    let moreB ← ofOption (hasNextChar b)
    if moreA ∧ moreB then
      let (x, a) ← nextChar a
      let (y, b) ← nextChar b
      if charValue x > charValue y then pure 1
      else if charValue x < charValue y then pure (-1)
      else compareStringRecord a b
    else if moreA then pure 1
    else if moreB then pure (-1)
    else pure 0) := by
  rw [compareStringRecord, loop_eq, compareTurn]
  simp only [bind_assoc, bind_ite, pure_bind, afterTurn]
  rfl

/-- One turn of the loop of `write_string` for each chunk, the last chunk first. `rid` is the chunk
written before, which is the next one in the string. -/
def writeChunks (data : List UInt8) (num lastSize : Nat) : Nat → RID → Program Table RID
  | 0, rid => pure rid
  | index + 1, rid => do
      let next := if index + 1 = num then noRid else rid
      let size := if index + 1 = num then lastSize else strChunkMaxLen
      let written ← tableInsert (strChunk next size ((data.drop (strChunkMaxLen * index)).take size))
      writeChunks data num lastSize index written

def writeString (data : List UInt8) : Program Table RID :=
  let size := data.length
  let num := if size = 0 then 1 else (size - 1) / strChunkMaxLen + 1
  let lastSize := if size = 0 then 0 else (size - 1) % strChunkMaxLen + 1
  writeChunks data num lastSize num noRid

def deleteTurn (rid : RID) : Program Table (RID ⊕ Unit) := do
  let chunk ← tableRead rid
  check (chunk.length ≤ strChunkMaxSize)
  let nextRid ← ofOption (getStrChunkRid chunk)
  tableDelete rid
  if nextRid.blockAddr ≠ -1 then pure (.inl nextRid) else pure (.inr ())

def deleteString (rid : RID) : Program Table Unit := loop deleteTurn rid

theorem delete_string_eq (rid : RID) : deleteString rid = (do
    let chunk ← tableRead rid
    check (chunk.length ≤ strChunkMaxSize)
    let nextRid ← ofOption (getStrChunkRid chunk)
    tableDelete rid
    if nextRid.blockAddr ≠ -1 then deleteString nextRid else pure ()) := by
  rw [deleteString, loop_eq, deleteTurn]
  simp only [bind_assoc, bind_ite, pure_bind, afterTurn]
  rfl

/-- At most `maxSize` characters from the record on. -/
def loadString : Nat → StringRecord → Program Table (List UInt8 × StringRecord)
  | 0, record => do
      let _ ← ofOption (hasNextChar record)
      pure ([], record)
  | maxSize + 1, record => do
      let more ← ofOption (hasNextChar record)
      if more then
        let (char, record) ← nextChar record
        let (rest, record) ← loadString maxSize record
        pure (char :: rest, record)
      else pure ([], record)

end MyJQL.StringModel
