import MyJQL.PageStoreLogic

/-!
# The free space map

A direct transcription of `hash_map.c`. Every field of its three page layouts is an `off_t`, so a
page is sixteen words and the three structures are three ways to name them. Loops that follow the
links of a page file need not end on an arbitrary file; they are stuck where the C loop runs on for
ever.
-/

namespace MyJQL.HashMapModel

open MyJQL.FileIo
open MyJQL.BufferPoolModel
open MyJQL.StateProgram
open MyJQL.PageStoreLogic

set_option autoImplicit false

abbrev HashPage := Nat → Int
abbrev HashPool := BufferPool HashPage

abbrev hashMapDirBlockSize : Nat := 16
abbrev hashMapBlockSize : Nat := 13

def setWord (word : Nat) (value : Int) (page : HashPage) : HashPage :=
  Function.update page word value

/-- `HashMapControlBlock` -/
def freeBlockHead (page : HashPage) : Int := page 0
def setFreeBlockHead := setWord 0
def setNDirectoryBlocks := setWord 1
def maxSize (page : HashPage) : Int := page 2
def setMaxSize := setWord 2

def directory (page : HashPage) (index : Nat) : Int := page index
def setDirectory := setWord

def prv (page : HashPage) : Int := page 0
def next (page : HashPage) : Int := page 1
def nItems (page : HashPage) : Int := page 2
def table (page : HashPage) (index : Nat) : Int := page (3 + index)
def setPrv := setWord 0
def setNext := setWord 1
def setNItems := setWord 2
def setTable (index : Nat) := setWord (3 + index)

abbrev nextSlot : Nat := 1

/-- `for (i = first; i < HASH_MAP_BLOCK_SIZE; i++) table[i] = -1` -/
def clearTableFrom (first : Nat) (page : HashPage) : HashPage := fun word =>
  if 3 + first ≤ word ∧ word < 3 + hashMapBlockSize then -1 else page word

section Words

variable (page : HashPage) (value : Int) (index other : Nat)

@[simp] theorem n_items_set_n_items : nItems (setNItems value page) = value := by
  simp [nItems, setNItems, setWord]
@[simp] theorem n_items_set_next : nItems (setNext value page) = nItems page := by
  simp [nItems, setNext, setWord]
@[simp] theorem n_items_set_prv : nItems (setPrv value page) = nItems page := by
  simp [nItems, setPrv, setWord]
@[simp] theorem n_items_set_table : nItems (setTable index value page) = nItems page := by
  rw [nItems, setTable, setWord, Function.update_of_ne (by omega), nItems]
@[simp] theorem n_items_clear : nItems (clearTableFrom index page) = nItems page := by
  rw [nItems, clearTableFrom, if_neg (by omega), nItems]

@[simp] theorem next_set_n_items : next (setNItems value page) = next page := by
  simp [next, setNItems, setWord]
@[simp] theorem next_set_next : next (setNext value page) = value := by
  simp [next, setNext, setWord]
@[simp] theorem next_set_prv : next (setPrv value page) = next page := by
  simp [next, setPrv, setWord]
@[simp] theorem next_set_table : next (setTable index value page) = next page := by
  rw [next, setTable, setWord, Function.update_of_ne (by omega), next]
@[simp] theorem next_clear : next (clearTableFrom index page) = next page := by
  rw [next, clearTableFrom, if_neg (by omega), next]

@[simp] theorem prv_set_n_items : prv (setNItems value page) = prv page := by
  simp [prv, setNItems, setWord]
@[simp] theorem prv_set_next : prv (setNext value page) = prv page := by
  simp [prv, setNext, setWord]
@[simp] theorem prv_set_prv : prv (setPrv value page) = value := by
  simp [prv, setPrv, setWord]
@[simp] theorem prv_set_table : prv (setTable index value page) = prv page := by
  rw [prv, setTable, setWord, Function.update_of_ne (by omega), prv]
@[simp] theorem prv_clear : prv (clearTableFrom index page) = prv page := by
  rw [prv, clearTableFrom, if_neg (by omega), prv]

@[simp] theorem table_set_n_items : table (setNItems value page) index = table page index := by
  rw [table, setNItems, setWord, Function.update_of_ne (by omega), table]
@[simp] theorem table_set_next : table (setNext value page) index = table page index := by
  rw [table, setNext, setWord, Function.update_of_ne (by omega), table]
@[simp] theorem table_set_prv : table (setPrv value page) index = table page index := by
  rw [table, setPrv, setWord, Function.update_of_ne (by omega), table]
@[simp] theorem table_set_table : table (setTable other value page) index =
    if index = other then value else table page index := by
  simp [table, setTable, setWord, Function.update_apply]
@[simp] theorem table_clear : table (clearTableFrom other page) index =
    if other ≤ index ∧ index < hashMapBlockSize then -1 else table page index := by
  simp [table, clearTableFrom]

@[simp] theorem free_block_head_set : freeBlockHead (setFreeBlockHead value page) = value := by
  simp [freeBlockHead, setFreeBlockHead, setWord]
@[simp] theorem max_size_set_free_block_head : maxSize (setFreeBlockHead value page) = maxSize page := by
  simp [maxSize, setFreeBlockHead, setWord]
@[simp] theorem directory_set_directory : directory (setDirectory other value page) index =
    if index = other then value else directory page index := by
  simp [directory, setDirectory, setWord, Function.update_apply]

end Words

/-- The directory page of a size, and its place there. -/
def dirAddr (size : Int) : Int := (size / hashMapDirBlockSize + 1) * pageSize
def dirSlot (size : Int) : Nat := (size % hashMapDirBlockSize).toNat

/-- The loop over the directory pages, `count` of them from page `first` on. -/
def initDirectories : Nat → Nat → Program HashPool Unit
  | 0, _ => pure ()
  | count + 1, first => do
      let addr : Int := first * pageSize
      let dir ← fetch addr
      amend dir fun page word => if word < hashMapDirBlockSize then -1 else page word
      unpin addr
      initDirectories count (first + 1)

def hashTableInit (disk : Disk HashPage) (nDirectoryBlocks : Nat) : Program HashPool Unit := do
  modify (initBufferPool disk)
  let length ← fileLength
  if length = 0 then
    let ctr ← fetch 0
    amend ctr fun page =>
      setMaxSize (nDirectoryBlocks * hashMapDirBlockSize)
        (setNDirectoryBlocks nDirectoryBlocks (setFreeBlockHead (-1) page))
    unpin 0
    initDirectories nDirectoryBlocks 1
  else pure ()

def hashTableClose (pool : HashPool) : HashPool := closeBufferPool pool

def seekTurn : Int × PagePtr → Program HashPool ((Int × PagePtr) ⊕ (Int × PagePtr))
  | (now, mp) => do
    let block ← load mp
    if nItems block = hashMapBlockSize ∧ next block ≥ 0 then
      let following ← fetch (next block)
      unpin now
      pure (.inl (next block, following))
    else pure (.inr (now, mp))

/-- The walk that `hash_table_insert` and `release_new_hash_block` share: past full blocks to the
first block with room, or to the last one. -/
def seekRoom (now : Int) (mp : PagePtr) : Program HashPool (Int × PagePtr) := loop seekTurn (now, mp)

theorem seek_room_eq (now : Int) (mp : PagePtr) : seekRoom now mp = (do
    let block ← load mp
    if nItems block = hashMapBlockSize ∧ next block ≥ 0 then
      let following ← fetch (next block)
      unpin now
      seekRoom (next block) following
    else pure (now, mp)) := by
  rw [seekRoom, loop_eq, seekTurn]
  simp only [bind_assoc, bind_ite, pure_bind, afterTurn]
  rfl

def pushItem (mp : PagePtr) (addr : Int) : Program HashPool Unit := do
  let block ← load mp
  check (0 ≤ nItems block ∧ nItems block < hashMapBlockSize)
  amend mp fun page =>
    setNItems (nItems page + 1) (setTable (nItems page).toNat addr page)

def getNewHashBlock : Program HashPool Int := do
  let ctr ← fetch 0
  let head := freeBlockHead (← load ctr)
  if head ≠ -1 then
    let mp ← fetch head
    let block ← load mp
    check (1 ≤ nItems block ∧ nItems block ≤ hashMapBlockSize)
    let last := (nItems block - 1).toNat
    let ans := table block last
    amend mp fun page => setNItems (nItems page - 1) (setTable last (-1) page)
    -- entry 0 of a free block is the block itself, so an emptied block leaves the list
    if nItems block - 1 = 0 then
      amend ctr (setFreeBlockHead (next block))
      amend mp (setNext (-1))
    else pure ()
    unpin 0
    unpin head
    pure ans
  else
    unpin 0
    pure (-1)

def releaseNewHashBlock (addr : Int) : Program HashPool Unit := do
  let ctr ← fetch 0
  let head := freeBlockHead (← load ctr)
  if head ≠ -1 then
    let first ← fetch head
    unpin 0
    let (now, mp) ← seekRoom head first
    let block ← load mp
    if nItems block < hashMapBlockSize then
      pushItem mp addr
      unpin now
    else
      amend mp (setNext addr)
      let fresh ← fetch addr
      unpin now
      amend fresh fun page =>
        setTable 0 addr (setNItems 1 (setNext (-1) (setPrv now page)))
      unpin addr
  else
    amend ctr (setFreeBlockHead addr)
    unpin 0
    let mp ← fetch addr
    amend mp fun page => setTable 0 addr (setNItems 1 (setNext (-1) page))
    unpin addr

/-- A recycled block, or the address at the end of the file. -/
def newStoreAddr : Program HashPool Int := do
  let storeAddr ← getNewHashBlock
  if storeAddr = -1 then fileLength else pure storeAddr

/-- A block as `hash_table_insert` starts it, with one item. -/
def startBlock (previous addr : Int) (page : HashPage) : HashPage :=
  clearTableFrom 1 (setTable 0 addr (setNItems 1 (setNext (-1) (setPrv previous page))))

def hashTableInsert (size addr : Int) : Program HashPool Unit :=
  if size ≥ 0 ∧ size < pageSize then do
    let dir ← fetch (dirAddr size)
    let head := directory (← load dir) (dirSlot size)
    if head = -1 then
      let storeAddr ← newStoreAddr
      amend dir (setDirectory (dirSlot size) storeAddr)
      let mp ← fetch storeAddr
      unpin (dirAddr size)
      amend mp (startBlock (dirAddr size) addr)
      unpin storeAddr
    else
      let first ← fetch head
      unpin (dirAddr size)
      let (now, mp) ← seekRoom head first
      let block ← load mp
      if nItems block < hashMapBlockSize then
        pushItem mp addr
        unpin now
      else
        let storeAddr ← newStoreAddr
        amend mp (setNext storeAddr)
        let fresh ← fetch storeAddr
        unpin now
        amend fresh (startBlock now addr)
        unpin storeAddr
  else pure ()

/-- The first place among the live entries that holds the address. -/
def findItem (block : HashPage) (addr : Int) : Option Nat :=
  (List.range (nItems block).toNat).find? fun index => table block index = addr

/-- The loop that closes a gap: the last non-negative entry behind it moves into it. -/
def fillGap (gap : Nat) (block : HashPage) : HashPage :=
  match (List.range hashMapBlockSize).reverse.find? fun index =>
      gap < index ∧ table block index ≥ 0 with
  | some index => setTable index (-1) (setTable gap (table block index) block)
  | none => block

/-- What the three copies of the removal code do once the entry is found. `holder` is the page
whose word `slot` links to the block at `now`: a directory page, or the block before it. -/
def removeItem (holder : PagePtr) (slot : Nat) (pre now : Int) (mp : PagePtr) (index : Nat) :
    Program HashPool Unit := do
  check (index < hashMapBlockSize)
  amend mp fun page => setNItems (nItems page - 1) (setTable index (-1) page)
  let block ← load mp
  if nItems block = 0 then
    amend holder (setWord slot (next block))
    amend mp fun page => setNext (-1) (setPrv (-1) page)
    unpin pre
    let length ← fileLength
    if now = length - pageSize then
      cutLast now
    else
      unpin now
      releaseNewHashBlock now
  else
    amend mp (fillGap index)
    unpin pre
    unpin now

def popTurn (addr : Int) : Int × Int × PagePtr → Program HashPool ((Int × Int × PagePtr) ⊕ Unit)
  | (pre, now, mp) => do
    let block ← load mp
    if next block ≥ 0 then
      unpin pre
      let following ← fetch (next block)
      let nextBlock ← load following
      check (nItems nextBlock ≤ hashMapBlockSize)
      match findItem nextBlock addr with
      | some index =>
          removeItem mp nextSlot now (next block) following index
          pure (.inr ())
      | none => pure (.inl (now, next block, following))
    else pure (.inr ())

/-- The search behind the first block of a chain. When it runs off the end nothing is released. -/
def popFurther (pre now : Int) (mp : PagePtr) (addr : Int) : Program HashPool Unit :=
  loop (popTurn addr) (pre, now, mp)

theorem pop_further_eq (pre now : Int) (mp : PagePtr) (addr : Int) : popFurther pre now mp addr = (do
    let block ← load mp
    if next block ≥ 0 then
      unpin pre
      let following ← fetch (next block)
      let nextBlock ← load following
      check (nItems nextBlock ≤ hashMapBlockSize)
      match findItem nextBlock addr with
      | some index => removeItem mp nextSlot now (next block) following index
      | none => popFurther now (next block) following addr
    else pure ()) := by
  rw [popFurther, loop_eq, popTurn]
  simp only [bind_assoc, bind_ite, pure_bind]
  refine bind_congr fun block => ite_congr rfl (fun _ => ?_) fun _ => rfl
  refine bind_congr fun _ => bind_congr fun following => bind_congr fun nextBlock => bind_congr fun _ => ?_
  cases findItem nextBlock addr with
  | none => rfl
  | some index =>
      rw [bind_assoc]
      exact bind_pure _

def hashTablePop (size addr : Int) : Program HashPool Unit :=
  if size ≥ 0 ∧ size < pageSize then do
    let pre := dirAddr size
    let dir ← fetch pre
    let now := directory (← load dir) (dirSlot size)
    let mp ← fetch now
    let block ← load mp
    check (nItems block ≤ hashMapBlockSize)
    match findItem block addr with
    | some index => removeItem dir (dirSlot size) pre now mp index
    | none => popFurther pre now mp addr
  else pure ()

/-- Removes the entry at `index` of the first block of a chain; the address is not looked at. -/
def myHashTablePop (size _addr : Int) (index : Nat) : Program HashPool Unit :=
  if size ≥ 0 ∧ size < pageSize then do
    let pre := dirAddr size
    let dir ← fetch pre
    let now := directory (← load dir) (dirSlot size)
    let mp ← fetch now
    removeItem dir (dirSlot size) pre now mp index
  else pure ()

/-- The scan over the directory. It steps past the last directory page when no size is left. -/
def scanDirectory (tmpSize : Int) (dir : PagePtr) : Program HashPool (Int × PagePtr) := do
  let page ← load dir
  if inRange : directory page (dirSlot tmpSize) = -1 ∧ tmpSize < pageSize then
    if dirSlot (tmpSize + 1) = 0 then
      unpin (dirAddr tmpSize)
      let following ← fetch (dirAddr (tmpSize + 1))
      scanDirectory (tmpSize + 1) following
    else scanDirectory (tmpSize + 1) dir
  else pure (tmpSize, dir)
termination_by (pageSize - tmpSize).toNat
decreasing_by
  all_goals
    have := inRange.2
    omega

def hashTablePopLowerBound (size : Int) : Program HashPool Int :=
  if size ≥ 0 ∧ size < pageSize then do
    let start ← fetch (dirAddr size)
    let (tmpSize, dir) ← scanDirectory size start
    if tmpSize = pageSize then pure (-1)
    else
      let now := directory (← load dir) (dirSlot tmpSize)
      let mp ← fetch now
      unpin (dirAddr tmpSize)
      let block ← load mp
      check (1 ≤ nItems block ∧ nItems block ≤ hashMapBlockSize)
      let last := (nItems block - 1).toNat
      let ans := table block last
      unpin now
      -- `mp` is read once more here, after its release and before anything can move the page
      myHashTablePop tmpSize ans last
      pure ans
  else pure (-1)

/-- A printed block: its address and its live entries. -/
abbrev PrintedBlock := Int × List Int

def printTurn : Int × List PrintedBlock → Program HashPool ((Int × List PrintedBlock) ⊕ List PrintedBlock)
  | (blockAddr, printed) => do
    if blockAddr ≠ -1 then
      let pointer ← fetch blockAddr
      let block ← load pointer
      check (nItems block ≤ hashMapBlockSize)
      unpin blockAddr
      let line := (blockAddr, (List.range (nItems block).toNat).map (table block))
      pure (.inl (next block, printed ++ [line]))
    else pure (.inr printed)

/-- The loop over the blocks of a chain, behind the blocks that are printed already. -/
def printBlocks (blockAddr : Int) (printed : List PrintedBlock) : Program HashPool (List PrintedBlock) :=
  loop printTurn (blockAddr, printed)

theorem print_blocks_eq (blockAddr : Int) (printed : List PrintedBlock) : printBlocks blockAddr printed = (do
    if blockAddr ≠ -1 then
      let pointer ← fetch blockAddr
      let block ← load pointer
      check (nItems block ≤ hashMapBlockSize)
      unpin blockAddr
      printBlocks (next block) (printed ++ [(blockAddr, (List.range (nItems block).toNat).map (table block))])
    else pure printed) := by
  rw [printBlocks, loop_eq, printTurn]
  simp only [bind_assoc, bind_ite, pure_bind, afterTurn]
  rfl

def printChain (blockAddr : Int) : Program HashPool (List PrintedBlock) := printBlocks blockAddr []

/-- The loop over the sizes, `count` of them from `first` on. -/
def printSizes : Nat → Nat → Program HashPool (List (Nat × List PrintedBlock))
  | 0, _ => pure []
  | count + 1, first => do
      let dir ← fetch (dirAddr first)
      let head := directory (← load dir) (dirSlot first)
      let chain ← printChain head
      unpin (dirAddr first)
      let rest ← printSizes count (first + 1)
      if head ≠ -1 then pure ((first, chain) :: rest) else pure rest

def printHashTable : Program HashPool (List (Nat × List PrintedBlock)) := do
  let ctrl ← fetch 0
  let bound := maxSize (← load ctrl)
  let lines ← printSizes bound.toNat 0
  unpin 0
  pure lines

/-- The pairs of size and address on the printed lines. -/
def printedPairs (lines : List (Nat × List PrintedBlock)) : List (Nat × Int) :=
  lines.flatMap fun line => (line.2.flatMap Prod.snd).map fun addr => (line.1, addr)

end MyJQL.HashMapModel
