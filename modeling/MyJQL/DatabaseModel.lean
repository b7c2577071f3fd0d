import MyJQL.BTreeModel
import MyJQL.KeyValueStore
import MyJQL.StringModel

/-!
# The database

A direct transcription of `myjql.c`. A record is the record ids of two strings; the tree holds the
record ids of the records and makes records of its own for its separators. The three global variables
are one state, which every function is run on.
-/

namespace MyJQL.DatabaseModel

open MyJQL.FileIo
open MyJQL.BufferPoolModel
open MyJQL.StateProgram
open MyJQL.Cells
open MyJQL.BlockModel
open MyJQL.HashMapModel
open MyJQL.TableModel
open MyJQL.StringModel
open MyJQL.BTreeModel
open MyJQL.KeyValueStore (Bytes StoreCall StoreAnswer)

set_option autoImplicit false

structure Record where
  key : RID
  value : RID
  deriving DecidableEq

abbrev recordBytes : Nat := 2 * ridBytes

def encodeRecord (record : Record) : List Cell := encodeRid record.key ++ encodeRid record.value

def decodeRecord (cells : List Cell) : Option Record := do
  let key ← decodeRid (cells.take ridBytes)
  let value ← decodeRid (cells.drop ridBytes)
  some ⟨key, value⟩

def readRecord (rid : RID) : Program Table Record := do
  let item ← tableRead rid
  check (item.length ≤ recordBytes)
  ofOption (decodeRecord item)

def writeRecord (record : Record) : Program Table RID := tableInsert (encodeRecord record)

def deleteRecord (rid : RID) : Program Table Unit := tableDelete rid

/-- `tbl_rec` and `tbl_str` -/
abbrev Tables := Table × Table

variable {Value : Type}

def onRec (program : Program Table Value) : Program Tables Value := firstPart.run program

def onStr (program : Program Table Value) : Program Tables Value := secondPart.run program

def ridRowRowCmp (a b : RID) : Program Tables Int := do
  let reA ← onRec (readRecord a)
  let reB ← onRec (readRecord b)
  let sreA ← onStr (readString reA.key)
  let sreB ← onStr (readString reB.key)
  onStr (compareStringRecord sreA sreB)

/-- The loop of `rid_ptr_row_cmp`, when it returns. -/
def comparePtrLoop : Bytes → Bytes → Option Int
  | x :: xs, y :: ys =>
      if charValue x > charValue y then some 1
      else if charValue x < charValue y then some (-1)
      else comparePtrLoop xs ys
  | _, _ => none

/-- The buffer has `size + 3` bytes. -/
def ridPtrRowCmp (p : Bytes) (b : RID) : Program Tables Int := do
  let reB ← onRec (readRecord b)
  let sreB ← onStr (readString reB.key)
  let (s, _) ← onStr (loadString (p.length + 2) sreB)
  pure (match comparePtrLoop p s with
    | some order => order
    | none => if p.length > s.length then 1 else if p.length < s.length then -1 else 0)

/-- A copy of the key for a separator. Its value is never read. -/
def insertHandler (rid : RID) : Program Tables RID := do
  let re ← onRec (readRecord rid)
  let sre ← onStr (readString re.key)
  let (maxSize, sre) ← onStr (getStringSize sre re.key)
  let (s, _) ← onStr (loadString (maxSize.toNat + 1) sre)
  let ridKey ← onStr (writeString s)
  onRec (writeRecord ⟨ridKey, noRid⟩)

def deleteHandler (rid : RID) : Program Tables Unit := do
  let re ← onRec (readRecord rid)
  onStr (deleteString re.key)
  onRec (deleteRecord rid)

def recordCallbacks : Callbacks Tables := ⟨ridRowRowCmp, insertHandler, deleteHandler⟩

/-- `bp_idx`, `tbl_rec` and `tbl_str` -/
abbrev Database := Index Tables

/-- `DEGREE` -/
abbrev bTreeDegree : Nat := 3

structure Files where
  idx : Disk BNode
  recData : Disk Block
  recFsm : Disk HashPage
  strData : Disk Block
  strFsm : Disk HashPage

def myjqlInit (files : Files) : Program Database Unit := do
  onIndex (bTreeInit files.idx)
  onStore (onRec (tableInit files.recData files.recFsm))
  onStore (onStr (tableInit files.strData files.strFsm))

def myjqlClose (database : Database) : Database :=
  (bTreeClose database.1, tableClose database.2.1, tableClose database.2.2)

def filesOf (database : Database) : Files where
  idx := database.1.file.fp
  recData := database.2.1.1.file.fp
  recFsm := database.2.1.2.file.fp
  strData := database.2.2.1.file.fp
  strFsm := database.2.2.2.file.fp

/-- `-1` is `(size_t)-1`; the second component is what is written to the buffer. -/
def myjqlGet (key : Bytes) (maxSize : Nat) : Program Database (Int × Bytes) := do
  let rid ← bTreeSearch bTreeDegree (ridPtrRowCmp key)
  if rid.blockAddr < 0 then pure (-1, [])
  else
    onStore do
      let re ← onRec (readRecord rid)
      let sre ← onStr (readString re.value)
      let (ans, sre) ← onStr (getStringSize sre re.value)
      let (written, _) ← onStr (loadString maxSize sre)
      pure (ans, written)

def myjqlSet (key value : Bytes) : Program Database Unit := do
  let rid ← bTreeSearch bTreeDegree (ridPtrRowCmp key)
  if rid.blockAddr < 0 then
    let rid ← onStore do
      let ridKey ← onStr (writeString key)
      let ridValue ← onStr (writeString value)
      onRec (writeRecord ⟨ridKey, ridValue⟩)
    let _ ← bTreeInsert bTreeDegree recordCallbacks rid
    pure ()
  else
    bTreeDelete bTreeDegree recordCallbacks rid
    let rid ← onStore do
      let re ← onRec (readRecord rid)
      onStr (deleteString re.value)
      let ridValue ← onStr (writeString value)
      onRec (deleteRecord rid)
      onRec (writeRecord { re with value := ridValue })
    let _ ← bTreeInsert bTreeDegree recordCallbacks rid
    pure ()

def myjqlDel (key : Bytes) : Program Database Unit := do
  let rid ← bTreeSearch bTreeDegree (ridPtrRowCmp key)
  if rid.blockAddr < 0 then pure ()
  else
    bTreeDelete bTreeDegree recordCallbacks rid
    onStore do
      let re ← onRec (readRecord rid)
      onStr (deleteString re.key)
      onStr (deleteString re.value)
      onRec (deleteRecord rid)

/-- The calls as their users see them. -/
def databaseCall : StoreCall → Program Database StoreAnswer
  | .get key maxSize => do
      let (ans, written) ← myjqlGet key maxSize
      pure (if ans = -1 then none else some (ans.toNat, written))
  | .set key value => do
      myjqlSet key value
      pure none
  | .del key => do
      myjqlDel key
      pure none

end MyJQL.DatabaseModel
