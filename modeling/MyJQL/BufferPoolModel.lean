import MyJQL.FileIo
import MyJQL.StateProgram
import Mathlib.Data.Fin.Basic
import Mathlib.Data.List.FinRange

/-!
# The buffer pool

A direct transcription of `buffer_pool.c`. The eight frames are indexed arrays, a page pointer is
a frame, and each loop over the frames keeps the order in which the source visits them: the hit
loop remembers the last match, the search for an empty frame stops at the first, and the search
for a victim keeps the first frame with the largest counter.
-/

namespace MyJQL.BufferPoolModel

open MyJQL.FileIo

set_option autoImplicit false

abbrev cachePage : Nat := 8
abbrev Frame := Fin cachePage

structure BufferPool (Page : Type) where
  file : FileInfo Page
  pages : Frame → Page
  addrs : Frame → Int
  cnt : Frame → Nat
  ref : Frame → Nat

variable {Page : Type}

/-- When the file cannot be opened the source prints the result and leaves the frames as they
were. -/
def initBufferPool (disk : Disk Page) (pool : BufferPool Page) : BufferPool Page :=
  match openFile disk with
  | (.fileIoSuccess, file) =>
      { pool with file := file, addrs := fun _ => -1, cnt := fun _ => 1, ref := fun _ => 0 }
  | (_, file) => { pool with file := file }

def flushFrame (pool : BufferPool Page) (frame : Frame) : BufferPool Page :=
  if pool.addrs frame ≥ 0 then
    { pool with file := (writePage .works (pool.pages frame) pool.file (pool.addrs frame)).2 }
  else pool

def closeBufferPool (pool : BufferPool Page) : BufferPool Page :=
  let flushed := (List.finRange cachePage).foldl flushFrame pool
  { flushed with file := closeFile flushed.file }

/-- The hit loop of `get_page`: a frame that holds the page is pinned and its counter restarts,
every other counter advances. -/
def touch (addr : Int) (pool : BufferPool Page) : BufferPool Page :=
  { pool with
    ref := fun frame => if pool.addrs frame = addr then 1 else pool.ref frame
    cnt := fun frame => if pool.addrs frame = addr then 1 else pool.cnt frame + 1 }

def hitFrame (pool : BufferPool Page) (addr : Int) : Option Frame :=
  (List.finRange cachePage).reverse.find? fun frame => pool.addrs frame = addr

def emptyFrame (pool : BufferPool Page) : Option Frame :=
  (List.finRange cachePage).find? fun frame => pool.addrs frame = -1

/-- `tmp` is the largest counter seen so far among the unpinned frames. -/
def victimFrame (pool : BufferPool Page) : Option Frame :=
  ((List.finRange cachePage).foldl
    (fun (best : Nat × Option Frame) frame =>
      if pool.ref frame = 0 ∧ pool.cnt frame > best.1 then (pool.cnt frame, some frame) else best)
    (0, none)).2

/-- Writes the page of a victim back; the result of the transfer is not looked at. -/
def writeBack (device : Device Page) (frame : Frame) (pool : BufferPool Page) : BufferPool Page :=
  { pool with file := (writePage device (pool.pages frame) pool.file (pool.addrs frame)).2 }

/-- The last part of `get_page`: the frame is claimed, then the page is appended or read. An
appended page keeps the bytes that happened to be in the frame. -/
def fillFrame (device : Device Page) (addr : Int) (frame : Frame) (pool : BufferPool Page) :
    BufferPool Page :=
  let claimed := { pool with
    cnt := Function.update pool.cnt frame 1
    ref := Function.update pool.ref frame 1
    addrs := Function.update pool.addrs frame addr }
  if pool.file.length = addr then
    { claimed with file := (writePage device (pool.pages frame) pool.file addr).2 }
  else
    { claimed with
      pages := Function.update pool.pages frame (readPage device (pool.pages frame) pool.file addr).2 }

/-- The miss path of `get_page`: an empty frame is taken if there is one, else a victim, else none
is left. -/
def missPage (evicting filling : Device Page) (addr : Int) (pool : BufferPool Page) :
    Option Frame × BufferPool Page :=
  match emptyFrame pool with
  | some frame => (some frame, fillFrame filling addr frame pool)
  | none =>
      match victimFrame pool with
      | some frame => (some frame, fillFrame filling addr frame (writeBack evicting frame pool))
      | none => (none, pool)

/-- `get_page` over a device that may fail while the victim is written back and while the page
itself is transferred. A null pointer is `none`. -/
def getPageOn (evicting filling : Device Page) (pool : BufferPool Page) (addr : Int) :
    Option Frame × BufferPool Page :=
  if pool.file.length < addr then (none, pool)
  else
    match hitFrame pool addr with
    | some frame => (some frame, touch addr pool)
    | none => missPage evicting filling addr (touch addr pool)

def getPage (pool : BufferPool Page) (addr : Int) : Option Frame × BufferPool Page :=
  getPageOn .works .works pool addr

def labelled (pool : BufferPool Page) (addr : Int) : Option Frame :=
  (List.finRange cachePage).find? fun frame => pool.addrs frame = addr

/-- Releasing a page that is not in the pool prints a message and changes nothing. -/
def release (pool : BufferPool Page) (addr : Int) : BufferPool Page :=
  match labelled pool addr with
  | some frame => { pool with ref := Function.update pool.ref frame 0 }
  | none => pool

def numValidPool (pool : BufferPool Page) : Nat :=
  (List.finRange cachePage).countP fun frame => pool.ref frame = 0

/-- The lines that three modules repeat to cut the last page off: its frame is emptied and the
file gets one page shorter in memory. -/
def cutLastPage (pool : BufferPool Page) (addr : Int) : BufferPool Page :=
  let cleared := match labelled pool addr with
    | some frame => { pool with
        addrs := Function.update pool.addrs frame (-1)
        cnt := Function.update pool.cnt frame 1
        ref := Function.update pool.ref frame 0 }
    | none => pool
  { cleared with file := { cleared.file with length := cleared.file.length - pageSize } }

def writeFrame (pool : BufferPool Page) (frame : Frame) (page : Page) : BufferPool Page :=
  { pool with pages := Function.update pool.pages frame page }

/-- What a reader of the pool sees at a page address: the cached frame if there is one, else the
page in the file. -/
def view (pool : BufferPool Page) (addr : Int) : Page :=
  match labelled pool addr with
  | some frame => pool.pages frame
  | none => pool.file.fp.page addr

end MyJQL.BufferPoolModel
