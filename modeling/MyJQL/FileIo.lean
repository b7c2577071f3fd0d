import Mathlib.Logic.Function.Basic
import Mathlib.Tactic.TypeStar

/-!
# Page files

`file_io.c` over a disk that remembers a page at every page address. The library calls behind a
transfer (`fseek`, `fread`, `fwrite`) can fail, so every transfer takes the behaviour of the
device; a failed transfer leaves torn bytes behind. A page is whatever its pool keeps in it.
-/

namespace MyJQL.FileIo

set_option autoImplicit false

abbrev pageSize : Int := 128

inductive FileIOResult where
  | fileIoSuccess
  | fileIoFailed
  | invalidLen
  | invalidAddr
  | addrOutOfRange
  deriving DecidableEq, Repr

variable {Page : Type}

/-- The file as the operating system keeps it: it outlives `fclose`, and nothing shortens it. -/
structure Disk (Page : Type) where
  size : Int
  page : Int → Page

structure FileInfo (Page : Type) where
  fp : Disk Page
  length : Int

/-- How the library calls of one transfer turn out. -/
inductive Device (Page : Type) where
  | works
  | seekFails
  | transferFails (torn : Page)

/-- A file that does not exist is created, so it is the disk of size zero. -/
def openFile (disk : Disk Page) : FileIOResult × FileInfo Page :=
  let file : FileInfo Page := { fp := disk, length := disk.size }
  if disk.size % pageSize ≠ 0 then (.invalidLen, { file with length := 0 })
  else (.fileIoSuccess, file)

def closeFile (file : FileInfo Page) : FileInfo Page := { file with length := 0 }

def readPage (device : Device Page) (page : Page) (file : FileInfo Page) (addr : Int) :
    FileIOResult × Page :=
  if addr % pageSize ≠ 0 then (.invalidAddr, page)
  else if addr < 0 ∨ addr ≥ file.length then (.addrOutOfRange, page)
  else match device with
    | .seekFails => (.fileIoFailed, page)
    | .transferFails torn => (.fileIoFailed, torn)
    | .works =>
        if addr + pageSize ≤ file.fp.size then (.fileIoSuccess, file.fp.page addr)
        else (.fileIoFailed, page)

def Disk.write (disk : Disk Page) (addr : Int) (page : Page) : Disk Page where
  size := max disk.size (addr + pageSize)
  page := Function.update disk.page addr page

def writePage (device : Device Page) (page : Page) (file : FileInfo Page) (addr : Int) :
    FileIOResult × FileInfo Page :=
  if addr % pageSize ≠ 0 then (.invalidAddr, file)
  else if addr < 0 ∨ addr > file.length then (.addrOutOfRange, file)
  else match device with
    | .seekFails => (.fileIoFailed, file)
    | .transferFails torn => (.fileIoFailed, { file with fp := file.fp.write addr torn })
    | .works =>
        let written := { file with fp := file.fp.write addr page }
        if addr = file.length then
          -- the new page is appended at the end
          (.fileIoSuccess, { written with length := file.length + pageSize })
        else (.fileIoSuccess, written)

theorem read_page_works (page : Page) {file : FileInfo Page} {addr : Int}
    (aligned : addr % pageSize = 0) (lower : 0 ≤ addr) (upper : addr < file.length)
    (stored : addr + pageSize ≤ file.fp.size) :
    readPage .works page file addr = (.fileIoSuccess, file.fp.page addr) := by
  have inside : ¬(addr < 0 ∨ addr ≥ file.length) := by omega
  simp only [readPage, aligned, ne_eq, not_true_eq_false, if_false, inside, if_pos stored]

theorem write_page_inside {page : Page} {file : FileInfo Page} {addr : Int}
    (aligned : addr % pageSize = 0) (lower : 0 ≤ addr) (upper : addr < file.length) :
    writePage .works page file addr =
      (.fileIoSuccess, { file with fp := file.fp.write addr page }) := by
  have inside : ¬(addr < 0 ∨ addr > file.length) := by omega
  have notEnd : addr ≠ file.length := by omega
  simp only [writePage, aligned, ne_eq, not_true_eq_false, if_false, inside, if_neg notEnd]

theorem write_page_append {page : Page} {file : FileInfo Page}
    (aligned : file.length % pageSize = 0) (lower : 0 ≤ file.length) :
    writePage .works page file file.length =
      (.fileIoSuccess, { fp := file.fp.write file.length page, length := file.length + pageSize }) := by
  have inside : ¬(file.length < 0 ∨ file.length > file.length) := by omega
  simp only [writePage, aligned, ne_eq, not_true_eq_false, if_false, inside, if_true]

end MyJQL.FileIo
