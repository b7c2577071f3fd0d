import Mathlib.Data.List.Range
import Mathlib.Data.List.Basic
import Mathlib.Tactic.TypeStar

/-!
# Bytes that remember what they are bytes of

A record may hold an integer that the program later reads back as a whole, or copies byte by byte.
A cell is either a character or one byte of an integer of known width, so integers need no bound
and no byte order. Reading bytes as an integer they were never written as is an error.
-/

namespace MyJQL.Cells

set_option autoImplicit false

inductive Cell where
  | char (value : UInt8)
  | part (width : Nat) (value : Int) (index : Nat)
  deriving DecidableEq, Repr

def encode (width : Nat) (value : Int) : List Cell := (List.range width).map (Cell.part width value)

def decode (width : Nat) (cells : List Cell) : Option Int :=
  match cells.head? with
  | some (.part _ value _) => if cells = encode width value then some value else none
  | _ => none

@[simp] theorem encode_length (width : Nat) (value : Int) : (encode width value).length = width := by
  simp [encode]

theorem decode_encode {width : Nat} (positive : 0 < width) (value : Int) :
    decode width (encode width value) = some value := by
  cases width with
  | zero => cases positive
  | succ width => simp [decode, encode, List.range_succ_eq_map]

def cellsAt (memory : Int → Cell) (offset : Int) (count : Nat) : List Cell :=
  (List.range count).map fun index : Nat => memory (offset + index)

def storeAt (memory : Int → Cell) (offset : Int) (cells : List Cell) : Int → Cell := fun place =>
  if offset ≤ place then (cells[(place - offset).toNat]?).getD (memory place) else memory place

section Memory

variable {memory changed : Int → Cell} {offset place : Int} {cells : List Cell} {count : Nat}

@[simp] theorem cells_at_length : (cellsAt memory offset count).length = count := by
  simp [cellsAt]

@[simp] theorem cells_at_get {index : Nat} (inside : index < (cellsAt memory offset count).length) :
    (cellsAt memory offset count)[index] = memory (offset + index) := by
  simp [cellsAt]

theorem cells_at_eq_iff : cellsAt memory offset cells.length = cells ↔
    ∀ index (inside : index < cells.length), memory (offset + index) = cells[index] := by
  constructor
  · intro same index inside
    have entry := List.getElem_of_eq same (i := index) (by simpa using inside)
    simpa using entry
  · intro same
    apply List.ext_getElem
    · simp
    · intro index _ inside
      rw [cells_at_get]
      exact same index inside

theorem cells_at_congr (same : ∀ place, offset ≤ place → place < offset + count →
    changed place = memory place) : cellsAt changed offset count = cellsAt memory offset count := by
  apply List.ext_getElem
  · simp
  · intro index inside _
    rw [cells_at_length] at inside
    rw [cells_at_get, cells_at_get]
    exact same _ (by omega) (by omega)

theorem cells_at_append {front back : List Cell} :
    cellsAt memory offset (front ++ back).length = front ++ back ↔
      cellsAt memory offset front.length = front ∧
        cellsAt memory (offset + front.length) back.length = back := by
  rw [cells_at_eq_iff, cells_at_eq_iff, cells_at_eq_iff]
  constructor
  · intro whole
    refine ⟨fun index inside => ?_, fun index inside => ?_⟩
    · have entry := whole index (by simp; omega)
      rwa [List.getElem_append_left inside] at entry
    · have entry := whole (front.length + index) (by simp; omega)
      rw [List.getElem_append_right (by omega)] at entry
      simpa [Int.add_assoc] using entry
  · rintro ⟨first, second⟩ index inside
    by_cases inFront : index < front.length
    · rw [List.getElem_append_left inFront]
      exact first index inFront
    · rw [List.getElem_append_right (by omega)]
      rw [List.length_append] at inside
      have entry := second (index - front.length) (by omega)
      rw [← entry]
      congr 1
      omega

theorem store_at_inside {index : Nat} (inside : index < cells.length) :
    storeAt memory offset cells (offset + index) = cells[index] := by
  have place : (offset + (index : Int) - offset).toNat = index := by omega
  rw [storeAt, if_pos (by omega), place, List.getElem?_eq_getElem inside, Option.getD_some]

theorem store_at_outside (outside : place < offset ∨ offset + cells.length ≤ place) :
    storeAt memory offset cells place = memory place := by
  rw [storeAt]
  split_ifs with lower
  · rw [List.getElem?_eq_none (by omega), Option.getD_none]
  · rfl

theorem cells_at_store : cellsAt (storeAt memory offset cells) offset cells.length = cells :=
  cells_at_eq_iff.mpr fun _ inside => store_at_inside inside

theorem cells_at_store_apart {other : Int}
    (apart : other + count ≤ offset ∨ offset + cells.length ≤ other) :
    cellsAt (storeAt memory offset cells) other count = cellsAt memory other count := by
  apply cells_at_congr
  intro place lower upper
  apply store_at_outside
  omega

end Memory

end MyJQL.Cells
