import MyJQL.StringModel
import MyJQL.TableRefinement

/-!
# The string store

Over a heap of items a string is a linked list of chunks; over the strings a table is a partial map
from record ids to texts whose chunks are exactly the live items, each in one string.
-/

namespace MyJQL.StringStore

open MyJQL.FileIo
open MyJQL.StateProgram
open MyJQL.PageAccounting
open MyJQL.Cells
open MyJQL.TableModel
open MyJQL.TableStore
open MyJQL.TableRefinement
open MyJQL.StringModel

set_option autoImplicit false

section OneChunk

variable (next : RID) (size : Nat) (data : List UInt8)

theorem decode_encode_rid (rid : RID) (rest : List Cell) : decodeRid (encodeRid rid ++ rest) = some rid := by
  have first : (encodeRid rid ++ rest).take offBytes = encode offBytes rid.blockAddr := by
    simp [encodeRid]
  have second : ((encodeRid rid ++ rest).drop offBytes).take shortBytes = encode shortBytes rid.idx := by
    simp [encodeRid]
  rw [decodeRid, first, second, decode_encode (by decide), decode_encode (by decide)]
  rfl

@[simp] theorem encode_rid_length (rid : RID) : (encodeRid rid).length = ridBytes := by
  simp [encodeRid]

@[simp] theorem str_chunk_length : (strChunk next size data).length = 12 + data.length := by
  simp only [strChunk, List.length_append, encode_rid_length, encode_length, List.length_map, ridBytes,
    offBytes, shortBytes]

@[simp] theorem str_chunk_rid : getStrChunkRid (strChunk next size data) = some next := by
  rw [getStrChunkRid, strChunk, List.append_assoc]
  exact decode_encode_rid next _

@[simp] theorem str_chunk_size : getStrChunkSize (strChunk next size data) = some (size : Int) := by
  have field : ((strChunk next size data).drop ridBytes).take shortBytes = encode shortBytes size := by
    simp [strChunk]
  rw [getStrChunkSize, field, decode_encode (by decide)]

theorem str_chunk_char {index : Nat} (inside : index < data.length) :
    strChunkChar (strChunk next size data) index = some data[index] := by
  have place : ridBytes + shortBytes + (index : Int).toNat = 12 + index := by
    simp only [ridBytes, offBytes, shortBytes]
    omega
  have read : (strChunk next size data)[12 + index]? = some (Cell.char data[index]) := by
    have front : (encodeRid next ++ encode shortBytes (size : Int)).length = 12 := by
      simp only [List.length_append, encode_rid_length, encode_length, ridBytes, offBytes, shortBytes]
    rw [strChunk, List.getElem?_append_right (by omega), front, Nat.add_sub_cancel_left]
    simp [inside]
  rw [strChunkChar, if_pos (by omega), place, read]

end OneChunk

abbrev Piece := RID × List UInt8

def textOf (pieces : List Piece) : List UInt8 := pieces.flatMap Prod.snd
def chunksOf (pieces : List Piece) : List RID := pieces.map Prod.fst

/-- The chunks that the links from a record id on run through. -/
def Linked (heap : Heap) : RID → List Piece → Prop
  | rid, [] => rid = noRid
  | rid, piece :: rest => rid = piece.1 ∧ 0 ≤ rid.blockAddr ∧ piece.2.length ≤ strChunkMaxLen ∧
      ∃ next, heap rid = some (strChunk next piece.2.length piece.2) ∧ Linked heap next rest

/-- Only the first chunk may be empty, and only in the empty string. -/
structure HoldsString (heap : Heap) (root : RID) (pieces : List Piece) : Prop where
  linked : Linked heap root pieces
  nonempty : pieces ≠ []
  filled : ∀ piece ∈ pieces.tail, piece.2 ≠ []

/-- A record that stands somewhere in a string, with the characters still to come. -/
structure RecordAt (heap : Heap) (record : StringRecord) (remaining : List UInt8) (next : RID)
    (data : List UInt8) (idx : Nat) (pieces : List Piece) : Prop where
  record : record = ⟨strChunk next data.length data, idx⟩
  inside : idx ≤ data.length
  linked : Linked heap next pieces
  filled : ∀ piece ∈ pieces, piece.2 ≠ []
  text : remaining = data.drop idx ++ textOf pieces

/-- The characters that a record still has to come. -/
def Stands (heap : Heap) (record : StringRecord) (remaining : List UInt8) : Prop :=
  ∃ next data idx pieces, RecordAt heap record remaining next data idx pieces

section Reading

variable {heap changed : Heap} {root rid : RID} {pieces : List Piece} {record : StringRecord}
  {remaining : List UInt8} {char : UInt8}

theorem linked_frame (same : ∀ chunk ∈ chunksOf pieces, changed chunk = heap chunk)
    (linked : Linked heap rid pieces) : Linked changed rid pieces := by
  induction pieces generalizing rid with
  | nil => exact linked
  | cons piece rest ih =>
      obtain ⟨rfl, nonneg, short, next, item, behind⟩ := linked
      refine ⟨rfl, nonneg, short, next, ?_, ?_⟩
      · rw [same piece.1 (by simp [chunksOf]), item]
      · exact ih (fun chunk member => same chunk (List.mem_cons_of_mem _ member)) behind

theorem holds_string_frame (same : ∀ chunk ∈ chunksOf pieces, changed chunk = heap chunk)
    (holds : HoldsString heap root pieces) : HoldsString changed root pieces :=
  ⟨linked_frame same holds.linked, holds.nonempty, holds.filled⟩

theorem linked_live (linked : Linked heap rid pieces) : ∀ chunk ∈ chunksOf pieces, heap chunk ≠ none := by
  induction pieces generalizing rid with
  | nil =>
      intro chunk member
      cases member
  | cons piece rest ih =>
      obtain ⟨rfl, _, _, next, item, behind⟩ := linked
      intro chunk member
      rcases List.mem_cons.mp member with rfl | later
      · rw [item]
        exact Option.some_ne_none _
      · exact ih behind chunk later

theorem root_mem_chunks (holds : HoldsString heap root pieces) : root ∈ chunksOf pieces := by
  cases pieces with
  | nil => exact absurd rfl holds.nonempty
  | cons piece rest =>
      obtain ⟨rfl, _⟩ := holds.linked
      exact List.mem_cons_self

theorem live_nonneg {table : Table} {item : List Cell} (holds : TableHolds heap table)
    (live : heap rid = some item) : 0 ≤ rid.blockAddr := by
  obtain ⟨⟨store, entries⟩, ⟨heapHolds, _⟩, _⟩ := holds
  exact (in_file_bounds heapHolds (live_block heapHolds live).1).1

theorem ensures_read_chunk {piece : Piece} {rest : List Piece} {post : StringRecord → Heap → Prop}
    (linked : Linked heap rid (piece :: rest))
    (continues : ∀ next, heap rid = some (strChunk next piece.2.length piece.2) → Linked heap next rest →
      post ⟨strChunk next piece.2.length piece.2, 0⟩ heap) :
    Ensures TableHolds heap (readString rid) post := by
  obtain ⟨_, _, short, next, item, behind⟩ := linked
  rw [readString]
  apply ensures_bind
  apply ensures_table_read item
  apply ensures_bind
  apply ensures_check
  · simp only [str_chunk_length, strChunkMaxLen, strChunkMaxSize, ridBytes, offBytes, shortBytes] at short ⊢
    omega
  · exact ensures_pure _ (continues next item behind)

theorem ensures_read_string {post : StringRecord → Heap → Prop} (holds : HoldsString heap root pieces)
    (continues : ∀ item, heap root = some item → Stands heap ⟨item, 0⟩ (textOf pieces) →
      post ⟨item, 0⟩ heap) : Ensures TableHolds heap (readString root) post := by
  cases pieces with
  | nil => exact absurd rfl holds.nonempty
  | cons piece rest =>
      apply ensures_read_chunk holds.linked
      intro next item behind
      apply continues _ item
      refine ⟨next, piece.2, 0, rest, rfl, Nat.zero_le _, behind, holds.filled, ?_⟩
      simp [textOf]

theorem has_next_char_stands (stands : Stands heap record remaining) :
    hasNextChar record = some (decide (remaining ≠ [])) := by
  obtain ⟨next, data, idx, pieces, rfl, inside, linked, filled, text⟩ := stands
  rw [hasNextChar]
  simp only [str_chunk_size, str_chunk_rid, Option.bind_eq_bind, Option.bind_some]
  split_ifs with more
  · have still : data.drop idx ≠ [] := by
      rw [ne_eq, List.drop_eq_nil_iff]
      omega
    simp [text, still]
  · have done : data.drop idx = [] := List.drop_eq_nil_iff.mpr (by omega)
    rw [text, done, List.nil_append]
    cases pieces with
    | nil =>
        have isEnd : next = noRid := linked
        simp [isEnd, noRid, textOf]
    | cons piece rest =>
        have nonneg := linked.2.1
        have nonempty := filled piece List.mem_cons_self
        have notEnd : next.blockAddr ≠ -1 := by omega
        simp [notEnd, textOf, nonempty]

theorem ensures_next_char {post : UInt8 × StringRecord → Heap → Prop}
    (stands : Stands heap record (char :: remaining))
    (continues : ∀ following, Stands heap following remaining → post (char, following) heap) :
    Ensures TableHolds heap (nextChar record) post := by
  obtain ⟨next, data, idx, pieces, rfl, inside, linked, filled, text⟩ := stands
  rw [nextChar]
  apply ensures_bind
  apply ensures_of_option (str_chunk_size _ _ _)
  by_cases more : idx < data.length
  · rw [if_pos (Int.ofNat_lt.mpr more)]
    rw [List.drop_eq_getElem_cons more, List.cons_append, List.cons.injEq] at text
    apply ensures_bind
    apply ensures_of_option (str_chunk_char _ _ _ more)
    rw [← text.1]
    apply ensures_pure
    apply continues
    exact ⟨next, data, idx + 1, pieces, by simp, more, linked, filled, text.2⟩
  · rw [if_neg (fun less => more (Int.ofNat_lt.mp less))]
    have done : data.drop idx = [] := List.drop_eq_nil_iff.mpr (by omega)
    rw [done, List.nil_append] at text
    cases pieces with
    | nil => cases text
    | cons piece rest =>
        have nonempty := List.length_pos_iff.mpr (filled piece List.mem_cons_self)
        apply ensures_bind
        apply ensures_of_option (str_chunk_rid _ _ _)
        apply ensures_bind
        apply ensures_read_chunk linked
        intro following _ behind
        apply ensures_bind
        apply ensures_of_option (str_chunk_char _ _ _ nonempty)
        simp only [textOf, List.flatMap_cons] at text
        have split := List.drop_eq_getElem_cons nonempty
        rw [List.drop_zero] at split
        rw [split, List.cons_append, List.cons.injEq] at text
        rw [← text.1]
        apply ensures_pure
        apply continues
        refine ⟨following, piece.2, 1, rest, rfl, nonempty, behind, ?_, text.2⟩
        exact fun other member => filled other (List.mem_cons_of_mem _ member)

theorem ensures_sum_chunk_sizes {ans : Int} {next : RID} {data : List UInt8} {idx : Int}
    {post : Int → Heap → Prop} (linked : Linked heap next pieces)
    (continues : post (ans + (data ++ textOf pieces).length) heap) :
    Ensures TableHolds heap (sumChunkSizes ans ⟨strChunk next data.length data, idx⟩) post := by
  induction pieces generalizing ans next data idx with
  | nil =>
      have isEnd : next = noRid := linked
      rw [sum_chunk_sizes_eq]
      apply ensures_bind
      apply ensures_of_option (str_chunk_size _ _ _)
      apply ensures_bind
      apply ensures_of_option (str_chunk_rid _ _ _)
      rw [if_pos (by simp [isEnd, noRid])]
      apply ensures_pure
      simpa [textOf] using continues
  | cons piece rest ih =>
      have nonneg := linked.2.1
      rw [sum_chunk_sizes_eq]
      apply ensures_bind
      apply ensures_of_option (str_chunk_size _ _ _)
      apply ensures_bind
      apply ensures_of_option (str_chunk_rid _ _ _)
      rw [if_neg (by omega)]
      apply ensures_bind
      apply ensures_read_chunk linked
      intro following _ behind
      apply ih behind
      have total : ans + data.length + (piece.2 ++ textOf rest).length =
          ans + (data ++ textOf (piece :: rest)).length := by
        simp only [textOf, List.flatMap_cons, List.length_append]
        push_cast
        ring
      rw [total]
      exact continues

/-- The size does not depend on where in its first chunk the record stands. -/
theorem ensures_get_string_size {item : List Cell} {idx : Int} {post : Int × StringRecord → Heap → Prop}
    (holds : HoldsString heap root pieces) (read : heap root = some item)
    (continues : Stands heap ⟨item, 0⟩ (textOf pieces) → post ((textOf pieces).length, ⟨item, 0⟩) heap) :
    Ensures TableHolds heap (getStringSize ⟨item, idx⟩ root) post := by
  rw [getStringSize]
  apply ensures_bind
  cases split : pieces with
  | nil => exact absurd split holds.nonempty
  | cons piece rest =>
      obtain ⟨_, _, _, next, content, behind⟩ := split ▸ holds.linked
      rw [read] at content
      cases content
      apply ensures_sum_chunk_sizes behind
      apply ensures_bind
      apply ensures_read_string holds
      intro again sameItem stands
      rw [read] at sameItem
      cases sameItem
      apply ensures_pure
      have total : ((0 : Int) + (piece.2 ++ textOf rest).length) = (textOf pieces).length := by
        rw [split]
        simp [textOf]
      rw [total]
      exact continues stands

theorem ensures_load_string {maxSize : Nat} {post : List UInt8 × StringRecord → Heap → Prop}
    (stands : Stands heap record remaining)
    (continues : ∀ following, Stands heap following (remaining.drop maxSize) →
      post (remaining.take maxSize, following) heap) :
    Ensures TableHolds heap (loadString maxSize record) post := by
  induction maxSize generalizing record remaining post with
  | zero =>
      rw [loadString]
      apply ensures_bind
      apply ensures_of_option (has_next_char_stands stands)
      exact ensures_pure _ (continues record stands)
  | succ maxSize ih =>
      rw [loadString]
      apply ensures_bind
      apply ensures_of_option (has_next_char_stands stands)
      cases remaining with
      | nil => exact ensures_pure _ (continues record stands)
      | cons char rest =>
          simp only [ne_eq, reduceCtorEq, not_false_eq_true, decide_true, if_true]
          apply ensures_bind
          apply ensures_next_char stands
          intro following behind
          apply ensures_bind
          apply ih behind
          intro last lastStands
          exact ensures_pure _ (continues last lastStands)

/-- How the loop of `compare_string_record` decides. -/
def compareChars : List UInt8 → List UInt8 → Int
  | x :: xs, y :: ys =>
      if charValue x > charValue y then 1
      else if charValue x < charValue y then -1
      else compareChars xs ys
  | _ :: _, [] => 1
  | [], _ :: _ => -1
  | [], [] => 0

theorem ensures_compare_string_record {a b : StringRecord} {left right : List UInt8}
    {post : Int → Heap → Prop} (standsA : Stands heap a left) (standsB : Stands heap b right)
    (continues : post (compareChars left right) heap) :
    Ensures TableHolds heap (compareStringRecord a b) post := by
  induction left generalizing right a b with
  | nil =>
      rw [compare_string_record_eq]
      apply ensures_bind
      apply ensures_of_option (has_next_char_stands standsA)
      apply ensures_bind
      apply ensures_of_option (has_next_char_stands standsB)
      cases right with
      | nil => simpa [compareChars] using ensures_pure _ continues
      | cons y ys => simpa [compareChars] using ensures_pure _ continues
  | cons x xs ih =>
      rw [compare_string_record_eq]
      apply ensures_bind
      apply ensures_of_option (has_next_char_stands standsA)
      apply ensures_bind
      apply ensures_of_option (has_next_char_stands standsB)
      cases right with
      | nil => simpa [compareChars] using ensures_pure _ continues
      | cons y ys =>
          rw [if_pos (by simp)]
          apply ensures_bind
          apply ensures_next_char standsA
          intro nextA behindA
          apply ensures_bind
          apply ensures_next_char standsB
          intro nextB behindB
          rw [compareChars] at continues
          apply ensures_ite
          · intro greater
            rw [if_pos greater] at continues
            exact ensures_pure _ continues
          · intro notGreater
            rw [if_neg notGreater] at continues
            apply ensures_ite
            · intro less
              rw [if_pos less] at continues
              exact ensures_pure _ continues
            · intro notLess
              rw [if_neg notLess] at continues
              exact ih behindA behindB continues

end Reading

section Writing

variable {heap : Heap} {root rid : RID} {pieces : List Piece}

structure Added (heap changed : Heap) (pieces : List Piece) : Prop where
  fresh : ∀ chunk ∈ chunksOf pieces, heap chunk = none
  nodup : (chunksOf pieces).Nodup
  same : ∀ rid, rid ∉ chunksOf pieces → changed rid = heap rid

theorem ensures_insert_item {src : List Cell} {post : RID → Heap → Prop} (positive : 1 ≤ src.length)
    (fits : src.length ≤ 118)
    (continues : ∀ rid, heap rid = none → 0 ≤ rid.blockAddr →
      post rid (Function.update heap rid (some src))) :
    Ensures TableHolds heap (tableInsert src) post := by
  have inserted : Ensures TableHolds heap (tableInsert src) fun rid after =>
      heap rid = none ∧ after = Function.update heap rid (some src) :=
    ensures_table_insert positive fits fun rid dead => ⟨dead, rfl⟩
  intro table related
  obtain ⟨rid, after, changed, ran, holds, dead, rfl⟩ := inserted table related
  have live : Function.update heap rid (some src) rid = some src := Function.update_self _ _ _
  exact ⟨rid, after, _, ran, holds, continues rid dead (live_nonneg holds live)⟩

theorem ensures_write_chunk {current : Heap} {next : RID} {data : List UInt8} {size : Nat}
    {post : RID → Heap → Prop} (linked : Linked current next pieces) (added : Added heap current pieces)
    (length : data.length = size) (short : size ≤ strChunkMaxLen)
    (continues : ∀ written changed, Linked changed written ((written, data) :: pieces) →
      Added heap changed ((written, data) :: pieces) → post written changed) :
    Ensures TableHolds current (tableInsert (strChunk next size data)) post := by
  subst length
  have small : data.length ≤ 20 := short
  apply ensures_insert_item
  · simp only [str_chunk_length]
    omega
  · simp only [str_chunk_length]
    omega
  · intro written dead nonneg
    have notChunk : written ∉ chunksOf pieces := fun member => linked_live linked written member dead
    apply continues
    · refine ⟨rfl, nonneg, short, next, Function.update_self _ _ _, ?_⟩
      apply linked_frame _ linked
      intro chunk member
      apply Function.update_of_ne
      rintro rfl
      exact notChunk member
    · refine ⟨?_, List.nodup_cons.mpr ⟨notChunk, added.nodup⟩, ?_⟩
      · intro chunk member
        rcases List.mem_cons.mp member with own | old
        · rw [own, ← added.same written notChunk]
          exact dead
        · exact added.fresh chunk old
      · intro rid outside
        simp only [chunksOf, List.map_cons, List.mem_cons, not_or] at outside
        rw [Function.update_of_ne outside.1]
        exact added.same rid outside.2

theorem ensures_write_front {data : List UInt8} {num lastSize index : Nat} {current : Heap}
    {post : RID → Heap → Prop} (bound : index < num)
    (long : strChunkMaxLen * index ≤ data.length) (linked : Linked current rid pieces)
    (nonempty : pieces ≠ []) (text : textOf pieces = data.drop (strChunkMaxLen * index))
    (filled : ∀ piece ∈ pieces.tail, piece.2 ≠ []) (first : 1 ≤ index → ∀ piece ∈ pieces, piece.2 ≠ [])
    (added : Added heap current pieces)
    (continues : ∀ root written after, HoldsString after root written → textOf written = data →
      Added heap after written → post root after) :
    Ensures TableHolds current (writeChunks data num lastSize index rid) post := by
  induction index generalizing rid pieces current with
  | zero =>
      rw [writeChunks]
      apply ensures_pure
      exact continues rid pieces current ⟨linked, nonempty, filled⟩ (by simpa using text) added
  | succ index ih =>
      have full : ((data.drop (strChunkMaxLen * index)).take strChunkMaxLen).length = strChunkMaxLen := by
        simp only [List.length_take, List.length_drop]
        simp only [Nat.mul_add, Nat.mul_one] at long
        omega
      rw [writeChunks]
      simp only [if_neg (show index + 1 ≠ num by omega)]
      apply ensures_bind
      apply ensures_write_chunk linked added full le_rfl
      intro written changed writtenLinked writtenAdded
      have allFilled := first (by omega)
      apply ih (by omega) (by simp only [Nat.mul_add, Nat.mul_one] at long; omega) writtenLinked (by simp)
      · simp only [textOf, List.flatMap_cons] at text ⊢
        rw [text, Nat.mul_add, Nat.mul_one, ← List.drop_drop, List.take_append_drop]
      · exact allFilled
      · intro _ piece member
        rcases List.mem_cons.mp member with rfl | old
        · rw [← List.length_pos_iff, full]
          decide
        · exact allFilled piece old
      · exact writtenAdded

theorem ensures_write_string {data : List UInt8} {post : RID → Heap → Prop}
    (continues : ∀ root written after, HoldsString after root written → textOf written = data →
      Added heap after written → post root after) :
    Ensures TableHolds heap (writeString data) post := by
  obtain ⟨before, lastSize, num, last, total, short, full⟩ : ∃ before lastSize,
      (if data.length = 0 then 1 else (data.length - 1) / strChunkMaxLen + 1) = before + 1 ∧
      (if data.length = 0 then 0 else (data.length - 1) % strChunkMaxLen + 1) = lastSize ∧
      data.length = strChunkMaxLen * before + lastSize ∧ lastSize ≤ strChunkMaxLen ∧
      (1 ≤ before → 1 ≤ lastSize) := by
    by_cases empty : data.length = 0
    · exact ⟨0, 0, by simp [empty], by simp [empty], by simp [empty], by simp, by simp⟩
    · have split := Nat.div_add_mod (data.length - 1) strChunkMaxLen
      have less := Nat.mod_lt (data.length - 1) (show 0 < strChunkMaxLen by decide)
      exact ⟨_, _, if_neg empty, if_neg empty, by omega, by omega, by omega⟩
  have rest : ((data.drop (strChunkMaxLen * before)).take lastSize) = data.drop (strChunkMaxLen * before) := by
    apply List.take_of_length_le
    rw [List.length_drop]
    omega
  have restLength : (data.drop (strChunkMaxLen * before)).length = lastSize := by
    rw [List.length_drop]
    omega
  simp only [writeString, num, last]
  rw [writeChunks]
  simp only [if_true, rest]
  apply ensures_bind
  apply ensures_write_chunk (show Linked heap noRid [] from rfl)
    (show Added heap heap [] from ⟨by simp [chunksOf], by simp [chunksOf], fun _ _ => rfl⟩) restLength short
  intro written changed writtenLinked writtenAdded
  apply ensures_write_front (by omega) (by omega) writtenLinked (by simp) (by simp [textOf]) (by simp) _
    writtenAdded continues
  intro more piece member
  rw [List.mem_singleton.mp member, ← List.length_pos_iff, restLength]
  exact full more

def without (heap : Heap) (chunks : List RID) : Heap := fun rid => if rid ∈ chunks then none else heap rid

theorem ensures_delete_string {post : Unit → Heap → Prop} (linked : Linked heap root pieces)
    (nonempty : pieces ≠ []) (nodup : (chunksOf pieces).Nodup)
    (continues : post () (without heap (chunksOf pieces))) :
    Ensures TableHolds heap (deleteString root) post := by
  induction pieces generalizing heap root with
  | nil => exact absurd rfl nonempty
  | cons piece rest ih =>
      obtain ⟨rfl, _, short, next, item, behind⟩ := linked
      have small : piece.2.length ≤ 20 := short
      simp only [chunksOf, List.map_cons, List.nodup_cons] at nodup
      have removed : without (Function.update heap piece.1 none) (chunksOf rest) =
          without heap (chunksOf (piece :: rest)) := by
        funext rid
        simp only [without, chunksOf, List.map_cons, List.mem_cons, Function.update_apply]
        by_cases own : rid = piece.1
        · simp [own]
        · simp only [own, false_or, if_false]
      rw [delete_string_eq]
      apply ensures_bind
      apply ensures_table_read item
      apply ensures_bind
      apply ensures_check
      · simp only [str_chunk_length, strChunkMaxSize]
        omega
      apply ensures_bind
      apply ensures_of_option (str_chunk_rid _ _ _)
      apply ensures_bind
      apply ensures_table_delete item
      cases rest with
      | nil =>
          have isEnd : next = noRid := behind
          rw [if_neg (by simp [isEnd, noRid])]
          have same : without (Function.update heap piece.1 none) (chunksOf []) =
              Function.update heap piece.1 none := by
            funext rid
            simp [without, chunksOf]
          rw [← removed, same] at continues
          exact ensures_pure _ continues
      | cons second rest =>
          have nonneg := behind.2.1
          rw [if_pos (by omega)]
          apply ih _ (by simp) nodup.2
          · rw [removed]
            exact continues
          · apply linked_frame _ behind
            intro chunk member
            apply Function.update_of_ne
            rintro rfl
            exact nodup.1 member

end Writing

/-- The live strings of a table, each under the record id of its first chunk. -/
abbrev Strings := RID → Option (List UInt8)

/-- The live items are the chunks of the strings, each in one place of one string. -/
structure OwnsChunks (heap : Heap) (strings : Strings) (pieces : RID → List Piece) : Prop where
  holds : ∀ root text, strings root = some text →
    HoldsString heap root (pieces root) ∧ textOf (pieces root) = text
  nodup : ∀ root, strings root ≠ none → (chunksOf (pieces root)).Nodup
  apart : ∀ root other, strings root ≠ none → strings other ≠ none → root ≠ other →
    ∀ chunk ∈ chunksOf (pieces root), chunk ∉ chunksOf (pieces other)
  owned : ∀ rid, heap rid ≠ none → ∃ root, strings root ≠ none ∧ rid ∈ chunksOf (pieces root)

def OwnedBy (strings : Strings) (heap : Heap) : Prop := ∃ pieces, OwnsChunks heap strings pieces

def StringsHold (strings : Strings) (table : Table) : Prop :=
  ∃ heap, OwnedBy strings heap ∧ TableHolds heap table

section AllStrings

variable {strings : Strings} {heap : Heap} {pieces : RID → List Piece} {root : RID} {text : List UInt8}

theorem owns_live (owns : OwnsChunks heap strings pieces) (live : strings root ≠ none) :
    HoldsString heap root (pieces root) := by
  obtain ⟨text, bound⟩ := Option.ne_none_iff_exists'.mp live
  exact (owns.holds root text bound).1

theorem owns_added {written : List Piece} {changed : Heap} (owns : OwnsChunks heap strings pieces)
    (holds : HoldsString changed root written) (added : Added heap changed written) :
    strings root = none ∧ OwnsChunks changed (Function.update strings root (some (textOf written)))
      (Function.update pieces root written) := by
  have notLive : ∀ other, strings other ≠ none → ∀ chunk ∈ chunksOf (pieces other),
      chunk ∉ chunksOf written := by
    intro other live chunk member new
    exact linked_live (owns_live owns live).linked chunk member (added.fresh chunk new)
  have dead : strings root = none := by
    by_contra live
    exact notLive root live root (root_mem_chunks (owns_live owns live)) (root_mem_chunks holds)
  refine ⟨dead, ?_, ?_, ?_, ?_⟩
  · intro other text bound
    by_cases own : other = root
    · subst own
      rw [Function.update_self, Option.some.injEq] at bound
      rw [Function.update_self]
      exact ⟨holds, bound⟩
    · rw [Function.update_of_ne own] at bound ⊢
      obtain ⟨old, same⟩ := owns.holds other text bound
      refine ⟨holds_string_frame ?_ old, same⟩
      intro chunk member
      exact added.same chunk (notLive other (by simp [bound]) chunk member)
  · intro other live
    by_cases own : other = root
    · rw [own, Function.update_self]
      exact added.nodup
    · rw [Function.update_of_ne own] at live ⊢
      exact owns.nodup other live
  · intro first second firstLive secondLive different chunk member
    by_cases ownFirst : first = root
    · have ownSecond : second ≠ root := fun same => different (ownFirst.trans same.symm)
      rw [ownFirst, Function.update_self] at member
      rw [Function.update_of_ne ownSecond] at secondLive ⊢
      exact fun other => notLive second secondLive chunk other member
    · rw [Function.update_of_ne ownFirst] at firstLive member
      by_cases ownSecond : second = root
      · rw [ownSecond, Function.update_self]
        exact notLive first firstLive chunk member
      · rw [Function.update_of_ne ownSecond] at secondLive ⊢
        exact owns.apart first second firstLive secondLive different chunk member
  · intro rid live
    by_cases new : rid ∈ chunksOf written
    · exact ⟨root, by simp, by rw [Function.update_self]; exact new⟩
    · rw [added.same rid new] at live
      obtain ⟨other, otherLive, member⟩ := owns.owned rid live
      have own : other ≠ root := by
        rintro rfl
        exact otherLive dead
      exact ⟨other, by rwa [Function.update_of_ne own], by rwa [Function.update_of_ne own]⟩

theorem owns_without (owns : OwnsChunks heap strings pieces) (live : strings root ≠ none) :
    OwnsChunks (without heap (chunksOf (pieces root))) (Function.update strings root none) pieces := by
  have stays : ∀ other, Function.update strings root none other ≠ none →
      other ≠ root ∧ strings other ≠ none := by
    intro other bound
    have different : other ≠ root := by
      rintro rfl
      exact bound (Function.update_self _ _ _)
    exact ⟨different, by rwa [Function.update_of_ne different] at bound⟩
  refine ⟨?_, ?_, ?_, ?_⟩
  · intro other text bound
    obtain ⟨different, otherLive⟩ := stays other (by simp [bound])
    rw [Function.update_of_ne different] at bound
    obtain ⟨old, same⟩ := owns.holds other text bound
    refine ⟨holds_string_frame ?_ old, same⟩
    intro chunk member
    exact if_neg (owns.apart other root otherLive live different chunk member)
  · intro other bound
    exact owns.nodup other (stays other bound).2
  · intro first second firstBound secondBound
    exact owns.apart first second (stays first firstBound).2 (stays second secondBound).2
  · intro rid ridLive
    by_cases gone : rid ∈ chunksOf (pieces root)
    · exact absurd (if_pos gone) ridLive
    · rw [without, if_neg gone] at ridLive
      obtain ⟨other, otherLive, member⟩ := owns.owned rid ridLive
      have different : other ≠ root := by
        rintro rfl
        exact gone member
      exact ⟨other, by rwa [Function.update_of_ne different], member⟩

theorem ensures_strings_write {data : List UInt8} {post : RID → Strings → Prop}
    (continues : ∀ root, strings root = none → post root (Function.update strings root (some data))) :
    Ensures StringsHold strings (writeString data) post := by
  apply ensures_lift
  rintro heap ⟨pieces, owns⟩
  apply ensures_write_string
  intro root written after holds text added
  obtain ⟨dead, afterOwns⟩ := owns_added owns holds added
  rw [text] at afterOwns
  exact ⟨_, ⟨_, afterOwns⟩, continues root dead⟩

theorem ensures_strings_delete {post : Unit → Strings → Prop} (live : strings root = some text)
    (continues : post () (Function.update strings root none)) :
    Ensures StringsHold strings (deleteString root) post := by
  have bound : strings root ≠ none := by simp [live]
  apply ensures_lift
  rintro heap ⟨pieces, owns⟩
  have holds := owns_live owns bound
  apply ensures_delete_string holds.linked holds.nonempty (owns.nodup root bound)
  exact ⟨_, ⟨_, owns_without owns bound⟩, continues⟩

theorem ensures_strings_read {Value : Type} {program : Program Table Value} {post : Value → Strings → Prop}
    (reads : ∀ heap, (∀ root text, strings root = some text →
        ∃ pieces, HoldsString heap root pieces ∧ textOf pieces = text) →
      Ensures TableHolds heap program fun value after => after = heap ∧ post value strings) :
    Ensures StringsHold strings program post := by
  apply ensures_lift
  rintro heap ⟨pieces, owns⟩
  apply ensures_mono (reads heap fun root text bound => ⟨pieces root, owns.holds root text bound⟩)
  rintro value after ⟨rfl, holds⟩
  exact ⟨strings, ⟨pieces, owns⟩, holds⟩

end AllStrings

/-- The tables that writing and deleting strings reach from empty files, each with its live strings. -/
inductive StringReachable : Table → Strings → Prop
  | opened {dataDisk : Disk BlockModel.Block} {fsmDisk : Disk HashMapModel.HashPage} {memory table : Table}
      (dataEmpty : dataDisk.size = 0) (fsmEmpty : fsmDisk.size = 0)
      (ran : tableInit dataDisk fsmDisk memory = some ((), table)) : StringReachable table fun _ => none
  | wrote {table after : Table} {strings : Strings} {data : List UInt8} {root : RID}
      (before : StringReachable table strings) (ran : writeString data table = some (root, after)) :
      StringReachable after (Function.update strings root (some data))
  | deleted {table after : Table} {strings : Strings} {root : RID} (before : StringReachable table strings)
      (live : strings root ≠ none) (ran : deleteString root table = some ((), after)) :
      StringReachable after (Function.update strings root none)

theorem strings_written {table after : Table} {strings : Strings} {data : List UInt8} {root : RID}
    (holds : StringsHold strings table) (ran : writeString data table = some (root, after)) :
    StringsHold (Function.update strings root (some data)) after := by
  have written : Ensures StringsHold strings (writeString data) fun root after =>
      after = Function.update strings root (some data) := ensures_strings_write fun _ _ => rfl
  obtain ⟨_, afterHolds, rfl⟩ := allows_of_ensures written table holds _ _ ran
  exact afterHolds

theorem strings_deleted {table after : Table} {strings : Strings} {root : RID} (holds : StringsHold strings table)
    (live : strings root ≠ none) (ran : deleteString root table = some ((), after)) :
    StringsHold (Function.update strings root none) after := by
  obtain ⟨text, bound⟩ := Option.ne_none_iff_exists'.mp live
  have removed : Ensures StringsHold strings (deleteString root) fun _ after =>
      after = Function.update strings root none := ensures_strings_delete bound rfl
  obtain ⟨_, afterHolds, rfl⟩ := allows_of_ensures removed table holds _ _ ran
  exact afterHolds

theorem string_reachable_holds {table : Table} {strings : Strings} (run : StringReachable table strings) :
    StringsHold strings table := by
  induction run with
  | opened dataEmpty fsmEmpty ran =>
      obtain ⟨table, same, holds⟩ := table_opened _ _ dataEmpty fsmEmpty _
      rw [ran] at same
      cases same
      refine ⟨_, ⟨fun _ => [], ?_, ?_, ?_, ?_⟩, holds⟩ <;> simp
  | wrote _ ran ih => exact strings_written ih ran
  | deleted _ live ran ih => exact strings_deleted ih live ran

/-- Asking for one character after the other yields exactly the text. -/
def Yields (table : Table) (record : StringRecord) : List UInt8 → Prop
  | [] => hasNextChar record = some false
  | char :: rest => hasNextChar record = some true ∧ ∃ following after,
      nextChar record table = some ((char, following), after) ∧ Yields after following rest

/-- A string reads back, and its size leaves the record as it was when freshly read. -/
def ReadsBack (table : Table) (root : RID) (text : List UInt8) : Prop :=
  ∃ record after, readString root table = some (record, after) ∧ record.idx = 0 ∧
    Yields after record text ∧
    ∃ final, getStringSize record root after = some (((text.length : Int), record), final)

/-- The items that the chunk links from a record id on run through. -/
def ChunkWalk (live : Heap) : RID → List RID → Prop
  | rid, [] => rid.blockAddr = -1
  | rid, chunk :: rest => rid.blockAddr ≠ -1 ∧ rid = chunk ∧ ∃ item next, live rid = some item ∧
      getStrChunkRid item = some next ∧ ChunkWalk live next rest

section RoundTrip

variable {table : Table} {strings : Strings} {heap : Heap} {root : RID} {text : List UInt8}

theorem stands_yields {record : StringRecord} (holds : TableHolds heap table)
    (stands : Stands heap record text) : Yields table record text := by
  induction text generalizing table record with
  | nil => exact has_next_char_stands stands
  | cons char rest ih =>
      have runs : Ensures TableHolds heap (nextChar record) fun value after =>
          after = heap ∧ value.1 = char ∧ Stands heap value.2 rest :=
        ensures_next_char stands fun following behind => ⟨rfl, rfl, behind⟩
      obtain ⟨⟨_, following⟩, after, _, ran, afterHolds, rfl, rfl, behind⟩ := runs table holds
      exact ⟨has_next_char_stands stands, following, after, ran, ih afterHolds behind⟩

theorem reads_back (holds : StringsHold strings table) (live : strings root = some text) :
    ReadsBack table root text := by
  obtain ⟨heap, ⟨pieces, owns⟩, tableHolds⟩ := holds
  obtain ⟨stored, rfl⟩ := owns.holds root text live
  have reads : Ensures TableHolds heap (readString root) fun record after => after = heap ∧
      ∃ item, record = ⟨item, 0⟩ ∧ heap root = some item ∧ Stands heap record (textOf (pieces root)) :=
    ensures_read_string stored fun item found stands => ⟨rfl, item, rfl, found, stands⟩
  obtain ⟨record, after, current, ran, afterHolds, rfl, item, rfl, found, stands⟩ := reads table tableHolds
  have sizes : Ensures TableHolds current (getStringSize ⟨item, 0⟩ root) fun value _ =>
      value = (((textOf (pieces root)).length : Int), ⟨item, 0⟩) :=
    ensures_get_string_size stored found fun _ => rfl
  obtain ⟨_, final, _, sized, _, rfl⟩ := sizes after afterHolds
  exact ⟨⟨item, 0⟩, after, ran, rfl, stands_yields afterHolds stands, final, sized⟩

theorem linked_walk {pieces : List Piece} (linked : Linked heap root pieces) :
    ChunkWalk heap root (chunksOf pieces) := by
  induction pieces generalizing root with
  | nil =>
      have isEnd : root = noRid := linked
      rw [isEnd]
      exact rfl
  | cons piece rest ih =>
      obtain ⟨own, nonneg, _, next, item, behind⟩ := linked
      exact ⟨by omega, own, _, next, item, str_chunk_rid _ _ _, ih behind⟩

/-- Every live string reads back; writing gives a new string that reads back as well; deleting frees
the chunks of one string. -/
theorem strings_round_trip : ∀ table strings, StringReachable table strings →
    (∀ root text, strings root = some text → ReadsBack table root text) ∧
    (∀ data, ∃ root after, writeString data table = some (root, after) ∧ strings root = none ∧
      ReadsBack after root data ∧
      ∀ other text, strings other = some text → ReadsBack after other text) ∧
    ∀ root text, strings root = some text → ∃ chunks after, ChunkWalk (liveItem table) root chunks ∧
      chunks.Nodup ∧ deleteString root table = some ((), after) ∧
      (∀ rid, liveItem after rid = if rid ∈ chunks then none else liveItem table rid) ∧
      ∀ other text, other ≠ root → strings other = some text → ReadsBack after other text := by
  intro table strings run
  have holds := string_reachable_holds run
  refine ⟨fun root text => reads_back holds, ?_, ?_⟩
  · intro data
    have written : Ensures StringsHold strings (writeString data) fun root after =>
        strings root = none ∧ after = Function.update strings root (some data) :=
      ensures_strings_write fun _ dead => ⟨dead, rfl⟩
    obtain ⟨root, after, _, ran, afterHolds, dead, rfl⟩ := written table holds
    refine ⟨root, after, ran, dead, reads_back afterHolds (Function.update_self _ _ _), ?_⟩
    intro other text bound
    apply reads_back afterHolds
    rw [Function.update_of_ne]
    · exact bound
    · rintro rfl
      rw [dead] at bound
      cases bound
  · intro root text bound
    have live : strings root ≠ none := by simp [bound]
    obtain ⟨heap, ⟨pieces, owns⟩, tableHolds⟩ := holds
    have stored := owns_live owns live
    have removed : Ensures TableHolds heap (deleteString root) fun _ after =>
        after = without heap (chunksOf (pieces root)) :=
      ensures_delete_string stored.linked stored.nonempty (owns.nodup root live) rfl
    obtain ⟨_, after, _, ran, afterHolds, rfl⟩ := removed table tableHolds
    refine ⟨chunksOf (pieces root), after, ?_, owns.nodup root live, ran, ?_, ?_⟩
    · rw [table_holds_live tableHolds]
      exact linked_walk stored.linked
    · intro rid
      rw [table_holds_live afterHolds, table_holds_live tableHolds]
      rfl
    · intro other text different otherBound
      have afterStrings : StringsHold (Function.update strings root none) after :=
        ⟨_, ⟨pieces, owns_without owns live⟩, afterHolds⟩
      apply reads_back afterStrings
      rw [Function.update_of_ne different]
      exact otherBound

/-- The first string of a new table. -/
theorem strings_round_trip_first_string : ∃ (table after : Table) (root : RID),
    StringReachable table (fun _ => none) ∧ writeString [104, 105] table = some (root, after) ∧
      ReadsBack after root [104, 105] := by
  obtain ⟨table, ran, _⟩ := table_opened emptyDataDisk emptySpaceDisk rfl rfl blankTable
  have reachable : StringReachable table fun _ => none := .opened rfl rfl ran
  obtain ⟨root, after, written, _, reads, _⟩ :=
    (strings_round_trip table _ reachable).2.1 [104, 105]
  exact ⟨table, after, root, reachable, written, reads⟩

end RoundTrip

end MyJQL.StringStore
