import MyJQL.BTreeSearch
import MyJQL.DatabaseModel
import MyJQL.FiniteGraphs
import MyJQL.StringStore
import Mathlib.Data.List.Lex

/-!
# Records and the strings they own

A table of records and a table of strings, as the multisets of what they hold. Every record owns the
strings that it refers to, and the callbacks of the tree keep it so: they make and free whole records
together with their keys.
-/

namespace MyJQL.RecordStore

open MyJQL.StateProgram
open MyJQL.Cells
open MyJQL.TableModel
open MyJQL.TableStore
open MyJQL.StringModel
open MyJQL.StringStore
open MyJQL.BTreeModel
open MyJQL.BTreeLayout
open MyJQL.BTreeSearch
open MyJQL.DatabaseModel
open MyJQL.FiniteGraphs
open MyJQL.KeyValueStore (Bytes)

set_option autoImplicit false

/-- Texts are ordered character by character, a prefix before what continues it. -/
def SortKey : Type := List Int

instance : LinearOrder SortKey := inferInstanceAs (LinearOrder (List Int))

def sortKey (text : Bytes) : SortKey := text.map charValue

theorem char_value_injective : Function.Injective charValue := by
  intro first second same
  have : first.toInt8 = second.toInt8 := Int8.toInt_inj.mp same
  simpa using congrArg Int8.toUInt8 this

theorem sort_key_injective : Function.Injective sortKey := char_value_injective.list_map

private theorem compare_chars_values (left right : Bytes) :
    Agrees (compareChars left right) (left.map charValue) (right.map charValue) := by
  induction left generalizing right with
  | nil =>
      cases right with
      | nil => simp [Agrees, compareChars]
      | cons y ys => simp [Agrees, compareChars]
  | cons x xs ih =>
      cases right with
      | nil => simp [Agrees, compareChars]
      | cons y ys =>
          obtain ⟨less, same⟩ := ih ys
          simp only [Agrees, compareChars, List.map_cons, List.cons_lt_cons_iff, List.cons.injEq]
          split_ifs with above below
          · simp [above, ne_of_gt above]
          · simp [not_lt_of_gt below, ne_of_gt below, ne_of_lt below]
          · have equal : charValue x = charValue y := by omega
            simp only [equal, lt_irrefl, false_or, true_and]
            exact ⟨less, same⟩

theorem compare_chars_agrees (left right : Bytes) :
    Agrees (compareChars left right) (sortKey left) (sortKey right) := compare_chars_values left right

theorem compare_ptr_loop (p s : Bytes) : (match comparePtrLoop p s with
    | some order => order
    | none => if p.length > s.length then 1 else if p.length < s.length then -1 else 0) = compareChars p s := by
  induction p generalizing s with
  | nil =>
      cases s with
      | nil => rfl
      | cons y ys => simp [comparePtrLoop, compareChars]
  | cons x xs ih =>
      cases s with
      | nil => simp [comparePtrLoop, compareChars]
      | cons y ys =>
          have behind := ih ys
          by_cases above : charValue x > charValue y
          · simp only [comparePtrLoop, compareChars, if_pos above]
          · by_cases below : charValue x < charValue y
            · simp only [comparePtrLoop, compareChars, if_neg above, if_pos below]
            · simp only [comparePtrLoop, compareChars, if_neg above, if_neg below, List.length_cons,
                gt_iff_lt, add_lt_add_iff_right] at behind ⊢
              exact behind

theorem compare_chars_take (p text : Bytes) {count : Nat} (enough : p.length < count) :
    compareChars p (text.take count) = compareChars p text := by
  induction p generalizing text count with
  | nil =>
      obtain ⟨rest, rfl⟩ : ∃ rest, count = rest + 1 := ⟨count - 1, by simp at enough; omega⟩
      cases text <;> rfl
  | cons x xs ih =>
      simp only [List.length_cons] at enough
      obtain ⟨rest, rfl⟩ : ∃ rest, count = rest + 1 := ⟨count - 1, by omega⟩
      cases text with
      | nil => rfl
      | cons y ys => simp only [List.take_succ_cons, compareChars, ih ys (show xs.length < rest by omega)]

@[simp] theorem encode_record_length (record : Record) : (encodeRecord record).length = recordBytes := by
  simp [encodeRecord, recordBytes, two_mul]

theorem decode_encode_record (record : Record) : decodeRecord (encodeRecord record) = some record := by
  have key : (encodeRecord record).take ridBytes = encodeRid record.key ++ [] := by
    simp [encodeRecord]
  have value : (encodeRecord record).drop ridBytes = encodeRid record.value ++ [] := by
    simp [encodeRecord]
  rw [decodeRecord, key, value, decode_encode_rid, decode_encode_rid]
  rfl

/-- The second half of `rid_row_row_cmp`. -/
def compareTexts (a b : RID) : Program Table Int := do
  let sreA ← readString a
  let sreB ← readString b
  compareStringRecord sreA sreB

/-- The size of a string and as many of its characters as the size calls for. -/
def loadText (room : Int → Nat) (root : RID) : Program Table (Int × Bytes) := do
  let sre ← readString root
  let (size, sre) ← getStringSize sre root
  let (s, _) ← loadString (room size) sre
  pure (size, s)

def loadStart (room : Nat) (root : RID) : Program Table Bytes := do
  let sre ← readString root
  let (s, _) ← loadString room sre
  pure s

/-- The record table holds exactly these records. -/
def HoldsRecords (records : Multiset (RID × Record)) (table : Table) : Prop :=
  ∃ heap, Graph heap (records.map fun entry => (entry.1, encodeRecord entry.2)) ∧ TableHolds heap table

/-- The string table holds exactly these strings. -/
def HoldsTexts (texts : Multiset (RID × Bytes)) (table : Table) : Prop :=
  ∃ strings, Graph strings texts ∧ StringsHold strings table

section Records

variable {records : Multiset (RID × Record)} {rid : RID} {record : Record}

theorem ensures_read_record {post : Record → Multiset (RID × Record) → Prop} (member : (rid, record) ∈ records)
    (continues : post record records) : Ensures HoldsRecords records (readRecord rid) post := by
  apply ensures_lift
  intro heap graph
  have live : heap rid = some (encodeRecord record) :=
    (graph.mem _ _).mp (Multiset.mem_map_of_mem (fun entry => (entry.1, encodeRecord entry.2)) member)
  rw [readRecord]
  apply ensures_bind
  apply ensures_table_read live
  apply ensures_bind
  apply ensures_check (by simp)
  exact ensures_of_option (decode_encode_record record) ⟨records, graph, continues⟩

theorem ensures_write_record {post : RID → Multiset (RID × Record) → Prop}
    (continues : ∀ rid, rid ∉ records.map Prod.fst → post rid ((rid, record) ::ₘ records)) :
    Ensures HoldsRecords records (writeRecord record) post := by
  apply ensures_lift
  intro heap graph
  rw [writeRecord]
  apply ensures_table_insert (by rw [encode_record_length]; decide) (by rw [encode_record_length]; decide)
  intro rid dead
  refine ⟨(rid, record) ::ₘ records, ?_, continues rid ?_⟩
  · rw [Multiset.map_cons]
    exact graph_insert graph dead
  · intro member
    apply (graph_live graph).mpr _ dead
    rw [Multiset.map_map]
    exact member

theorem ensures_delete_record {post : Unit → Multiset (RID × Record) → Prop} (member : (rid, record) ∈ records)
    (continues : post () (records.erase (rid, record))) : Ensures HoldsRecords records (deleteRecord rid) post := by
  apply ensures_lift
  intro heap graph
  have present := Multiset.mem_map_of_mem (fun entry => (entry.1, encodeRecord entry.2)) member
  rw [deleteRecord]
  apply ensures_table_delete ((graph.mem _ _).mp present)
  refine ⟨records.erase (rid, record), ?_, continues⟩
  rw [Multiset.map_erase_of_mem _ _ member]
  exact graph_erase graph present

end Records

section Texts

variable {texts : Multiset (RID × Bytes)} {root : RID} {text : Bytes}

theorem ensures_write_text {post : RID → Multiset (RID × Bytes) → Prop}
    (continues : ∀ root, root ∉ texts.map Prod.fst → post root ((root, text) ::ₘ texts)) :
    Ensures HoldsTexts texts (writeString text) post := by
  apply ensures_lift
  intro strings graph
  apply ensures_strings_write
  intro root dead
  refine ⟨(root, text) ::ₘ texts, graph_insert graph dead, continues root ?_⟩
  intro member
  exact (graph_live graph).mpr member dead

theorem ensures_delete_text {post : Unit → Multiset (RID × Bytes) → Prop} (member : (root, text) ∈ texts)
    (continues : post () (texts.erase (root, text))) : Ensures HoldsTexts texts (deleteString root) post := by
  apply ensures_lift
  intro strings graph
  apply ensures_strings_delete ((graph.mem _ _).mp member)
  exact ⟨texts.erase (root, text), graph_erase graph member, continues⟩

theorem ensures_texts_read {Value : Type} {program : Program Table Value} {post : Value → Multiset (RID × Bytes) → Prop}
    (reads : ∀ heap,
      (∀ root text, (root, text) ∈ texts → ∃ pieces, HoldsString heap root pieces ∧ textOf pieces = text) →
      Ensures TableHolds heap program fun value after => after = heap ∧ post value texts) :
    Ensures HoldsTexts texts program post := by
  apply ensures_lift
  intro strings graph
  apply ensures_strings_read
  intro heap holds
  apply ensures_mono (reads heap fun root text member => holds root text ((graph.mem _ _).mp member))
  rintro value after ⟨rfl, satisfied⟩
  exact ⟨rfl, texts, graph, satisfied⟩

theorem ensures_compare_texts {a b : RID} {left right : Bytes} {post : Int → Multiset (RID × Bytes) → Prop}
    (isLeft : (a, left) ∈ texts) (isRight : (b, right) ∈ texts) (continues : post (compareChars left right) texts) :
    Ensures HoldsTexts texts (compareTexts a b) post := by
  apply ensures_texts_read
  intro heap holds
  obtain ⟨leftPieces, leftHolds, rfl⟩ := holds a left isLeft
  obtain ⟨rightPieces, rightHolds, rfl⟩ := holds b right isRight
  rw [compareTexts]
  apply ensures_bind
  apply ensures_read_string leftHolds
  intro leftItem _ standsLeft
  apply ensures_bind
  apply ensures_read_string rightHolds
  intro rightItem _ standsRight
  exact ensures_compare_string_record standsLeft standsRight ⟨rfl, continues⟩

theorem ensures_load_text {room : Int → Nat} {post : Int × Bytes → Multiset (RID × Bytes) → Prop}
    (member : (root, text) ∈ texts) (continues : post (text.length, text.take (room text.length)) texts) :
    Ensures HoldsTexts texts (loadText room root) post := by
  apply ensures_texts_read
  intro heap holds
  obtain ⟨pieces, stored, rfl⟩ := holds root text member
  rw [loadText]
  apply ensures_bind
  apply ensures_read_string stored
  intro item found _
  apply ensures_bind
  apply ensures_get_string_size stored found
  intro stands
  apply ensures_bind
  apply ensures_load_string stands
  intro following _
  exact ensures_pure _ ⟨rfl, continues⟩

theorem ensures_load_start {room : Nat} {post : Bytes → Multiset (RID × Bytes) → Prop}
    (member : (root, text) ∈ texts) (continues : post (text.take room) texts) :
    Ensures HoldsTexts texts (loadStart room root) post := by
  apply ensures_texts_read
  intro heap holds
  obtain ⟨pieces, stored, rfl⟩ := holds root text member
  rw [loadStart]
  apply ensures_bind
  apply ensures_read_string stored
  intro item _ stands
  apply ensures_bind
  apply ensures_load_string stands
  intro following _
  exact ensures_pure _ ⟨rfl, continues⟩

end Texts

/-- A record with its texts. The value of a copy that was made for a separator is never written. -/
structure Holding where
  rid : RID
  record : Record
  key : Bytes
  value : Option Bytes

namespace Holding

def entry (holding : Holding) : Entry SortKey := (holding.rid, sortKey holding.key)

def item (holding : Holding) : RID × Record := (holding.rid, holding.record)

def texts (holding : Holding) : Multiset (RID × Bytes) :=
  (holding.record.key, holding.key) ::ₘ match holding.value with
    | some value => {(holding.record.value, value)}
    | none => 0

end Holding

abbrev Filed : Multiset (RID × Record) × Multiset (RID × Bytes) → Tables → Prop := Both HoldsRecords HoldsTexts

/-- The two tables hold the records of a shelf and their texts, and nothing else. -/
def Shelved (shelf : Multiset Holding) : Tables → Prop :=
  Filed (shelf.map Holding.item, shelf.bind Holding.texts)

/-- How the tables stand between two calls of the callbacks: the records of the caller, and one copy for
each separator. -/
def Stocked (rows : Multiset Holding) (separators : Multiset (Entry SortKey)) (tables : Tables) : Prop :=
  ∃ copies, copies.map Holding.entry = separators ∧ (∀ copy ∈ copies, copy.value = none) ∧
    Shelved (rows + copies) tables

section Rules

variable {Value : Type} {records : Multiset (RID × Record)} {texts : Multiset (RID × Bytes)}
  {post : Value → Multiset (RID × Record) × Multiset (RID × Bytes) → Prop}

theorem ensures_rec {program : Program Table Value}
    (holds : Ensures HoldsRecords records program fun value after => post value (after, texts)) :
    Ensures Filed (records, texts) (onRec program) post := ensures_first holds

theorem ensures_str {program : Program Table Value}
    (holds : Ensures HoldsTexts texts program fun value after => post value (records, after)) :
    Ensures Filed (records, texts) (onStr program) post := ensures_second holds

end Rules

section Shelf

variable {shelf : Multiset Holding} {holding : Holding} {value : Bytes}

theorem item_mem (member : holding ∈ shelf) : (holding.rid, holding.record) ∈ shelf.map Holding.item :=
  Multiset.mem_map_of_mem Holding.item member

theorem key_mem (member : holding ∈ shelf) : (holding.record.key, holding.key) ∈ shelf.bind Holding.texts :=
  Multiset.mem_bind.mpr ⟨holding, member, Multiset.mem_cons_self _ _⟩

theorem value_mem (member : holding ∈ shelf) (written : holding.value = some value) :
    (holding.record.value, value) ∈ shelf.bind Holding.texts := by
  apply Multiset.mem_bind.mpr
  refine ⟨holding, member, ?_⟩
  simp [Holding.texts, written]

theorem texts_of_copy (copy : holding.value = none) : holding.texts = {(holding.record.key, holding.key)} := by
  rw [Holding.texts, copy]
  rfl

theorem texts_of_row (written : holding.value = some value) :
    holding.texts = (holding.record.key, holding.key) ::ₘ {(holding.record.value, value)} := by
  rw [Holding.texts, written]

end Shelf

section Callbacks

variable {rows : Multiset Holding} {separators : Multiset (Entry SortKey)}

theorem ensures_stocked {Value : Type} {program : Program Tables Value} {post : Value → Multiset (Entry SortKey) → Prop}
    (holds : ∀ copies, copies.map Holding.entry = separators → (∀ copy ∈ copies, copy.value = none) →
      Ensures Filed ((rows + copies).map Holding.item, (rows + copies).bind Holding.texts) program fun value after =>
        ∃ final, after = ((rows + final).map Holding.item, (rows + final).bind Holding.texts) ∧
          (∀ copy ∈ final, copy.value = none) ∧ post value (final.map Holding.entry)) :
    Ensures (Stocked rows) separators program post := by
  rintro tables ⟨copies, same, isCopy, shelved⟩
  obtain ⟨value, after, _, ran, filed, final, rfl, finalCopy, satisfied⟩ := holds copies same isCopy tables shelved
  exact ⟨value, after, _, ran, ⟨final, rfl, finalCopy, filed⟩, satisfied⟩

theorem ensures_stocked_read {Value : Type} {program : Program Tables Value}
    {post : Value → Multiset (Entry SortKey) → Prop}
    (holds : ∀ shelf : Multiset Holding, shelf.map Holding.entry = rows.map Holding.entry + separators →
      Ensures Filed (shelf.map Holding.item, shelf.bind Holding.texts) program fun value after =>
        after = (shelf.map Holding.item, shelf.bind Holding.texts) ∧ post value separators) :
    Ensures (Stocked rows) separators program post := by
  apply ensures_stocked
  rintro copies rfl isCopy
  apply ensures_mono (holds (rows + copies) (Multiset.map_add _ _ _))
  rintro value after ⟨rfl, satisfied⟩
  exact ⟨copies, rfl, isCopy, satisfied⟩

theorem rid_row_row_cmp_eq (a b : RID) : ridRowRowCmp a b = (do
    let reA ← onRec (readRecord a)
    let reB ← onRec (readRecord b)
    onStr (compareTexts reA.key reB.key)) := by
  simp only [ridRowRowCmp, compareTexts, onStr, Part.run_bind]

theorem ensures_rid_row_row_cmp {shelf : Multiset Holding} {first second : Holding}
    {post : Int → Multiset (RID × Record) × Multiset (RID × Bytes) → Prop} (isFirst : first ∈ shelf)
    (isSecond : second ∈ shelf)
    (continues : post (compareChars first.key second.key) (shelf.map Holding.item, shelf.bind Holding.texts)) :
    Ensures Filed (shelf.map Holding.item, shelf.bind Holding.texts) (ridRowRowCmp first.rid second.rid) post := by
  rw [rid_row_row_cmp_eq]
  apply ensures_bind
  apply ensures_rec
  apply ensures_read_record (item_mem isFirst)
  apply ensures_bind
  apply ensures_rec
  apply ensures_read_record (item_mem isSecond)
  apply ensures_str
  exact ensures_compare_texts (key_mem isFirst) (key_mem isSecond) continues

theorem rid_ptr_row_cmp_eq (p : Bytes) (b : RID) : ridPtrRowCmp p b = (do
    let reB ← onRec (readRecord b)
    let s ← onStr (loadStart (p.length + 2) reB.key)
    pure (compareChars p s)) := by
  simp only [ridPtrRowCmp, loadStart, onStr, Part.run_bind, bind_assoc, ← compare_ptr_loop]
  rfl

theorem ensures_rid_ptr_row_cmp {shelf : Multiset Holding} {p : Bytes} {holding : Holding}
    {post : Int → Multiset (RID × Record) × Multiset (RID × Bytes) → Prop} (member : holding ∈ shelf)
    (continues : post (compareChars p holding.key) (shelf.map Holding.item, shelf.bind Holding.texts)) :
    Ensures Filed (shelf.map Holding.item, shelf.bind Holding.texts) (ridPtrRowCmp p holding.rid) post := by
  rw [rid_ptr_row_cmp_eq]
  apply ensures_bind
  apply ensures_rec
  apply ensures_read_record (item_mem member)
  apply ensures_bind
  apply ensures_str
  apply ensures_load_start (key_mem member)
  apply ensures_pure
  rw [compare_chars_take p holding.key (by omega)]
  exact continues

theorem insert_handler_eq (rid : RID) : insertHandler rid = (do
    let re ← onRec (readRecord rid)
    let (_, s) ← onStr (loadText (fun size => size.toNat + 1) re.key)
    let ridKey ← onStr (writeString s)
    onRec (writeRecord ⟨ridKey, noRid⟩)) := by
  simp only [insertHandler, loadText, onStr, Part.run_bind, bind_assoc]
  rfl

theorem known_holding {shelf : Multiset Holding} {entry : Entry SortKey} (member : entry ∈ shelf.map Holding.entry) :
    ∃ holding ∈ shelf, entry.1 = holding.rid ∧ entry.2 = sortKey holding.key := by
  obtain ⟨holding, inShelf, rfl⟩ := Multiset.mem_map.mp member
  exact ⟨holding, inShelf, rfl, rfl⟩

theorem record_contract (rows : Multiset Holding) :
    Contract (Stocked rows) (rows.map Holding.entry) recordCallbacks where
  cmp := by
    intro separators first second isFirst isSecond
    apply ensures_stocked_read
    intro shelf entries
    rw [← entries] at isFirst isSecond
    obtain ⟨left, inLeft, leftRid, leftKey⟩ := known_holding isFirst
    obtain ⟨right, inRight, rightRid, rightKey⟩ := known_holding isSecond
    rw [leftRid, rightRid, leftKey, rightKey]
    exact ensures_rid_row_row_cmp inLeft inRight ⟨rfl, rfl, compare_chars_agrees _ _⟩
  insertHandler := by
    intro separators entry member
    apply ensures_stocked
    rintro copies rfl isCopy
    rw [← Multiset.map_add] at member
    obtain ⟨holding, inShelf, ridEq, keyEq⟩ := known_holding member
    rw [ridEq, keyEq, show recordCallbacks.insertHandler = insertHandler from rfl, insert_handler_eq]
    apply ensures_bind
    apply ensures_rec
    apply ensures_read_record (item_mem inShelf)
    apply ensures_bind
    apply ensures_str
    apply ensures_load_text (key_mem inShelf)
    apply ensures_bind
    apply ensures_str
    apply ensures_write_text
    intro root _
    apply ensures_rec
    apply ensures_write_record
    intro rid _
    have whole : holding.key.take ((holding.key.length : Int).toNat + 1) = holding.key :=
      List.take_of_length_le (by omega)
    refine ⟨⟨rid, ⟨root, noRid⟩, holding.key, none⟩ ::ₘ copies, ?_, ?_, ?_⟩
    · rw [whole, Multiset.add_cons, Multiset.map_cons, Multiset.cons_bind, texts_of_copy rfl, Multiset.singleton_add]
      rfl
    · intro copy listed
      rcases Multiset.mem_cons.mp listed with rfl | old
      · rfl
      · exact isCopy copy old
    · rw [Multiset.map_cons]
      rfl
  deleteHandler := by
    intro separators entry member
    apply ensures_stocked
    rintro copies rfl isCopy
    obtain ⟨holding, inCopies, rfl⟩ := Multiset.mem_map.mp member
    obtain ⟨rest, rfl⟩ := Multiset.exists_cons_of_mem inCopies
    have inShelf : holding ∈ rows + holding ::ₘ rest := Multiset.mem_add.mpr (.inr inCopies)
    change Ensures Filed _ (deleteHandler holding.rid) _
    rw [deleteHandler]
    apply ensures_bind
    apply ensures_rec
    apply ensures_read_record (item_mem inShelf)
    apply ensures_bind
    apply ensures_str
    apply ensures_delete_text (key_mem inShelf)
    apply ensures_rec
    apply ensures_delete_record (item_mem inShelf)
    refine ⟨rest, ?_, fun copy listed => isCopy copy (Multiset.mem_cons_of_mem listed), ?_⟩
    · rw [Multiset.add_cons, Multiset.map_cons, Multiset.cons_bind,
        texts_of_copy (isCopy holding (Multiset.mem_cons_self _ _)), Multiset.singleton_add,
        Multiset.erase_cons_head]
      exact congrArg₂ Prod.mk (Multiset.erase_cons_head _ _) rfl
    · rw [Multiset.map_cons, Multiset.erase_cons_head]

end Callbacks

end MyJQL.RecordStore
