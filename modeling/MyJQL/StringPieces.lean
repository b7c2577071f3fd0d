import MyJQL.StringStore

/-!
# Loading a string piece by piece

`load_string` reads through its `const` record and leaves it behind the last byte that it returned. What
a sequence of calls returns is the string cut at the limits, wherever the limits fall in the chunks.
-/

namespace MyJQL.StringPieces

open MyJQL.FileIo
open MyJQL.StateProgram
open MyJQL.TableModel
open MyJQL.TableStore
open MyJQL.TableRefinement
open MyJQL.StringModel
open MyJQL.StringStore

set_option autoImplicit false

/-- One call of `load_string` for each limit, all with one record. -/
def loadStrings : List Nat → StringRecord → Program Table (List (List UInt8) × StringRecord)
  | [], record => pure ([], record)
  | maxSize :: limits, record => do
      let (piece, record) ← loadString maxSize record
      let (pieces, record) ← loadStrings limits record
      pure (piece :: pieces, record)

def cut : List UInt8 → List Nat → List (List UInt8)
  | _, [] => []
  | text, limit :: limits => text.take limit :: cut (text.drop limit) limits

section Cutting

variable (text : List UInt8) (limits : List Nat)

theorem cut_flatten : (cut text limits).flatten = text.take limits.sum := by
  induction limits generalizing text with
  | nil => simp [cut]
  | cons limit limits ih => rw [cut, List.flatten_cons, ih, List.sum_cons, List.take_add]

@[simp] theorem cut_length : (cut text limits).length = limits.length := by
  induction limits generalizing text with
  | nil => rfl
  | cons limit limits ih => rw [cut, List.length_cons, ih, List.length_cons]

theorem cut_take (count : Nat) : (cut text limits).take count = cut text (limits.take count) := by
  induction limits generalizing text count with
  | nil => simp [cut]
  | cons limit limits ih =>
      cases count with
      | zero => simp [cut]
      | succ count => rw [cut, List.take_succ_cons, ih, List.take_succ_cons, cut]

def returned (pieces : List (List UInt8)) (call : Nat) : Nat := (pieces.take call).flatten.length

theorem cut_returned (call : Nat) : text.drop (returned (cut text limits) call) = text.drop (limits.take call).sum := by
  rw [returned, cut_take, cut_flatten, List.length_take]
  rcases Nat.le_total (limits.take call).sum text.length with fits | all
  · rw [Nat.min_eq_left fits]
  · rw [Nat.min_eq_right all, List.drop_length, List.drop_eq_nil_of_le all]

theorem cut_piece {call : Nat} {limit : Nat} (found : limits[call]? = some limit) :
    (cut text limits)[call]? = some ((text.drop (limits.take call).sum).take limit) := by
  induction limits generalizing text call with
  | nil => simp at found
  | cons first limits ih =>
      cases call with
      | zero =>
          rw [List.getElem?_cons_zero, Option.some.injEq] at found
          simp [cut, found]
      | succ call =>
          rw [List.getElem?_cons_succ] at found
          rw [cut, List.getElem?_cons_succ, ih _ found, List.take_succ_cons, List.sum_cons, List.drop_drop]

end Cutting

/-- Each call returns the next bytes, as many as its limit allows and as there are left. -/
def Consecutive (text : List UInt8) (limits : List Nat) (pieces : List (List UInt8)) : Prop :=
  pieces.length = limits.length ∧ ∀ call limit, limits[call]? = some limit → ∃ piece, pieces[call]? = some piece ∧
    piece.length = min limit (text.length - returned pieces call) ∧
    piece = (text.drop (returned pieces call)).take limit

theorem cut_consecutive (text : List UInt8) (limits : List Nat) : Consecutive text limits (cut text limits) := by
  refine ⟨cut_length _ _, fun call limit found => ⟨_, cut_piece text limits found, ?_, ?_⟩⟩
  · rw [← cut_returned, List.length_take, List.length_drop]
  · rw [cut_returned]

theorem ensures_load_strings {heap : Heap} {record : StringRecord} {remaining : List UInt8} {limits : List Nat}
    {post : List (List UInt8) × StringRecord → Heap → Prop} (stands : Stands heap record remaining)
    (continues : ∀ following, Stands heap following (remaining.drop limits.sum) →
      post (cut remaining limits, following) heap) :
    Ensures TableHolds heap (loadStrings limits record) post := by
  induction limits generalizing record remaining post with
  | nil => exact ensures_pure _ (continues record stands)
  | cons limit limits ih =>
      rw [loadStrings]
      apply ensures_bind
      apply ensures_load_string stands
      intro between behind
      apply ensures_bind
      apply ih behind
      intro last lastStands
      rw [List.drop_drop, ← List.sum_cons] at lastStands
      exact ensures_pure _ (continues last lastStands)

/-- The tables that any use of strings reaches: reading them moves pages through the pools. -/
inductive StringUse : Table → Strings → Prop
  | reached {table : Table} {strings : Strings} (run : StringReachable table strings) : StringUse table strings
  | wrote {table after : Table} {strings : Strings} {data : List UInt8} {root : RID}
      (before : StringUse table strings) (ran : writeString data table = some (root, after)) :
      StringUse after (Function.update strings root (some data))
  | deleted {table after : Table} {strings : Strings} {root : RID} (before : StringUse table strings)
      (live : strings root ≠ none) (ran : deleteString root table = some ((), after)) :
      StringUse after (Function.update strings root none)
  | loaded {table after : Table} {strings : Strings} {root : RID} {limits : List Nat}
      {result : List (List UInt8) × StringRecord} (before : StringUse table strings) (live : strings root ≠ none)
      (ran : (readString root >>= loadStrings limits) table = some (result, after)) : StringUse after strings
  | compared {table after : Table} {strings : Strings} {first second : RID} {order : Int}
      (before : StringUse table strings) (live : strings first ≠ none) (other : strings second ≠ none)
      (ran : (readString first >>= fun a => readString second >>= compareStringRecord a) table = some (order, after)) :
      StringUse after strings

section Uses

variable {strings : Strings} {root : RID} {text : List UInt8}

theorem ensures_loads (live : strings root = some text) (limits : List Nat) :
    Ensures StringsHold strings (readString root >>= loadStrings limits) fun result after =>
      after = strings ∧ result.1 = cut text limits ∧
        hasNextChar result.2 = some (decide (text.drop limits.sum ≠ [])) := by
  apply ensures_strings_read
  intro heap stored
  obtain ⟨pieces, holds, rfl⟩ := stored root text live
  apply ensures_bind
  apply ensures_read_string holds
  intro item _ stands
  apply ensures_load_strings stands
  intro following behind
  exact ⟨rfl, rfl, rfl, has_next_char_stands behind⟩

theorem string_use_holds {table : Table} {strings : Strings} (use : StringUse table strings) :
    StringsHold strings table := by
  induction use with
  | reached run => exact string_reachable_holds run
  | wrote _ ran ih => exact strings_written ih ran
  | deleted _ live ran ih => exact strings_deleted ih live ran
  | @loaded table after strings root limits result before live ran ih =>
      obtain ⟨text, bound⟩ := Option.ne_none_iff_exists'.mp live
      obtain ⟨_, holds, rfl, _⟩ := allows_of_ensures (ensures_loads bound limits) table ih _ _ ran
      exact holds
  | @compared table after strings first second order before live other ran ih =>
      obtain ⟨left, leftBound⟩ := Option.ne_none_iff_exists'.mp live
      obtain ⟨right, rightBound⟩ := Option.ne_none_iff_exists'.mp other
      have compares : Ensures StringsHold strings
          (readString first >>= fun a => readString second >>= compareStringRecord a)
          fun _ after => after = strings := by
        apply ensures_strings_read
        intro heap stored
        obtain ⟨_, leftHolds, rfl⟩ := stored first left leftBound
        obtain ⟨_, rightHolds, rfl⟩ := stored second right rightBound
        apply ensures_bind
        apply ensures_read_string leftHolds
        intro _ _ standsLeft
        apply ensures_bind
        apply ensures_read_string rightHolds
        intro _ _ standsRight
        exact ensures_compare_string_record standsLeft standsRight ⟨rfl, rfl⟩
      obtain ⟨_, holds, rfl⟩ := allows_of_ensures compares table ih _ _ ran
      exact holds

/-- A record that is freshly read and then loaded from, with any limits. -/
theorem loads_resume : ∀ table strings, StringUse table strings → ∀ root text, strings root = some text →
    ∃ record fresh, readString root table = some (record, fresh) ∧ ∀ limits, ∃ pieces last after more,
      loadStrings limits record fresh = some ((pieces, last), after) ∧ Consecutive text limits pieces ∧
      pieces.flatten = text.take (min text.length limits.sum) ∧ hasNextChar last = some more ∧
      (more = false ↔ pieces.flatten = text) := by
  intro table strings use root text live
  obtain ⟨record, fresh, read, _⟩ := reads_back (string_use_holds use) live
  refine ⟨record, fresh, read, fun limits => ?_⟩
  obtain ⟨⟨_, last⟩, after, _, ran, _, _, rfl, more⟩ := ensures_loads live limits table (string_use_holds use)
  have loaded : loadStrings limits record fresh = some ((cut text limits, last), after) := by
    rw [← ran]
    change _ = (readString root table).bind _
    rw [read, Option.bind_some]
  refine ⟨cut text limits, last, after, _, loaded, cut_consecutive text limits, ?_, more, ?_⟩
  · rw [cut_flatten, List.take_eq_take_iff]
    omega
  · rw [cut_flatten, List.take_eq_self_iff, decide_eq_false_iff_not, not_not, List.drop_eq_nil_iff]

/-- A text of one chunk in two pieces. -/
theorem loads_resume_first_string : ∃ (table : Table) (strings : Strings) (root : RID) (record : StringRecord)
    (fresh : Table), StringUse table strings ∧ strings root = some [104, 105] ∧
      readString root table = some (record, fresh) ∧ ∃ pieces last after,
        loadStrings [1, 5] record fresh = some ((pieces, last), after) ∧ pieces.flatten = [104, 105] ∧
        hasNextChar last = some false := by
  obtain ⟨table, opened, holds⟩ := table_opened emptyDataDisk emptySpaceDisk rfl rfl blankTable
  have reached : StringUse table fun _ => none := .reached (.opened rfl rfl opened)
  have written : Ensures StringsHold (fun _ => none) (writeString [104, 105]) fun root after =>
      after = Function.update (fun _ => none) root (some [104, 105]) :=
    ensures_strings_write fun _ _ => rfl
  obtain ⟨root, after, _, ran, _, rfl⟩ := written table (string_use_holds reached)
  have live : Function.update (fun _ => none) root (some [104, 105]) root = some ([104, 105] : List UInt8) :=
    Function.update_self _ _ _
  obtain ⟨record, fresh, read, resumes⟩ := loads_resume after _ (.wrote reached ran) root [104, 105] live
  obtain ⟨pieces, last, final, more, loaded, _, all, next, done⟩ := resumes [1, 5]
  refine ⟨after, _, root, record, fresh, .wrote reached ran, live, read, pieces, last, final, loaded, all, ?_⟩
  rw [next, done.mpr all]

end Uses

end MyJQL.StringPieces
