import Mathlib.Data.List.Basic
import Mathlib.Logic.Function.Basic
import MyJQL.StateProgram

/-!
# The line reader of the shell

`read_input` of `myjqlshell.cpp`, over the bytes that are still to come on the standard input. `getchar`
returns the end of file again and again. `char` is signed on the platforms the project is built for.
Storing outside the buffer and a loop that never ends get the reader stuck.
-/

namespace MyJQL.ShellInput

open MyJQL.StateProgram

set_option autoImplicit false

abbrev inputBufferSize : Nat := 1024

abbrev newline : Int := 10
abbrev eof : Int := -1

inductive InputResult where
  | success
  | tooLong
  deriving DecidableEq

structure Shell where
  input : List UInt8
  buffer : Nat → Int8
  length : Nat

def getchar : Program Shell Int := fun shell =>
  match shell.input with
  | [] => some (eof, shell)
  | byte :: rest => some (byte.toNat, { shell with input := rest })

def storeChar (index : Nat) (char : Int8) : Program Shell Unit := do
  check (index < inputBufferSize + 1)
  modify fun shell => { shell with buffer := Function.update shell.buffer index char }

def charAt (index : Nat) : Program Shell Int := do
  check (index < inputBufferSize + 1)
  let shell ← get
  pure (shell.buffer index).toInt

def lastChar : Program Shell Int := do
  let shell ← get
  check (1 ≤ shell.length)
  charAt (shell.length - 1)

/-- `input_buffer.buffer[input_buffer.length++] = getchar()`, whose value is the `char`. -/
def appendChar : Program Shell Int := do
  let value ← getchar
  let shell ← get
  storeChar shell.length (Int8.ofInt value)
  modify fun shell => { shell with length := shell.length + 1 }
  pure (Int8.ofInt value).toInt

def fillTurn (_ : Unit) : Program Shell (Unit ⊕ Unit) := do
  let shell ← get
  if shell.length ≤ inputBufferSize then
    let char ← appendChar
    if char ≠ newline then
      let last ← lastChar
      if last ≠ eof then pure (.inl ()) else pure (.inr ())
    else pure (.inr ())
  else pure (.inr ())

def fillBuffer : Program Shell Unit := loop fillTurn ()

theorem fill_buffer_eq : fillBuffer = (do
    let shell ← get
    if shell.length ≤ inputBufferSize then
      let char ← appendChar
      if char ≠ newline then
        let last ← lastChar
        if last ≠ eof then fillBuffer else pure ()
      else pure ()
    else pure ()) := by
  conv_lhs => rw [fillBuffer, loop_eq, fillTurn]
  simp only [bind_assoc, bind_ite, pure_bind, afterTurn]
  rfl

def discardTurn (_ : Unit) : Program Shell (Unit ⊕ Unit) := do
  let value ← getchar
  pure (if value ≠ newline then .inl () else .inr ())

def discardLine : Program Shell Unit := loop discardTurn ()

/-- Nothing is returned where the process exits. -/
def readInput : Program Shell (Option InputResult) := do
  modify fun shell => { shell with length := 0 }
  fillBuffer
  let last ← lastChar
  if last = eof then pure none
  else
    modify fun shell => { shell with length := shell.length - 1 }
    let shell ← get
    let following ← charAt shell.length
    if shell.length = inputBufferSize ∧ following ≠ newline then
      discardLine
      pure (some .tooLong)
    else
      storeChar shell.length 0
      pure (some .success)

/-- What a call leaves for the caller: the characters of the buffer with the zero behind them. -/
inductive Reading where
  | success (chars : List Int8)
  | tooLong
  deriving DecidableEq

def readingOf (shell : Shell) : InputResult → Reading
  | .success => .success ((List.range (shell.length + 1)).map shell.buffer)
  | .tooLong => .tooLong

def readTurn (readings : List Reading) : Program Shell (List Reading ⊕ List Reading) := do
  let result ← readInput
  match result with
  | none => pure (.inr readings)
  | some result => do
      let shell ← get
      pure (.inl (readings ++ [readingOf shell result]))

/-- One call after the other, until the process exits, behind the calls that have returned. -/
def readOn (readings : List Reading) : Program Shell (List Reading) := loop readTurn readings

def readAll : Program Shell (List Reading) := readOn []

/-- The lines that a newline ends, and what follows the last newline. -/
def splitLines : List UInt8 → List (List UInt8) × List UInt8
  | [] => ([], [])
  | byte :: input =>
      if byte = 10 then ([] :: (splitLines input).1, (splitLines input).2)
      else match (splitLines input).1 with
        | [] => ([], byte :: (splitLines input).2)
        | line :: lines => ((byte :: line) :: lines, (splitLines input).2)

section Splitting

variable {line rest input : List UInt8}

theorem split_lines_rest (unended : 10 ∉ rest) : splitLines rest = ([], rest) := by
  induction rest with
  | nil => rfl
  | cons byte rest ih =>
      rw [List.mem_cons, not_or] at unended
      rw [splitLines, if_neg (Ne.symm unended.1), ih unended.2]

theorem split_lines_line (unended : 10 ∉ line) :
    splitLines (line ++ 10 :: input) = (line :: (splitLines input).1, (splitLines input).2) := by
  induction line with
  | nil => rw [List.nil_append, splitLines, if_pos rfl]
  | cons byte line ih =>
      rw [List.mem_cons, not_or] at unended
      rw [List.cons_append, splitLines, if_neg (Ne.symm unended.1), ih unended.2]

theorem split_lines_joined (input : List UInt8) :
    (splitLines input).1.flatMap (fun line => line ++ [10]) ++ (splitLines input).2 = input := by
  induction input with
  | nil => rfl
  | cons byte input ih =>
      rw [splitLines]
      split_ifs with ended
      · simp [ended, ih]
      · cases lines : (splitLines input).1 with
        | nil => simpa [lines] using ih
        | cons line others => simpa [lines] using ih

end Splitting

def expected (input : List UInt8) : List Reading :=
  (splitLines input).1.map fun line =>
    if line.length ≤ inputBufferSize then .success (line.map UInt8.toInt8 ++ [0]) else .tooLong

/-- Among the bytes that `read_input` takes into the buffer is none that narrows to `EOF`. -/
def Kept (bytes : List UInt8) : Prop := 255 ∉ bytes.take (inputBufferSize + 1)

/-- Each line is kept, and what follows the last newline ends the reader. -/
def Readable (input : List UInt8) : Prop :=
  (∀ line ∈ (splitLines input).1, Kept line) ∧
    ((splitLines input).2.length ≤ inputBufferSize ∨ ¬Kept (splitLines input).2)

theorem char_of_byte (byte : UInt8) : Int8.ofInt byte.toNat = byte.toInt8 := by
  simp [Int8.ofInt, UInt8.toInt8]

theorem char_eq_iff (byte other : UInt8) : byte.toInt8.toInt = other.toInt8.toInt ↔ byte = other := by
  rw [Int8.toInt_inj]
  constructor
  · intro same
    rw [← byte.toUInt8_toInt8, same, other.toUInt8_toInt8]
  · rintro rfl
    rfl

theorem char_newline (byte : UInt8) : byte.toInt8.toInt = newline ↔ byte = 10 := char_eq_iff byte 10

theorem char_eof (byte : UInt8) : byte.toInt8.toInt = eof ↔ byte = 255 := char_eq_iff byte 255

section Steps

variable {input rest : List UInt8} {buffer : Nat → Int8} {length : Nat} {byte : UInt8}

theorem get_state (shell : Shell) : (get : Program Shell Shell) shell = some (shell, shell) := rfl

theorem store_char (shell : Shell) {index : Nat} (char : Int8) (room : index ≤ inputBufferSize) :
    storeChar index char shell = some ((), { shell with buffer := Function.update shell.buffer index char }) := by
  rw [storeChar, check_passes (Nat.lt_succ_of_le room), pure_bind]
  rfl

theorem char_at (shell : Shell) {index : Nat} (room : index ≤ inputBufferSize) :
    charAt index shell = some ((shell.buffer index).toInt, shell) := by
  rw [charAt, check_passes (Nat.lt_succ_of_le room), pure_bind]
  rfl

theorem last_char (room : length ≤ inputBufferSize) :
    lastChar ⟨input, buffer, length + 1⟩ = some ((buffer length).toInt, ⟨input, buffer, length + 1⟩) := by
  rw [lastChar, bind_ran (get_state _), check_passes (Nat.le_add_left 1 length), pure_bind]
  exact char_at _ room

theorem append_char (room : length ≤ inputBufferSize) :
    appendChar ⟨byte :: rest, buffer, length⟩ =
      some (byte.toInt8.toInt, ⟨rest, Function.update buffer length byte.toInt8, length + 1⟩) := by
  have taken : getchar ⟨byte :: rest, buffer, length⟩ = some ((byte.toNat : Int), ⟨rest, buffer, length⟩) := rfl
  rw [appendChar, bind_ran taken, bind_ran (get_state _), bind_ran (store_char _ _ room), char_of_byte]
  rfl

theorem append_char_end (room : length ≤ inputBufferSize) :
    appendChar ⟨[], buffer, length⟩ = some (eof, ⟨[], Function.update buffer length (-1), length + 1⟩) := by
  have ended : getchar ⟨[], buffer, length⟩ = some (eof, ⟨[], buffer, length⟩) := rfl
  rw [appendChar, bind_ran ended, bind_ran (get_state _), bind_ran (store_char _ _ room)]
  rfl

theorem fill_full : fillBuffer ⟨input, buffer, inputBufferSize + 1⟩ =
    some ((), ⟨input, buffer, inputBufferSize + 1⟩) := by
  rw [fill_buffer_eq]
  rfl

theorem fill_turn {start after : Shell} {char : Int} (room : start.length ≤ inputBufferSize)
    (appended : appendChar start = some (char, after)) (moved : after.length = start.length + 1)
    (stored : (after.buffer start.length).toInt = char) :
    fillBuffer start = if char ≠ newline ∧ char ≠ eof then fillBuffer after else some ((), after) := by
  have last : lastChar after = some (char, after) := by
    obtain ⟨input, buffer, length⟩ := after
    cases moved
    rw [last_char room, stored]
  conv_lhs => rw [fill_buffer_eq, bind_ran (get_state _), if_pos room, bind_ran appended]
  by_cases ended : char = newline
  · rw [if_neg (not_not.mpr ended), if_neg fun both => both.1 ended]
    rfl
  · rw [if_pos ended, bind_ran last]
    by_cases atEof : char = eof
    · rw [if_neg (not_not.mpr atEof), if_neg fun both => both.2 atEof]
      rfl
    · rw [if_pos atEof, if_pos ⟨ended, atEof⟩]

theorem fill_byte (room : length ≤ inputBufferSize) : fillBuffer ⟨byte :: rest, buffer, length⟩ =
    if byte ≠ 10 ∧ byte ≠ 255 then fillBuffer ⟨rest, Function.update buffer length byte.toInt8, length + 1⟩
    else some ((), ⟨rest, Function.update buffer length byte.toInt8, length + 1⟩) := by
  have room' : (⟨byte :: rest, buffer, length⟩ : Shell).length ≤ inputBufferSize := room
  have held := congrArg Int8.toInt (Function.update_self length byte.toInt8 buffer)
  rw [fill_turn room' (append_char room) rfl held]
  simp only [ne_eq, char_newline, char_eof]

theorem fill_end (room : length ≤ inputBufferSize) : fillBuffer ⟨[], buffer, length⟩ =
    some ((), ⟨[], Function.update buffer length (-1), length + 1⟩) := by
  have room' : (⟨[], buffer, length⟩ : Shell).length ≤ inputBufferSize := room
  have held := congrArg Int8.toInt (Function.update_self length (-1) buffer)
  rw [fill_turn room' (append_char_end room) rfl held, if_neg fun both => both.2 rfl]

def stored (buffer : Nat → Int8) (first : Nat) : List UInt8 → Nat → Int8
  | [] => buffer
  | byte :: bytes => stored (Function.update buffer first byte.toInt8) (first + 1) bytes

theorem stored_below {buffer : Nat → Int8} {first index : Nat} {bytes : List UInt8} (below : index < first) :
    stored buffer first bytes index = buffer index := by
  induction bytes generalizing buffer first with
  | nil => rfl
  | cons byte bytes ih => rw [stored, ih (by omega), Function.update_of_ne (by omega)]

theorem stored_byte (buffer : Nat → Int8) {first index : Nat} {bytes : List UInt8} (reached : first ≤ index)
    (inside : index < first + bytes.length) : ∃ byte ∈ bytes, stored buffer first bytes index = byte.toInt8 := by
  induction bytes generalizing buffer first with
  | nil =>
      rw [List.length_nil] at inside
      omega
  | cons byte bytes ih =>
      rw [List.length_cons] at inside
      rcases Nat.eq_or_lt_of_le reached with rfl | further
      · exact ⟨byte, List.mem_cons_self, by rw [stored, stored_below (Nat.lt_succ_self _), Function.update_self]⟩
      · obtain ⟨other, member, same⟩ := ih _ further (by omega)
        exact ⟨other, List.mem_cons_of_mem _ member, same⟩

theorem stored_chars (buffer : Nat → Int8) (first : Nat) (bytes : List UInt8) :
    (List.range bytes.length).map (fun index => stored buffer first bytes (first + index)) =
      bytes.map UInt8.toInt8 := by
  induction bytes generalizing buffer first with
  | nil => rfl
  | cons byte bytes ih =>
      have later := ih (Function.update buffer first byte.toInt8) (first + 1)
      have own : stored (Function.update buffer first byte.toInt8) (first + 1) bytes (first + 0) = byte.toInt8 := by
        change stored _ (first + 1) bytes first = _
        rw [stored_below (Nat.lt_succ_self first), Function.update_self]
      simp only [Nat.add_right_comm first 1, Nat.add_assoc] at later
      rw [List.length_cons, List.range_succ_eq_map, List.map_cons, List.map_map, List.map_cons, stored, ← later,
        own]
      rfl

theorem fill_bytes {bytes : List UInt8} (unended : 10 ∉ bytes) (kept : 255 ∉ bytes)
    (room : length + bytes.length ≤ inputBufferSize + 1) :
    fillBuffer ⟨bytes ++ rest, buffer, length⟩ =
      fillBuffer ⟨rest, stored buffer length bytes, length + bytes.length⟩ := by
  induction bytes generalizing buffer length with
  | nil => rfl
  | cons byte bytes ih =>
      rw [List.mem_cons, not_or] at unended kept
      rw [List.length_cons] at room ⊢
      rw [List.cons_append, fill_byte (by omega), if_pos ⟨Ne.symm unended.1, Ne.symm kept.1⟩,
        ih unended.2 kept.2 (by omega), stored, Nat.add_right_comm, Nat.add_assoc]

/-- A byte that narrows to `EOF` stops the loop as the end of the input does. -/
theorem fill_eof (buffer : Nat → Int8) (room : length ≤ inputBufferSize)
    (atEof : input = [] ∨ ∃ rest, input = 255 :: rest) :
    ∃ rest, fillBuffer ⟨input, buffer, length⟩ =
      some ((), ⟨rest, Function.update buffer length (-1), length + 1⟩) := by
  obtain rfl | ⟨rest, rfl⟩ := atEof
  · exact ⟨[], fill_end room⟩
  · rw [fill_byte room, if_neg fun both => both.2 rfl]
    exact ⟨rest, rfl⟩

theorem discard_turn_byte : discardTurn () ⟨byte :: rest, buffer, length⟩ =
    some (if byte = 10 then .inr () else .inl (), ⟨rest, buffer, length⟩) := by
  have taken : getchar ⟨byte :: rest, buffer, length⟩ = some ((byte.toNat : Int), ⟨rest, buffer, length⟩) := rfl
  have same : (byte.toNat : Int) = newline ↔ byte = 10 := by
    rw [← UInt8.toNat_inj, ← Int.ofNat_inj]
    rfl
  rw [discardTurn, bind_ran taken]
  simp only [ne_eq, same, ite_not]
  rfl

theorem discard_line {line : List UInt8} (unended : 10 ∉ line) :
    discardLine ⟨line ++ 10 :: rest, buffer, length⟩ = some ((), ⟨rest, buffer, length⟩) := by
  induction line with
  | nil =>
      rw [discardLine, loop_eq, List.nil_append, bind_ran discard_turn_byte]
      rfl
  | cons byte line ih =>
      rw [List.mem_cons, not_or] at unended
      rw [discardLine, loop_eq, List.cons_append, bind_ran discard_turn_byte, if_neg (Ne.symm unended.1)]
      exact ih unended.2

/-- Without a newline the loop runs on at the end of the input. -/
theorem discard_endless (unended : 10 ∉ rest) : discardLine ⟨rest, buffer, length⟩ = none := by
  have returns : ∀ outcome, discardLine ⟨rest, buffer, length⟩ = some outcome → 10 ∈ rest := by
    intro outcome ran
    refine loop_returns (fun _ start _ => 10 ∈ start.input) ?_ ?_ ran
    · rintro ⟨⟩ ⟨input, buffer, length⟩ result after turn
      cases input with
      | nil => cases turn
      | cons byte input =>
          rw [discard_turn_byte] at turn
          by_cases ended : byte = 10
          · exact List.mem_cons.mpr (.inl ended.symm)
          · rw [if_neg ended] at turn
            cases turn
    · rintro ⟨⟩ ⟨input, buffer, length⟩ next after outcome turn later
      cases input with
      | nil =>
          cases turn
          exact later
      | cons byte input =>
          rw [discard_turn_byte] at turn
          by_cases ended : byte = 10
          · exact List.mem_cons.mpr (.inl ended.symm)
          · rw [if_neg ended] at turn
            cases turn
            exact List.mem_cons_of_mem _ later
  by_contra ran
  obtain ⟨outcome, ran⟩ := Option.ne_none_iff_exists'.mp ran
  exact unended (returns outcome ran)

theorem read_input_filled {filled : Nat → Int8} {count : Nat} (room : count ≤ inputBufferSize)
    (ran : fillBuffer ⟨input, buffer, 0⟩ = some ((), ⟨rest, filled, count + 1⟩)) :
    readInput ⟨input, buffer, length⟩ =
      if (filled count).toInt = eof then some (none, ⟨rest, filled, count + 1⟩)
      else if count = inputBufferSize ∧ (filled count).toInt ≠ newline then
        (discardLine >>= fun _ => pure (some .tooLong)) ⟨rest, filled, count⟩
      else some (some .success, ⟨rest, Function.update filled count 0, count⟩) := by
  have cleared : (modify fun shell => { shell with length := 0 } : Program Shell PUnit) ⟨input, buffer, length⟩ =
    some ((), ⟨input, buffer, 0⟩) := rfl
  rw [readInput, bind_ran cleared, bind_ran ran, bind_ran (last_char room)]
  split_ifs with atEof long
  · rfl
  · have back : (modify fun shell => { shell with length := shell.length - 1 } : Program Shell PUnit)
      ⟨rest, filled, count + 1⟩ = some ((), ⟨rest, filled, count⟩) := rfl
    rw [bind_ran back, bind_ran (get_state _), bind_ran (char_at _ room), if_pos long]
  · have back : (modify fun shell => { shell with length := shell.length - 1 } : Program Shell PUnit)
      ⟨rest, filled, count + 1⟩ = some ((), ⟨rest, filled, count⟩) := rfl
    rw [bind_ran back, bind_ran (get_state _), bind_ran (char_at _ room), if_neg long, bind_ran (store_char _ _ room)]
    rfl

theorem read_line {line : List UInt8} (unended : 10 ∉ line) (kept : 255 ∉ line)
    (short : line.length ≤ inputBufferSize) : ∃ after, after.input = rest ∧
      readInput ⟨line ++ 10 :: rest, buffer, length⟩ = some (some .success, after) ∧
      readingOf after .success = .success (line.map UInt8.toInt8 ++ [0]) := by
  have filled : fillBuffer ⟨line ++ 10 :: rest, buffer, 0⟩ = _ := fill_bytes unended kept (by omega)
  rw [Nat.zero_add, fill_byte short, if_neg fun both => both.1 rfl] at filled
  have ran : readInput ⟨line ++ 10 :: rest, buffer, length⟩ = _ := read_input_filled short filled
  rw [Function.update_self, if_neg (by decide), if_neg fun both => both.2 rfl, Function.update_idem] at ran
  refine ⟨_, rfl, ran, congrArg Reading.success ?_⟩
  dsimp only
  rw [List.range_succ, List.map_append, List.map_singleton, Function.update_self, ← stored_chars buffer 0 line]
  congr 1
  refine List.map_congr_left fun index inside => ?_
  rw [Function.update_of_ne (Nat.ne_of_lt (List.mem_range.mp inside)), Nat.zero_add]

theorem read_full (rest : List UInt8) (buffer : Nat → Int8) (length : Nat) {bytes : List UInt8} (unended : 10 ∉ bytes)
    (kept : 255 ∉ bytes) (full : bytes.length = inputBufferSize + 1) : ∃ filled,
      readInput ⟨bytes ++ rest, buffer, length⟩ =
        (discardLine >>= fun _ => pure (some .tooLong)) ⟨rest, filled, inputBufferSize⟩ := by
  have filled : fillBuffer ⟨bytes ++ rest, buffer, 0⟩ = _ := fill_bytes unended kept (by omega)
  rw [Nat.zero_add, full, fill_full] at filled
  have ran : readInput ⟨bytes ++ rest, buffer, length⟩ = _ := read_input_filled (Nat.le_refl _) filled
  have inside : inputBufferSize < 0 + bytes.length := by omega
  obtain ⟨byte, member, held⟩ := stored_byte buffer (Nat.zero_le inputBufferSize) inside
  have notEof : byte.toInt8.toInt ≠ eof := fun same => kept ((char_eof byte).mp same ▸ member)
  have notNewline : byte.toInt8.toInt ≠ newline := fun same => unended ((char_newline byte).mp same ▸ member)
  rw [held, if_neg notEof, if_pos ⟨rfl, notNewline⟩] at ran
  exact ⟨_, ran⟩

theorem kept_front {bytes : List UInt8} (unended : 10 ∉ bytes) : 10 ∉ bytes.take (inputBufferSize + 1) :=
  fun member => unended (List.mem_of_mem_take member)

theorem read_long {line : List UInt8} (unended : 10 ∉ line) (kept : Kept line)
    (long : inputBufferSize < line.length) : ∃ after, after.input = rest ∧
      readInput ⟨line ++ 10 :: rest, buffer, length⟩ = some (some .tooLong, after) := by
  have full : (line.take (inputBufferSize + 1)).length = inputBufferSize + 1 := by
    rw [List.length_take]
    omega
  obtain ⟨filled, ran⟩ := read_full (line.drop (inputBufferSize + 1) ++ 10 :: rest) buffer length
    (kept_front unended) kept full
  rw [← List.append_assoc, List.take_append_drop,
    bind_ran (discard_line fun member => unended (List.mem_of_mem_drop member))] at ran
  exact ⟨_, rfl, ran⟩

theorem read_endless (unended : 10 ∉ input) (kept : Kept input) (long : inputBufferSize < input.length) :
    readInput ⟨input, buffer, length⟩ = none := by
  have full : (input.take (inputBufferSize + 1)).length = inputBufferSize + 1 := by
    rw [List.length_take]
    omega
  obtain ⟨filled, ran⟩ := read_full (input.drop (inputBufferSize + 1)) buffer length (kept_front unended) kept full
  rw [List.take_append_drop, bind_failed (discard_endless fun member => unended (List.mem_of_mem_drop member))] at ran
  exact ran

theorem read_exits {bytes : List UInt8} (unended : 10 ∉ bytes) (kept : 255 ∉ bytes)
    (room : bytes.length ≤ inputBufferSize) (atEof : rest = [] ∨ ∃ others, rest = 255 :: others) :
    ∃ after, readInput ⟨bytes ++ rest, buffer, length⟩ = some (none, after) := by
  have filled : fillBuffer ⟨bytes ++ rest, buffer, 0⟩ = _ := fill_bytes unended kept (by omega)
  obtain ⟨others, ended⟩ := fill_eof (stored buffer 0 bytes) room atEof
  rw [Nat.zero_add, ended] at filled
  have ran : readInput ⟨bytes ++ rest, buffer, length⟩ = _ := read_input_filled room filled
  rw [Function.update_self, if_pos (by decide)] at ran
  exact ⟨_, ran⟩

theorem read_stopped {line : List UInt8} (unended : 10 ∉ line) (lost : ¬Kept line) :
    ∃ after, readInput ⟨line ++ rest, buffer, length⟩ = some (none, after) := by
  obtain ⟨front, back, split, first⟩ := List.eq_append_cons_of_mem (not_not.mp lost)
  have whole : line = front ++ 255 :: (back ++ line.drop (inputBufferSize + 1)) := by
    rw [← List.cons_append, ← List.append_assoc, ← split, List.take_append_drop]
  have room : front.length ≤ inputBufferSize := by
    have shorter := List.length_take_le (inputBufferSize + 1) line
    rw [split, List.length_append, List.length_cons] at shorter
    omega
  have unendedFront : 10 ∉ front := fun member => unended (whole ▸ List.mem_append_left _ member)
  rw [whole, List.append_assoc]
  exact read_exits unendedFront first room (.inr ⟨_, rfl⟩)

theorem read_on_exits {shell after : Shell} (ran : readInput shell = some (none, after)) (readings : List Reading) :
    readOn readings shell = some (readings, after) := by
  have ended : readTurn readings shell = some (.inr readings, after) := by
    rw [readTurn, bind_ran ran]
    rfl
  rw [readOn, loop_eq, bind_ran ended]
  rfl

theorem read_on_endless {shell : Shell} (ran : readInput shell = none) (readings : List Reading) :
    readOn readings shell = none := by
  have failed : readTurn readings shell = none := by rw [readTurn, bind_failed ran]
  rw [readOn, loop_eq, bind_failed failed]

theorem read_on_goes {shell between : Shell} {result : InputResult}
    (ran : readInput shell = some (some result, between)) (readings : List Reading) :
    readOn readings shell = readOn (readings ++ [readingOf between result]) between := by
  have goes : readTurn readings shell = some (.inl (readings ++ [readingOf between result]), between) := by
    rw [readTurn, bind_ran ran]
    rfl
  conv_lhs => rw [readOn, loop_eq, bind_ran goes]
  rfl

end Steps

theorem expected_line {line rest : List UInt8} (unended : 10 ∉ line) : expected (line ++ 10 :: rest) =
    (if line.length ≤ inputBufferSize then .success (line.map UInt8.toInt8 ++ [0]) else .tooLong) ::
      expected rest := by
  rw [expected, split_lines_line unended]
  rfl

theorem readable_line {line rest : List UInt8} (unended : 10 ∉ line) :
    Readable (line ++ 10 :: rest) ↔ Kept line ∧ Readable rest := by
  rw [Readable, split_lines_line unended, List.forall_mem_cons, and_assoc]
  rfl

theorem readable_rest {rest : List UInt8} (unended : 10 ∉ rest) :
    Readable rest ↔ rest.length ≤ inputBufferSize ∨ ¬Kept rest := by
  rw [Readable, split_lines_rest unended]
  simp

/-- The calls that are still to come return one result for each line that is still to come. -/
theorem reads_on (before : List Reading) (input : List UInt8) (buffer : Nat → Int8) (length : Nat) :
    (∃ after, readOn before ⟨input, buffer, length⟩ = some (before ++ expected input, after)) ↔ Readable input := by
  induction size : input.length using Nat.strongRecOn generalizing before input buffer length with
  | ind count ih =>
    by_cases ended : 10 ∈ input
    · obtain ⟨line, rest, rfl, unended⟩ := List.eq_append_cons_of_mem ended
      rw [expected_line unended, readable_line unended]
      have shorter : rest.length < count := by
        rw [← size, List.length_append, List.length_cons]
        omega
      by_cases kept : Kept line
      · have later : ∀ (reading : Reading) (between : Shell), between.input = rest →
            ((∃ after, readOn (before ++ [reading]) between = some (before ++ reading :: expected rest, after)) ↔
              Readable rest) := by
          rintro reading ⟨_, buffer, length⟩ rfl
          rw [List.append_cons before reading (expected _)]
          exact ih _ shorter _ _ buffer length rfl
        rw [and_iff_right kept]
        by_cases short : line.length ≤ inputBufferSize
        · have allKept : 255 ∉ line := by
            rw [Kept, List.take_of_length_le (by omega)] at kept
            exact kept
          obtain ⟨between, left, ran, reading⟩ := read_line unended allKept short
          rw [if_pos short, ← reading, read_on_goes ran]
          exact later _ between left
        · obtain ⟨between, left, ran⟩ := read_long unended kept (by omega)
          rw [if_neg short, read_on_goes ran]
          exact later .tooLong between left
      · obtain ⟨after, ran⟩ := read_stopped unended kept
        rw [read_on_exits ran]
        simp [kept]
    · have nothing : expected input = [] := by rw [expected, split_lines_rest ended, List.map_nil]
      rw [readable_rest ended, nothing, List.append_nil]
      by_cases kept : Kept input
      · by_cases short : input.length ≤ inputBufferSize
        · have allKept : 255 ∉ input := by
            rw [Kept, List.take_of_length_le (by omega)] at kept
            exact kept
          have exits : ∃ after, readInput ⟨input ++ [], buffer, length⟩ = some (none, after) :=
            read_exits ended allKept short (.inl rfl)
          obtain ⟨after, ran⟩ := exits
          rw [List.append_nil] at ran
          simp [read_on_exits ran, short]
        · have ran : readInput ⟨input, buffer, length⟩ = _ := read_endless ended kept (by omega)
          simp [read_on_endless ran, short, kept]
      · have exits : ∃ after, readInput ⟨input ++ [], buffer, length⟩ = some (none, after) :=
          read_stopped ended kept
        obtain ⟨after, ran⟩ := exits
        rw [List.append_nil] at ran
        simp [read_on_exits ran, kept]

/-- The calls return one result for each line, and then the process exits, exactly where no line is cut
short by a byte that narrows to the end of file and no unended line overflows the buffer. -/
theorem shell_reads_lines (shell : Shell) :
    (∃ after, readAll shell = some (expected shell.input, after)) ↔ Readable shell.input :=
  reads_on [] shell.input shell.buffer shell.length

/-- The line of the byte 255 is lost, and so are the lines behind it. -/
theorem shell_loses_lines : ¬∀ shell : Shell, ∃ after, readAll shell = some (expected shell.input, after) := by
  intro reads
  obtain ⟨after, ran⟩ := reads ⟨[255, 10], fun _ => 0, 0⟩
  have stopped : ∃ after, readInput ⟨[255] ++ [10], fun _ => 0, 0⟩ = some (none, after) :=
    read_stopped (by decide) fun kept => kept (by decide)
  obtain ⟨_, exits⟩ := stopped
  rw [show ([255, 10] : List UInt8) = [255] ++ [10] from rfl, readAll, read_on_exits exits] at ran
  cases ran

end MyJQL.ShellInput
