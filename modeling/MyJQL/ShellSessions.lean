import MyJQL.ShellCommands

/-!
# What a session with the shell comes to

Each line means one thing, which depends on its words only, and the shell does what the lines mean, one after
the other, and prints what the client reports. What the arrays held before does not matter.
-/

namespace MyJQL.ShellSessions

open MyJQL.StateProgram
open MyJQL.KeyValueStore
open MyJQL.ServerModel
open MyJQL.DriverCalls
open MyJQL.ShellInput
open MyJQL.ShellCommands
open MyJQL.TextWords

set_option autoImplicit false

def space (byte : UInt8) : Bool := isSpace byte.toInt8

inductive Meaning where
  | tooLong
  | leave
  | invalidInput
  | invalidCommand
  | call (call : DriverCall)
  deriving DecidableEq

/-- The words behind the command that are too many are not looked at. -/
def wordsMeaning : List Bytes → Meaning
  | [] => .invalidInput
  | command :: arguments =>
      if command = ascii "get" then
        match arguments with
        | key :: _ => .call (.get key)
        | [] => .invalidInput
      else if command = ascii "set" then
        match arguments with
        | key :: value :: _ => .call (.set key value)
        | _ => .invalidInput
      else if command = ascii "del" then
        match arguments with
        | key :: _ => .call (.del key)
        | [] => .invalidInput
      else .invalidCommand

/-- A zero ends the text of a line. -/
def meaning (line : Bytes) : Meaning :=
  if inputBufferSize < line.length then .tooLong
  else if cString line = ascii "exit" then .leave
  else wordsMeaning (words space (cString line))

def answerText (call : DriverCall) (report : Report) : Bytes :=
  match report.what with
  | some msg => ascii "Error: " ++ ascii msg ++ ascii "\n"
  | none =>
      match call, report with
      | .get _, .outcome (.found value) => cString value ++ ascii "\n"
      | .get _, _ => ascii "(not found)\n"
      | _, _ => ascii "OK\n"

def refusal : Meaning → Bytes
  | .tooLong => ascii "Input is too long.\n"
  | .invalidInput => ascii "Invalid input.\n"
  | .invalidCommand => ascii "Invalid command.\n"
  | .leave | .call _ => []

def prompt : Bytes := ascii "myjql> "

def shown {Client : Type} (client : DriverCall → Program Client Report) : Meaning → Program Client Bytes
  | .call call => do
      let report ← client call
      pure (answerText call report)
  | refused => pure (refusal refused)

/-- The lines one after the other: what is printed, and how the session ends. -/
def interpret {Client : Type} (client : DriverCall → Program Client Report) :
    List Bytes → Program Client (Bytes × Ending)
  | [] => pure (prompt, .exited)
  | line :: lines =>
      if meaning line = .leave then do
        let _ ← client .close
        pure (prompt ++ ascii "bye~\n", .left)
      else do
        let printed ← shown client (meaning line)
        let (further, ending) ← interpret client lines
        pure (prompt ++ printed ++ further, ending)

instance (bytes : Bytes) : Decidable (Kept bytes) := inferInstanceAs (Decidable (_ ∉ _))

/-- The lines that the shell gets to see: up to the one that it leaves at, or up to a byte that it takes for the
end of the input. Where it reads for ever there is no such list. -/
def heardLines : List Bytes → Bytes → Option (List Bytes)
  | [], rest => if rest.length ≤ inputBufferSize ∨ ¬Kept rest then some [] else none
  | line :: lines, rest =>
      if ¬Kept line then some []
      else if meaning line = .leave then some [line]
      else (heardLines lines rest).map (line :: ·)

def heard (input : Bytes) : Option (List Bytes) := heardLines (splitLines input).1 (splitLines input).2

section Arrays

variable {array : Nat → Int8} {chars word : Chars} {size : Nat}

theorem bytes_of_chars (bytes : Bytes) : bytesOf (charsOf bytes) = bytes := by
  rw [bytesOf, charsOf, List.map_map]
  exact List.map_id'' (fun byte => byte.toUInt8_toInt8) bytes

theorem chars_of_zero (bytes : Bytes) : 0 ∉ charsOf (cString bytes) := by
  intro member
  obtain ⟨byte, inside, zero⟩ := List.mem_map.mp member
  have some := List.mem_takeWhile_imp inside
  have none : byte = 0 := by
    rw [← byte.toUInt8_toInt8, zero]
    rfl
  simp [none] at some

theorem chars_of_string (bytes : Bytes) : (charsOf bytes).takeWhile (· ≠ 0) = charsOf (cString bytes) := by
  induction bytes with
  | nil => rfl
  | cons byte bytes ih =>
      have same : byte.toInt8 = 0 ↔ byte = 0 := by
        constructor
        · intro zero
          rw [← byte.toUInt8_toInt8, zero]
          rfl
        · rintro rfl
          rfl
      by_cases zero : byte = 0
      · rw [charsOf, List.map_cons, List.takeWhile_cons_of_neg (by simpa using same.mpr zero), cString,
          List.takeWhile_cons_of_neg (by simpa using zero)]
        rfl
      · have some : byte.toInt8 ≠ 0 := fun none => zero (same.mp none)
        rw [charsOf, List.map_cons, List.takeWhile_cons_of_pos (by simpa using some), cString,
          List.takeWhile_cons_of_pos (by simpa using zero), charsOf, List.map_cons]
        exact congrArg _ ih

theorem string_in_ends (held : (List.range (size + 1)).map array = chars ++ [0]) (room : size ≤ inputBufferSize) :
    stringIn array = some (chars.takeWhile (· ≠ 0)) := by
  obtain ⟨more, split⟩ : ∃ more, (List.range (inputBufferSize + 1)).map array = chars ++ 0 :: more := by
    have sizes : inputBufferSize + 1 = (size + 1) + (inputBufferSize - size) := by omega
    rw [sizes, List.range_add, List.map_append, held, List.append_assoc]
    exact ⟨_, rfl⟩
  rw [stringIn, split, if_pos (List.mem_append_right _ List.mem_cons_self), List.takeWhile_append]
  split_ifs with all
  · rw [(List.takeWhile_prefix _).eq_of_length all, List.takeWhile_cons_of_neg (by simp), List.append_nil]
  · rfl

theorem string_in_stored (none : 0 ∉ word) (room : word.length ≤ inputBufferSize) (old : Nat → Int8) :
    stringIn (fun index => if index ≤ word.length then (word ++ [0]).getD index 0 else old index) = some word := by
  have held : (List.range (word.length + 1)).map
      (fun index => if index ≤ word.length then (word ++ [0]).getD index 0 else old index) = word ++ [0] := by
    apply List.ext_getElem
    · simp
    · intro index inside inside'
      have least : index ≤ word.length := by simpa [Nat.lt_succ_iff] using inside
      rw [List.getElem_map, List.getElem_range, if_pos least, List.getD_eq_getElem?_getD,
        List.getElem?_eq_getElem inside']
      rfl
  rw [string_in_ends held room, List.takeWhile_eq_self_iff.mpr]
  intro char member
  have some : char ≠ 0 := by
    rintro rfl
    exact none member
  simpa using some

end Arrays

/-- What a format makes of the words of a text: what is returned, and which strings are stored. -/
def scanned : List Directive → List Chars → Int → Int × List (CharArray × Chars)
  | [], _, stored => (stored, [])
  | .space :: format, found, stored => scanned format found stored
  | .string _ :: _, [], stored => (if stored = 0 then eof else stored, [])
  | .string none :: format, _ :: found, stored => scanned format found stored
  | .string (some array) :: format, word :: found, stored =>
      ((scanned format found (stored + 1)).1, (array, word) :: (scanned format found (stored + 1)).2)

def storing (held : CharArray → Option Chars) : List (CharArray × Chars) → CharArray → Option Chars
  | [] => held
  | (array, word) :: stores => storing (Function.update held array (some word)) stores

theorem storing_cons (held : CharArray → Option Chars) (store : CharArray × Chars) (stores : List (CharArray × Chars)) :
    storing held (store :: stores) = storing (storing held [store]) stores := rfl

section Scans

variable {Client : Type} {state after : ShellState Client} {text word : Chars} {format : List Directive} {stored : Int}

/-- Only the arrays differ. -/
structure Scanned (state after : ShellState Client) (stores : List (CharArray × Chars)) : Prop where
  reader : after.reader = state.reader
  output : after.output = state.output
  client : after.client = state.client
  held : (fun array => stringIn (after.arrays array)) = storing (fun array => stringIn (state.arrays array)) stores

theorem store_string (array : CharArray) (none : 0 ∉ word) (room : word.length ≤ inputBufferSize) :
    ∃ after, storeString array word state = some ((), after) ∧ Scanned state after [(array, word)] := by
  have ran : storeString array word state = some ((), { state with
      arrays := Function.update state.arrays array fun index =>
        if index ≤ word.length then (word ++ [0]).getD index 0 else state.arrays array index }) := by
    rw [storeString, check_passes (Nat.lt_succ_of_le room), pure_bind]
    rfl
  refine ⟨_, ran, rfl, rfl, rfl, ?_⟩
  funext other
  rw [storing, storing]
  by_cases same : other = array
  · subst same
    simp only [Function.update_self]
    exact string_in_stored none room _
  · simp only [Function.update_of_ne same]

theorem scanned_trans {between : ShellState Client} {stores : List (CharArray × Chars)} {array : CharArray}
    (first : Scanned state between [(array, word)]) (later : Scanned between after stores) :
    Scanned state after ((array, word) :: stores) := by
  refine ⟨later.reader.trans first.reader, later.output.trans first.output, later.client.trans first.client, ?_⟩
  rw [storing_cons, ← first.held]
  exact later.held

theorem convert_scans (format : List Directive) (text : Chars) (stored : Int) (state : ShellState Client)
    (none : 0 ∉ text) (room : text.length ≤ inputBufferSize) :
    ∃ after, convert format text stored state =
        some ((scanned format (words isSpace text) stored).1, after) ∧
      Scanned state after (scanned format (words isSpace text) stored).2 := by
  induction format generalizing text stored state with
  | nil => exact ⟨state, rfl, rfl, rfl, rfl, rfl⟩
  | cons directive format ih =>
      have suffix := List.dropWhile_suffix isSpace (l := text)
      cases directive with
      | space =>
          have skipped := ih (text.dropWhile isSpace) stored state (fun member => none (suffix.mem member))
            (suffix.length_le.trans room)
          rw [words_skip] at skipped
          exact skipped
      | string target =>
          rw [words_scan, convert]
          cases found : text.dropWhile isSpace with
          | nil => exact ⟨state, rfl, rfl, rfl, rfl, rfl⟩
          | cons char rest =>
              rw [found] at suffix
              have front := List.takeWhile_prefix (l := char :: rest) fun char => !isSpace char
              have back := List.dropWhile_suffix (fun char => !isSpace char) (l := char :: rest)
              have later := fun stored state => ih _ stored state
                (fun member => none (suffix.mem (back.mem member))) ((back.trans suffix).length_le.trans room)
              cases target with
              | none => exact later stored state
              | some array =>
                  obtain ⟨between, stores, first⟩ := @store_string _ state _ array
                    (fun member => none (suffix.mem (front.mem member)))
                    ((front.length_le.trans suffix.length_le).trans room)
                  obtain ⟨after, ran, scans⟩ := later (stored + 1) between
                  exact ⟨after, (bind_ran stores).trans ran, scanned_trans first scans⟩

end Scans

section Lines

variable {Client : Type} {client : DriverCall → Program Client Report} {state after : ShellState Client}
  {text : Bytes} {found : List Bytes} {array : CharArray}

/-- What a session shows: the arrays are left out. -/
def view (state : ShellState Client) : Shell × Bytes × Client := (state.reader, state.output, state.client)

/-- The buffer holds a text with these words. -/
def Holds (state : ShellState Client) (found : List Bytes) : Prop :=
  ∃ text, stringIn state.reader.buffer = some text ∧ 0 ∉ text ∧ text.length ≤ inputBufferSize ∧
    words isSpace text = found.map charsOf

theorem scanned_view {stores : List (CharArray × Chars)} (scans : Scanned state after stores) :
    view after = view state := by
  rw [view, scans.reader, scans.output, scans.client]
  rfl

theorem scanned_holds {stores : List (CharArray × Chars)} (holds : Holds state found)
    (scans : Scanned state after stores) : Holds after found := by
  rw [Holds, scans.reader]
  exact holds

theorem state_read (state : ShellState Client) :
    (get : Program (ShellState Client) (ShellState Client)) state = some (state, state) := rfl

theorem sscanf_scans (holds : Holds state found) (format : List Directive) :
    ∃ after, sscanf format state = some ((scanned format (found.map charsOf) 0).1, after) ∧
      Scanned state after (scanned format (found.map charsOf) 0).2 := by
  obtain ⟨text, held, none, room, same⟩ := holds
  have read : inputText state = some (text, state) := by
    rw [inputText, bind_ran (state_read state), held]
    rfl
  rw [sscanf, bind_ran read, ← same]
  exact convert_scans format text 0 state none room

theorem text_of {word : Chars} (held : stringIn (state.arrays array) = some word) :
    textOf array state = some (word, state) := by
  rw [textOf, bind_ran (state_read state), held]
  rfl

theorem scanned_held {stores : List (CharArray × Chars)} (scans : Scanned state after stores) (array : CharArray) :
    stringIn (after.arrays array) = storing (fun array => stringIn (state.arrays array)) stores array :=
  congrFun scans.held array

theorem client_runs {call : DriverCall} {report : Report} {next : Client}
    (ran : client call state.client = some (report, next)) :
    clientPart.run (client call) state = some (report, { state with client := next }) := by
  rw [Part.run]
  change (client call state.client).map _ = _
  rw [ran]
  rfl

theorem client_fails {call : DriverCall} (failed : client call state.client = none) :
    clientPart.run (client call) state = none := by
  rw [Part.run]
  change (client call state.client).map _ = _
  rw [failed]
  rfl

def display (state : ShellState Client) (line : Bytes × Client) : Shell × Bytes × Client :=
  (state.reader, state.output ++ line.1, line.2)

/-- What a program shows is what comes of a line with this meaning. -/
def Shows (client : DriverCall → Program Client Report) (state : ShellState Client) (meaning : Meaning)
    (program : Program (ShellState Client) Unit) : Prop :=
  (program state).map (fun outcome => view outcome.2) = (shown client meaning state.client).map (display state)

theorem bind_shows {Value : Type} {first : Program (ShellState Client) Value}
    {next : Value → Program (ShellState Client) Unit} {value : Value} {meaning : Meaning}
    (ran : first state = some (value, after)) (same : view after = view state)
    (later : Shows client after meaning (next value)) : Shows client state meaning (first >>= next) := by
  rw [view, view, Prod.mk.injEq, Prod.mk.injEq] at same
  obtain ⟨reader, output, client'⟩ := same
  have shownHere : display after = display state := by
    funext line
    change (after.reader, after.output ++ line.1, line.2) = (state.reader, state.output ++ line.1, line.2)
    rw [reader, output]
  rw [Shows, bind_ran ran, ← shownHere, ← client']
  exact later

theorem print_shows {meaning : Meaning} {bytes : Bytes} (means : shown client meaning = pure bytes) :
    Shows client state meaning (printf bytes) := by
  rw [Shows, means]
  rfl

theorem call_shows {call : DriverCall} {print : Report → Program (ShellState Client) Unit}
    (prints : ∀ report, print report = printf (answerText call report)) :
    Shows client state (.call call) (clientPart.run (client call) >>= print) := by
  rw [Shows, shown]
  cases ran : client call state.client with
  | none => rw [bind_failed (client_fails ran), bind_failed ran]; rfl
  | some answer =>
      obtain ⟨report, next⟩ := answer
      rw [bind_ran (client_runs ran), bind_ran ran, prints]
      rfl

theorem get_command (command : Bytes) (arguments : List Bytes) (holds : Holds state (command :: arguments)) :
    Shows client state (wordsMeaning (ascii "get" :: arguments)) (getCommand client) := by
  obtain ⟨after, ran, scans⟩ := sscanf_scans holds keyFormat
  refine bind_shows ran (scanned_view scans) ?_
  cases arguments with
  | nil => exact print_shows rfl
  | cons key arguments =>
      have stored : (scanned keyFormat ((command :: key :: arguments).map charsOf) 0).1 = 1 := rfl
      have held : stringIn (after.arrays .key) = some (charsOf key) := scanned_held scans .key
      rw [if_neg (not_not_intro stored)]
      refine bind_shows (text_of held) rfl ?_
      rw [bytes_of_chars]
      refine call_shows fun report => ?_
      cases report with
      | outcome outcome => cases outcome <;> rfl
      | failed msg => rfl

theorem print_done {call : DriverCall} (report : Report) (plain : ∀ key, call ≠ .get key) :
    (printDone report : Program (ShellState Client) Unit) = printf (answerText call report) := by
  rw [printDone, answerText.eq_def]
  cases report.what with
  | some msg => rfl
  | none =>
      cases call with
      | get key => exact absurd rfl (plain key)
      | set key value => rfl
      | del key => rfl
      | close => rfl

theorem set_command (command : Bytes) (arguments : List Bytes) (holds : Holds state (command :: arguments)) :
    Shows client state (wordsMeaning (ascii "set" :: arguments)) (setCommand client) := by
  obtain ⟨after, ran, scans⟩ := sscanf_scans holds keyValueFormat
  refine bind_shows ran (scanned_view scans) ?_
  match arguments with
  | [] => exact print_shows rfl
  | [key] => exact print_shows rfl
  | key :: value :: arguments =>
      have stored : (scanned keyValueFormat ((command :: key :: value :: arguments).map charsOf) 0).1 = 2 := rfl
      have keyHeld : stringIn (after.arrays .key) = some (charsOf key) := scanned_held scans .key
      have valueHeld : stringIn (after.arrays .value) = some (charsOf value) := scanned_held scans .value
      rw [if_neg (not_not_intro stored)]
      refine bind_shows (text_of keyHeld) rfl (bind_shows (text_of valueHeld) rfl ?_)
      rw [bytes_of_chars, bytes_of_chars]
      exact call_shows fun report => print_done report (by simp)

theorem del_command (command : Bytes) (arguments : List Bytes) (holds : Holds state (command :: arguments)) :
    Shows client state (wordsMeaning (ascii "del" :: arguments)) (delCommand client) := by
  obtain ⟨after, ran, scans⟩ := sscanf_scans holds keyFormat
  refine bind_shows ran (scanned_view scans) ?_
  cases arguments with
  | nil => exact print_shows rfl
  | cons key arguments =>
      have stored : (scanned keyFormat ((command :: key :: arguments).map charsOf) 0).1 = 1 := rfl
      have held : stringIn (after.arrays .key) = some (charsOf key) := scanned_held scans .key
      rw [if_neg (not_not_intro stored)]
      refine bind_shows (text_of held) rfl ?_
      rw [bytes_of_chars]
      exact call_shows fun report => print_done report (by simp)

theorem run_line (holds : Holds state found) : Shows client state (wordsMeaning found) (runLine client) := by
  obtain ⟨after, ran, scans⟩ := sscanf_scans holds commandFormat
  refine bind_shows ran (scanned_view scans) ?_
  cases found with
  | nil => exact print_shows rfl
  | cons command arguments =>
      have stored : (scanned commandFormat ((command :: arguments).map charsOf) 0).1 = 1 := rfl
      have held : stringIn (after.arrays .command) = some (charsOf command) := scanned_held scans .command
      have later := scanned_holds holds scans
      have asked : ∀ text, commandIs text after = some (decide (command = ascii text), after) := by
        intro text
        rw [commandIs, bind_ran (text_of held), bytes_of_chars]
        rfl
      rw [if_neg (not_not_intro stored), wordsMeaning.eq_def]
      refine bind_shows (asked _) rfl ?_
      by_cases get : command = ascii "get"
      · rw [if_pos (by simpa using get), get]
        exact get_command command arguments later
      rw [if_neg (by simpa using get)]
      refine bind_shows (asked _) rfl ?_
      by_cases set : command = ascii "set"
      · rw [if_pos (by simpa using set), set]
        exact set_command command arguments later
      rw [if_neg (by simpa using set)]
      refine bind_shows (asked _) rfl ?_
      by_cases del : command = ascii "del"
      · rw [if_pos (by simpa using del), del]
        exact del_command command arguments later
      · rw [if_neg (by simpa using del)]
        dsimp only
        rw [if_neg get, if_neg set, if_neg del]
        exact print_shows rfl

end Lines

theorem words_stay (found : List Bytes) : wordsMeaning found ≠ .leave := by
  cases found with
  | nil => exact fun leaves => nomatch leaves
  | cons command arguments =>
      rw [wordsMeaning.eq_def]
      dsimp only
      split_ifs
      all_goals first | split <;> exact fun leaves => nomatch leaves | exact fun leaves => nomatch leaves

section Sessions

variable {Client : Type} {client : DriverCall → Program Client Report} {state next : ShellState Client}
  {reader : Shell} {line : Bytes}

theorem read_text (reading : readingOf reader .success = .success (line.map UInt8.toInt8 ++ [0]))
    (short : line.length ≤ inputBufferSize) : stringIn reader.buffer = some (charsOf (cString line)) := by
  have held := Reading.success.inj reading
  have same := congrArg List.length held
  simp only [List.length_map, List.length_range, List.length_append, List.length_singleton] at same
  rw [string_in_ends held (by omega)]
  exact congrArg _ (chars_of_string line)

theorem text_holds (text : stringIn state.reader.buffer = some (charsOf (cString line)))
    (short : line.length ≤ inputBufferSize) : Holds state (words space (cString line)) := by
  refine ⟨_, text, chars_of_zero line, ?_, words_map (fun _ => rfl) _⟩
  have front := (List.takeWhile_prefix (l := line) (· ≠ 0)).length_le
  rw [charsOf, List.length_map]
  exact front.trans short

def prompted (state : ShellState Client) (reader : Shell) : ShellState Client :=
  { state with reader := reader, output := state.output ++ prompt }

theorem turn_reads {result : Option InputResult} (ran : readInput state.reader = some (result, reader)) :
    ∃ between, printf (ascii "myjql> ") state = some ((), between) ∧
      readerPart.run readInput between = some (result, prompted state reader) := by
  refine ⟨_, rfl, ?_⟩
  rw [Part.run]
  change (readInput state.reader).map _ = _
  rw [ran]
  rfl

theorem turn_exits (ran : readInput state.reader = some (none, reader)) :
    shellTurn client () state = some (.inr .exited, prompted state reader) := by
  obtain ⟨between, printed, read⟩ := turn_reads ran
  rw [shellTurn, bind_ran printed, bind_ran read]
  rfl

theorem turn_endless (failed : readInput state.reader = none) : shellTurn client () state = none := by
  have printed : printf (ascii "myjql> ") state = some ((), { state with output := state.output ++ prompt }) := rfl
  rw [shellTurn, bind_ran printed, bind_failed]
  rw [Part.run]
  change (readInput state.reader).map _ = none
  rw [failed]
  rfl

theorem turn_long (ran : readInput state.reader = some (some .tooLong, reader)) :
    shellTurn client () state =
      (printf (ascii "Input is too long.\n") >>= fun _ => pure (.inl ())) (prompted state reader) := by
  obtain ⟨between, printed, read⟩ := turn_reads ran
  rw [shellTurn, bind_ran printed, bind_ran read]

theorem turn_line (ran : readInput state.reader = some (some .success, reader))
    (text : stringIn reader.buffer = some (charsOf (cString line))) :
    shellTurn client () state =
      (if cString line = ascii "exit" then printf (ascii "bye~\n") >>= fun _ => pure (.inr .left)
        else runLine client >>= fun _ => pure (.inl ())) (prompted state reader) := by
  obtain ⟨between, printed, read⟩ := turn_reads ran
  have held : inputText (prompted state reader) = some (charsOf (cString line), prompted state reader) := by
    rw [inputText, bind_ran (state_read _)]
    change ofOption (stringIn reader.buffer) _ = _
    rw [text]
    rfl
  rw [shellTurn, bind_ran printed, bind_ran read]
  dsimp only
  rw [bind_ran held, bytes_of_chars]

theorem main_goes (went : shellTurn client () state = some (.inl (), next)) :
    shellMain client state = shellMain client next := by
  have same : loop (shellTurn client) () state = loop (shellTurn client) () next := by
    conv_lhs => rw [loop_eq, bind_ran went]
    rfl
  change (loop (shellTurn client) () state).bind _ = (loop (shellTurn client) () next).bind _
  rw [same]

theorem main_fails (failed : shellTurn client () state = none) : shellMain client state = none := by
  rw [shellMain, loop_eq, bind_failed]
  rw [bind_failed failed]

theorem main_exits (ran : readInput state.reader = some (none, reader)) :
    shellMain client state = some (.exited, prompted state reader) := by
  have left : loop (shellTurn client) () state = some (.exited, prompted state reader) := by
    rw [loop_eq, bind_ran (turn_exits ran)]
    rfl
  rw [shellMain, bind_ran left]
  rfl

def transcript (outcome : Ending × ShellState Client) : Ending × Bytes × Client :=
  (outcome.1, outcome.2.output, outcome.2.client)

theorem main_leaves (ran : readInput state.reader = some (some .success, reader))
    (text : stringIn reader.buffer = some (charsOf (cString line))) (exits : cString line = ascii "exit") :
    (shellMain client state).map transcript =
      (client .close state.client).map fun answer => (.left, state.output ++ (prompt ++ ascii "bye~\n"), answer.2) := by
  have turn : shellTurn client () state = _ := turn_line ran text
  rw [if_pos exits] at turn
  obtain ⟨last, left, output, same⟩ : ∃ last, loop (shellTurn client) () state = some (.left, last) ∧
      last.output = state.output ++ (prompt ++ ascii "bye~\n") ∧ last.client = state.client := by
    rw [loop_eq, bind_ran turn]
    exact ⟨_, rfl, List.append_assoc _ _ _, rfl⟩
  rw [shellMain, bind_ran left, ← same, ← output]
  dsimp only
  cases closed : client .close last.client with
  | none =>
      rw [bind_failed (client_fails closed)]
      rfl
  | some answer =>
      rw [bind_ran (client_runs closed)]
      rfl

theorem main_runs {program : Program (ShellState Client) Unit}
    (turn : shellTurn client () state = (program >>= fun _ => pure (.inl ())) (prompted state reader)) :
    shellMain client state = (program (prompted state reader)).bind fun outcome => shellMain client outcome.2 := by
  cases ran : program (prompted state reader) with
  | none =>
      rw [bind_failed ran] at turn
      exact main_fails turn
  | some outcome =>
      rw [bind_ran ran] at turn
      exact main_goes turn

theorem main_line {rest : Bytes} (kept : Kept line) (unended : 10 ∉ line)
    (begins : state.reader.input = line ++ 10 :: rest) : ∃ reader, reader.input = rest ∧
      if meaning line = .leave then
        (shellMain client state).map transcript = (client .close state.client).map fun answer =>
          (.left, state.output ++ (prompt ++ ascii "bye~\n"), answer.2)
      else ∃ program, Shows client (prompted state reader) (meaning line) program ∧
        shellMain client state = (program (prompted state reader)).bind fun outcome => shellMain client outcome.2 := by
  have shape : state.reader = ⟨line ++ 10 :: rest, state.reader.buffer, state.reader.length⟩ := by rw [← begins]
  by_cases short : line.length ≤ inputBufferSize
  · have allKept : 255 ∉ line := by
      rw [Kept, List.take_of_length_le (Nat.le_succ_of_le short)] at kept
      exact kept
    obtain ⟨reader, left, ran, reading⟩ := read_line unended allKept short
    rw [← shape] at ran
    have text := read_text reading short
    refine ⟨reader, left, ?_⟩
    rw [meaning, if_neg (Nat.not_lt.mpr short)]
    by_cases exits : cString line = ascii "exit"
    · rw [if_pos exits, if_pos rfl]
      exact main_leaves ran text exits
    · have turn : shellTurn client () state = _ := turn_line ran text
      rw [if_neg exits] at turn ⊢
      rw [if_neg]
      · have holds : Holds (prompted state reader) (words space (cString line)) := text_holds text short
        exact ⟨runLine client, run_line holds, main_runs turn⟩
      · exact words_stay _
  · obtain ⟨reader, left, ran⟩ := read_long unended kept (Nat.lt_of_not_le short)
    rw [← shape] at ran
    refine ⟨reader, left, ?_⟩
    rw [meaning, if_pos (Nat.lt_of_not_le short), if_neg (by decide)]
    exact ⟨_, print_shows rfl, main_runs (turn_long ran)⟩

theorem heard_line {rest : Bytes} (unended : 10 ∉ line) : heard (line ++ 10 :: rest) =
    if ¬Kept line then some [] else if meaning line = .leave then some [line]
      else (heard rest).map (line :: ·) := by
  rw [heard, split_lines_line unended, heardLines, heard]

section Interpreting

variable {start after : Client} {lines : List Bytes} {printed : Bytes}

theorem interpret_line (stays : meaning line ≠ .leave)
    (ran : shown client (meaning line) start = some (printed, after)) :
    interpret client (line :: lines) start =
      (interpret client lines after).map fun session =>
        ((prompt ++ printed ++ session.1.1, session.1.2), session.2) := by
  rw [interpret, if_neg stays, bind_ran ran]
  cases later : interpret client lines after with
  | none =>
      rw [bind_failed later]
      rfl
  | some session =>
      rw [bind_ran later]
      rfl

theorem interpret_stuck (stays : meaning line ≠ .leave) (failed : shown client (meaning line) start = none) :
    interpret client (line :: lines) start = none := by
  rw [interpret, if_neg stays, bind_failed failed]

end Interpreting

/-- What is left of a session, by the number of bytes that are still to come. -/
theorem main_interprets (count : Nat) (state : ShellState Client) (size : state.reader.input.length = count) :
    (shellMain client state).map transcript =
      (heard state.reader.input).bind fun lines =>
        (interpret client lines state.client).map fun session =>
          (session.1.2, state.output ++ session.1.1, session.2) := by
  induction count using Nat.strongRecOn generalizing state with
  | ind count ih =>
    by_cases ended : 10 ∈ state.reader.input
    · obtain ⟨line, rest, begins, unended⟩ := List.eq_append_cons_of_mem ended
      have shorter : rest.length < count := by
        rw [← size, begins, List.length_append, List.length_cons]
        omega
      rw [begins, heard_line unended]
      by_cases kept : Kept line
      · rw [if_neg (not_not_intro kept)]
        obtain ⟨reader, left, follows⟩ := @main_line _ client _ _ _ kept unended begins
        by_cases leaves : meaning line = .leave
        · rw [if_pos leaves] at follows
          rw [follows, if_pos leaves, Option.bind_some, interpret, if_pos leaves]
          cases closed : client .close state.client with
          | none =>
              rw [bind_failed closed]
              rfl
          | some answer =>
              rw [bind_ran closed]
              rfl
        · rw [if_neg leaves] at follows
          rw [if_neg leaves]
          obtain ⟨program, shows, goes⟩ := follows
          rw [goes]
          have here : (prompted state reader).client = state.client := rfl
          rw [Shows, here] at shows
          cases ran : shown client (meaning line) state.client with
          | none =>
              rw [ran] at shows
              rw [Option.map_eq_none_iff.mp shows]
              cases heard rest with
              | none => rfl
              | some lines =>
                  rw [Option.map_some, Option.bind_some, interpret_stuck leaves ran]
                  rfl
          | some answer =>
              obtain ⟨printed, after⟩ := answer
              rw [ran] at shows
              obtain ⟨⟨_, next⟩, went, seen⟩ := Option.map_eq_some_iff.mp shows
              have same : (next.reader, next.output, next.client) =
                (reader, state.output ++ prompt ++ printed, after) := seen
              rw [Prod.mk.injEq, Prod.mk.injEq] at same
              obtain ⟨read, output, called⟩ := same
              have begun : next.reader.input = rest := by rw [read, left]
              have later := ih _ shorter next (by rw [begun])
              rw [went, Option.bind_some, later, begun, output, called]
              cases heard rest with
              | none => rfl
              | some lines =>
                  rw [Option.map_some, Option.bind_some, Option.bind_some, interpret_line leaves ran, Option.map_map]
                  congr 1
                  funext session
                  simp only [Function.comp_apply, List.append_assoc]
      · have stopped : ∃ after, readInput ⟨line ++ 10 :: rest, state.reader.buffer, state.reader.length⟩ =
            some (none, after) := read_stopped unended kept
        obtain ⟨reader, ran⟩ := stopped
        rw [← begins] at ran
        rw [if_pos kept, main_exits ran]
        rfl
    · rw [heard, split_lines_rest ended, heardLines]
      by_cases kept : Kept state.reader.input
      · by_cases short : state.reader.input.length ≤ inputBufferSize
        · have allKept : 255 ∉ state.reader.input := by
            rw [Kept, List.take_of_length_le (Nat.le_succ_of_le short)] at kept
            exact kept
          have exits : ∃ after, readInput ⟨state.reader.input ++ [], state.reader.buffer, state.reader.length⟩ =
              some (none, after) := read_exits ended allKept short (.inl rfl)
          obtain ⟨reader, ran⟩ := exits
          rw [List.append_nil] at ran
          rw [if_pos (.inl short), main_exits ran]
          rfl
        · have ran : readInput state.reader = none := read_endless ended kept (Nat.lt_of_not_le short)
          rw [if_neg (by simp [short, kept]), main_fails (turn_endless ran)]
          rfl
      · have stopped : ∃ after, readInput ⟨state.reader.input ++ [], state.reader.buffer, state.reader.length⟩ =
            some (none, after) := read_stopped ended kept
        obtain ⟨reader, ran⟩ := stopped
        rw [List.append_nil] at ran
        rw [if_pos (.inr kept), main_exits ran]
        rfl

/-- The shell hears the lines of its input and does what they mean. Where it reads for ever and where the client
gets stuck it comes to no end, and nowhere else. -/
theorem shell_interprets (client : DriverCall → Program Client Report) (state : ShellState Client) :
    (shellMain client state).map transcript =
      (heard state.reader.input).bind fun lines =>
        (interpret client lines state.client).map fun session =>
          (session.1.2, state.output ++ session.1.1, session.2) := main_interprets _ state rfl

end Sessions

end MyJQL.ShellSessions
