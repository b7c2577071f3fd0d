import MyJQL.DriverCalls
import MyJQL.ShellInput
import MyJQL.TextWords

/-!
# The shell

`main` of `myjqlshell.cpp`: it prints a prompt, reads a line, scans it for a command and its arguments, has the
client do what the command says, and prints what came of it. Reading and storing outside an array get the
shell stuck. The client is whatever carries out its calls.
-/

namespace MyJQL.ShellCommands

open MyJQL.StateProgram
open MyJQL.KeyValueStore
open MyJQL.ServerModel
open MyJQL.DriverCalls
open MyJQL.ShellInput

set_option autoImplicit false

abbrev Chars := List Int8

def ascii (text : String) : Bytes := text.toList.map fun char => UInt8.ofNat char.toNat

def charsOf (bytes : Bytes) : Chars := bytes.map UInt8.toInt8
def bytesOf (chars : Chars) : Bytes := chars.map Int8.toUInt8

inductive CharArray where
  | command
  | key
  | value
  deriving DecidableEq

/-- The reader's state, the other arrays, what was printed, and the client. -/
structure ShellState (Client : Type) where
  reader : Shell
  arrays : CharArray → Nat → Int8
  output : Bytes
  client : Client

section Shell

variable {Client : Type}

def readerPart : Part (ShellState Client) Shell where
  read := ShellState.reader
  write reader state := { state with reader := reader }
  read_write _ _ := rfl
  write_write _ _ _ := rfl

def clientPart : Part (ShellState Client) Client where
  read := ShellState.client
  write client state := { state with client := client }
  read_write _ _ := rfl
  write_write _ _ _ := rfl

def printf (bytes : Bytes) : Program (ShellState Client) Unit :=
  modify fun state => { state with output := state.output ++ bytes }

def stringIn (array : Nat → Int8) : Option Chars :=
  let chars := (List.range (inputBufferSize + 1)).map array
  if 0 ∈ chars then some (chars.takeWhile (· ≠ 0)) else none

/-- `input_buffer.buffer` as a string -/
def inputText : Program (ShellState Client) Chars := do
  let state ← get
  ofOption (stringIn state.reader.buffer)

def textOf (array : CharArray) : Program (ShellState Client) Chars := do
  let state ← get
  ofOption (stringIn (state.arrays array))

def isSpace (char : Int8) : Bool := char == 32 || (decide (9 ≤ char) && decide (char ≤ 13))

/-- What a format is made of: white space, `%s`, and `%*s`, which stores nothing. -/
inductive Directive where
  | space
  | string (target : Option CharArray)

/-- The word and the zero behind it are stored from the start of the array on. -/
def storeString (array : CharArray) (word : Chars) : Program (ShellState Client) Unit := do
  check (word.length < inputBufferSize + 1)
  modify fun state => { state with
    arrays := Function.update state.arrays array fun index =>
      if index ≤ word.length then (word ++ [0]).getD index 0 else state.arrays array index }

/-- What is left of a format, of the text, and how many strings were stored. The text ends in place of a string:
then it is `EOF` that is returned if none was stored. -/
def convert : List Directive → Chars → Int → Program (ShellState Client) Int
  | [], _, stored => pure stored
  | .space :: format, text, stored => convert format (text.dropWhile isSpace) stored
  | .string target :: format, text, stored =>
      match text.dropWhile isSpace with
      | [] => pure (if stored = 0 then eof else stored)
      | char :: text =>
          let word := (char :: text).takeWhile fun char => !isSpace char
          let rest := (char :: text).dropWhile fun char => !isSpace char
          match target with
          | none => convert format rest stored
          | some array => do
              storeString array word
              convert format rest (stored + 1)

/-- `sscanf(input_buffer.buffer, format, …)` -/
def sscanf (format : List Directive) : Program (ShellState Client) Int := do
  let text ← inputText
  convert format text 0

/-- `"%s"` into `command` -/
def commandFormat : List Directive := [.string (some .command)]

/-- `"%*s %s"` into `key` -/
def keyFormat : List Directive := [.string none, .space, .string (some .key)]

/-- `"%*s %s %s"` into `key` and `value` -/
def keyValueFormat : List Directive := [.string none, .space, .string (some .key), .space, .string (some .value)]

def printError (msg : String) : Program (ShellState Client) Unit :=
  printf (ascii "Error: " ++ ascii msg ++ ascii "\n")

def commandIs (text : String) : Program (ShellState Client) Bool := do
  let command ← textOf .command
  pure (bytesOf command = ascii text)

def invalidInput : Program (ShellState Client) Unit := printf (ascii "Invalid input.\n")

variable (client : DriverCall → Program Client Report)

def getCommand : Program (ShellState Client) Unit := do
  let stored ← sscanf keyFormat
  if stored ≠ 1 then invalidInput
  else
    let key ← textOf .key
    let report ← clientPart.run (client (.get (bytesOf key)))
    match report.what, report with
    | some msg, _ => printError msg
    | none, .outcome (.found value) => printf (cString value ++ ascii "\n")
    | none, _ => printf (ascii "(not found)\n")

def printDone (report : Report) : Program (ShellState Client) Unit :=
  match report.what with
  | some msg => printError msg
  | none => printf (ascii "OK\n")

def setCommand : Program (ShellState Client) Unit := do
  let stored ← sscanf keyValueFormat
  if stored ≠ 2 then invalidInput
  else
    let key ← textOf .key
    let value ← textOf .value
    let report ← clientPart.run (client (.set (bytesOf key) (bytesOf value)))
    printDone report

def delCommand : Program (ShellState Client) Unit := do
  let stored ← sscanf keyFormat
  if stored ≠ 1 then invalidInput
  else
    let key ← textOf .key
    let report ← clientPart.run (client (.del (bytesOf key)))
    printDone report

def runLine : Program (ShellState Client) Unit := do
  let stored ← sscanf commandFormat
  if stored ≠ 1 then invalidInput
  else if ← commandIs "get" then getCommand client
  else if ← commandIs "set" then setCommand client
  else if ← commandIs "del" then delCommand client
  else printf (ascii "Invalid command.\n")

inductive Ending where
  | exited
  | left
  deriving DecidableEq

def shellTurn (_ : Unit) : Program (ShellState Client) (Unit ⊕ Ending) := do
  printf (ascii "myjql> ")
  let result ← readerPart.run readInput
  match result with
  | none => pure (.inr .exited)
  | some .tooLong => do
      printf (ascii "Input is too long.\n")
      pure (.inl ())
  | some .success => do
      let text ← inputText
      if bytesOf text = ascii "exit" then
        printf (ascii "bye~\n")
        pure (.inr .left)
      else
        runLine client
        pure (.inl ())

/-- `exit` in `read_input` leaves the client undestroyed. -/
def shellMain : Program (ShellState Client) Ending := do
  let ending ← loop (shellTurn client) ()
  match ending with
  | .exited => pure .exited
  | .left => do
      let _ ← clientPart.run (client .close)
      pure .left

end Shell

end MyJQL.ShellCommands
