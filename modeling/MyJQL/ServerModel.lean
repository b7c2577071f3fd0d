import MyJQL.ByteStreams
import MyJQL.KeyValueStore
import Mathlib.Algebra.Group.Int.Defs
import Mathlib.Algebra.Group.Nat.Defs

/-!
# The driver and the server

A direct transcription of `InstanceThread` in `myjqlserver.c` and of the calls of `client` in
`myjqlclient.cpp`. Both are scripts over a byte stream; every `recv` returns exactly the bytes it
asks for. The store behind the server is whatever answers its calls, one at a time inside the
critical section.
-/

namespace MyJQL.ServerModel

open MyJQL.ByteStreams
open MyJQL.StateProgram
open MyJQL.KeyValueStore

set_option autoImplicit false

abbrev maxStrLen : Nat := 1024

abbrev intSize : Nat := 4

/-- The bytes of an `int`, the lowest first. -/
def intBytes (value : Int) : Bytes :=
  (List.range intSize).map fun index => UInt8.ofNat (value / 256 ^ index % 256).toNat

def intOfBytes (bytes : Bytes) : Int :=
  let unsigned : Nat := bytes.foldr (fun byte rest => byte.toNat + 256 * rest) 0
  if unsigned < 2 ^ 31 then unsigned else unsigned - 2 ^ 32

/-- The cast `(int)size`. -/
def asInt (size : Nat) : Int := intOfBytes (intBytes size)

inductive Script (Result : Type) where
  | finish (result : Result)
  | send (bytes : Bytes) (next : Script Result)
  | receive (count : Nat) (next : Bytes → Script Result)
  | perform (call : StoreCall) (next : StoreAnswer → Script Result)
  | wrong

section Scripts

variable {Result : Type}

def sendInt (value : Int) (next : Script Result) : Script Result := .send (intBytes value) next

def receiveInt (next : Int → Script Result) : Script Result :=
  .receive intSize fun bytes => next (intOfBytes bytes)

/-- Sends the first `code` bytes of a buffer. -/
def sendBuffer (buffer : Bytes) (code : Int) (next : Script Result) : Script Result :=
  if 0 ≤ code ∧ code.toNat ≤ buffer.length then .send (buffer.take code.toNat) next else .wrong

/-- Receives `code` bytes into a buffer of `code + 1` bytes. -/
def receiveBuffer (code : Int) (next : Bytes → Script Result) : Script Result :=
  if 0 ≤ code then .receive code.toNat next else .wrong

end Scripts

/-- One turn of the loop ends with whether there is another one. -/
abbrev Turn := Script Bool

def answerGet : StoreAnswer → Turn
  | none => sendInt 0 (.finish true)
  | some (valueLen, value) => sendInt 1 (sendInt valueLen (sendBuffer value valueLen (.finish true)))

/-- `code` is the length of the key, as in the source. -/
def decideGet (code : Int) (key : Bytes) : Turn :=
  if code > maxStrLen then sendInt 2 (.finish true)
  else .perform (.get key maxStrLen) answerGet

def decideSet (keyLen : Int) (key : Bytes) (valueLen : Int) (value : Bytes) : Turn :=
  if keyLen > maxStrLen then sendInt 2 (.finish true)
  else if valueLen > maxStrLen then sendInt 3 (.finish true)
  else .perform (.set key value) fun _ => sendInt 1 (.finish true)

def decideDel (code : Int) (key : Bytes) : Turn :=
  if code > maxStrLen then sendInt 2 (.finish true)
  else .perform (.del key) fun _ => sendInt 1 (.finish true)

/-- The body of the loop of `InstanceThread`. An unknown code is passed over. -/
def instanceTurn : Turn :=
  receiveInt fun code =>
    if code = 0 then
      receiveInt fun code => receiveBuffer code fun key => decideGet code key
    else if code = 1 then
      receiveInt fun keyLen => receiveBuffer keyLen fun key =>
        receiveInt fun valueLen => receiveBuffer valueLen fun value => decideSet keyLen key valueLen value
    else if code = 2 then
      receiveInt fun code => receiveBuffer code fun key => decideDel code key
    else if code = 3 then sendInt 1 (.finish false)
    else .finish true

def serverAction : Turn → Action StoreCall StoreAnswer Turn
  | .finish true => .pass instanceTurn
  | .finish false => .halt
  | .send bytes next => .send bytes next
  | .receive count next => .receive count next
  | .perform call next => .perform call next
  | .wrong => .halt

inductive Outcome where
  | missing
  | found (value : Bytes)
  | done
  | keyTooLong
  | valueTooLong
  | systemError (code : Int)
  deriving DecidableEq

/-- `buf[code] = 0; std::string res = buf;` -/
def cString (buf : Bytes) : Bytes := buf.takeWhile (· ≠ 0)

def sendString (string : Bytes) (next : Script Outcome) : Script Outcome :=
  sendInt (asInt string.length) (sendBuffer string (asInt string.length) next)

/-- What `client::get` makes of the code of the reply. A `recv` that returns fewer bytes than asked
for, which only this call checks for, does not happen. -/
def readGet (code : Int) : Script Outcome :=
  if code = 0 then .finish .missing
  else if code = 1 then
    receiveInt fun code => receiveBuffer code fun buf => .finish (.found (cString buf))
  else if code = 2 then .finish .keyTooLong
  else .finish (.systemError code)

def readSet (code : Int) : Script Outcome :=
  if code = 1 then .finish .done
  else if code = 2 then .finish .keyTooLong
  else if code = 3 then .finish .valueTooLong
  else .finish (.systemError code)

def readDel (code : Int) : Script Outcome :=
  if code = 1 then .finish .done
  else if code = 2 then .finish .keyTooLong
  else .finish (.systemError code)

def readClose (_code : Int) : Script Outcome := .finish .done

/-- The calls of a client; `close` is its destructor. -/
inductive DriverCall where
  | get (key : Bytes)
  | set (key value : Bytes)
  | del (key : Bytes)
  | close
  deriving DecidableEq

def DriverCall.script : DriverCall → Script Outcome
  | get key => sendInt 0 (sendString key (receiveInt readGet))
  | set key value => sendInt 1 (sendString key (sendString value (receiveInt readSet)))
  | del key => sendInt 2 (sendString key (receiveInt readDel))
  | close => sendInt 3 (receiveInt readClose)

structure DriverState where
  running : Option (Script Outcome)
  remaining : List DriverCall
  outcomes : List Outcome

def driverAction (state : DriverState) : Action StoreCall StoreAnswer DriverState :=
  match state.running with
  | none =>
      match state.remaining with
      | [] => .halt
      | call :: remaining => .pass ⟨some call.script, remaining, state.outcomes⟩
  | some (.finish outcome) => .pass ⟨none, state.remaining, state.outcomes ++ [outcome]⟩
  | some (.send bytes next) => .send bytes { state with running := some next }
  | some (.receive count next) => .receive count fun bytes => { state with running := some (next bytes) }
  | some (.perform _ _) => .halt
  | some .wrong => .halt

abbrev Connection := Link DriverState Turn

/-- The log lists which connection had which call performed, and the answer it got. -/
structure System (Client Store : Type) where
  store : Store
  links : Client → Connection
  log : List (Client × StoreCall × StoreAnswer)

variable {Client Store : Type} [DecidableEq Client]

/-- Clients and server threads take their steps in any order. A call to the store is one step: the
critical section keeps the other threads out. -/
inductive SystemStep (backend : StoreCall → Program Store StoreAnswer) :
    System Client Store → System Client Store → Prop
  | link {system : System Client Store} (client : Client) {after : Connection}
      (step : LinkStep driverAction serverAction (system.links client) after) :
      SystemStep backend system { system with links := Function.update system.links client after }
  | perform {system : System Client Store} (client : Client) {call : StoreCall}
      {next : StoreAnswer → Turn} {answer : StoreAnswer} {store : Store}
      (acts : serverAction (system.links client).server = .perform call next)
      (ran : backend call system.store = some (answer, store)) :
      SystemStep backend system
        { store := store
          links := Function.update system.links client { system.links client with server := next answer }
          log := system.log ++ [(client, call, answer)] }

/-- Every client has its calls before it and its destructor behind them. -/
def System.started (store : Store) (calls : Client → List DriverCall) : System Client Store where
  store := store
  links client := ⟨⟨none, calls client ++ [.close], []⟩, instanceTurn, [], []⟩
  log := []

end MyJQL.ServerModel
