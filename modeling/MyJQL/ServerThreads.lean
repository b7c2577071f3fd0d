import MyJQL.ServerModel

/-!
# The threads of the server

A transcription of `InstanceThread` and `exit_nicely` in `myjqlserver.c` down to the single system
call. A `recv` may return fewer bytes than it was asked for. What a `recv` does not write stays as it
was: in `code`, the value of the last length, opcode or status; in a new buffer, anything. A call to the
store takes time, and nothing but the critical section keeps two calls apart.

The conditions on a run say what the system does there. Two things are left to them: a `recv` of no bytes
may return at once here, on Linux it waits for a byte or the end of the stream (`Awaited`); and a `send`
that fails ends its thread here, while the signal `SIGPIPE`, which the server does not ignore, can end the
process (`Delivering`).
-/

namespace MyJQL.ServerThreads

open MyJQL.StateProgram
open MyJQL.KeyValueStore
open MyJQL.ServerModel

set_option autoImplicit false

def bufferPrefix (buffer : Bytes) (length : Int) : Option Bytes :=
  if 0 ≤ length ∧ length.toNat ≤ buffer.length then some (buffer.take length.toNat) else none

/-- An `int` where the callee takes a `size_t`. -/
def sizeT (count : Int) : Nat := (count % 2 ^ 64).toNat

/-- The size of what `malloc(length + 1)` returns: `NULL` where the sum, an `int`, is negative, since no
buffer is as large as that in a `size_t`. -/
def allocated (length : Int) : Option Nat :=
  if 0 ≤ length + 1 ∧ length + 1 < 2 ^ 31 then some (length + 1).toNat else none

/-- A call of `myjql.h`, its arguments as the thread passes them. -/
inductive RawCall where
  | get (key : Bytes) (keyLen : Int) (value : Bytes) (maxSize : Int)
  | set (key : Bytes) (keyLen : Int) (value : Bytes) (valueLen : Int)
  | del (key : Bytes) (keyLen : Int)

def RawCall.storeCall : RawCall → Option StoreCall
  | get key keyLen value maxSize => do
      let key ← bufferPrefix key keyLen
      let room ← bufferPrefix value maxSize
      some (.get key room.length)
  | set key keyLen value valueLen => do
      let key ← bufferPrefix key keyLen
      let value ← bufferPrefix value valueLen
      some (.set key value)
  | del key keyLen => do
      let key ← bufferPrefix key keyLen
      some (.del key)

/-- What is left to do of the thread. `again` is the end of a turn of the loop, with what is in `code`;
`recvNull` is a `recv` to `NULL`; `undefined` is where the C program has no meaning any more. -/
inductive Routine where
  | exited
  | undefined
  | again (code : Int)
  | recv (buffer : Bytes) (count : Int) (next : Bytes → Routine)
  | recvNull (count : Int) (next : Routine)
  | malloc (length : Int) (next : Option Bytes → Routine)
  | terminate (buffer : Bytes) (index : Int) (next : Bytes → Routine)
  | enter (next : Routine)
  | perform (call : RawCall) (next : StoreAnswer → Routine)
  | running (call : StoreCall) (next : StoreAnswer → Routine)
  | leave (next : Routine)
  | send (buffer : Bytes) (count : Int) (next : Routine)

def recvCode (code : Int) (next : Int → Routine) : Routine :=
  .recv (intBytes code) intSize fun bytes => next (intOfBytes bytes)

def sendCode (code : Int) (next : Routine) : Routine := .send (intBytes code) intSize next

/-- `malloc(code + 1)`, `recv` of `code` bytes, and the zero behind them. -/
def recvBuffer (code : Int) (next : Bytes → Routine) : Routine :=
  .malloc code fun
    | some buffer => .recv buffer code fun buffer => .terminate buffer code next
    | none => .recvNull code (.terminate [] code next)

/-- `(int)myjql_get(…)` -/
def valueLenOf : StoreAnswer → Int
  | none => -1
  | some (size, _) => asInt size

def filled (value : Bytes) : StoreAnswer → Bytes
  | none => value
  | some (_, written) => written ++ value.drop written.length

def replyGet (value : Bytes) (answer : StoreAnswer) : Routine :=
  if valueLenOf answer = -1 then sendCode 0 (.again 0)
  else
    sendCode 1 (sendCode (valueLenOf answer) (.send (filled value answer) (valueLenOf answer)
      (.terminate (filled value answer) (valueLenOf answer) fun _ => .again (valueLenOf answer))))

def serveGet (code : Int) : Routine :=
  recvCode code fun code => recvBuffer code fun key =>
    if code > maxStrLen then sendCode 2 (.again 2)
    else
      .malloc maxStrLen fun value =>
        .enter (.perform (.get key code (value.getD []) maxStrLen) fun answer =>
          .leave (replyGet (value.getD []) answer))

/-- Between the two lengths `code` keeps the first. -/
def serveSet (code : Int) : Routine :=
  recvCode code fun keyLen => recvBuffer keyLen fun key =>
    recvCode keyLen fun valueLen => recvBuffer valueLen fun value =>
      if keyLen > maxStrLen then sendCode 2 (.again 2)
      else if valueLen > maxStrLen then sendCode 3 (.again 3)
      else .enter (.perform (.set key keyLen value valueLen) fun _ => .leave (sendCode 1 (.again 1)))

def serveDel (code : Int) : Routine :=
  recvCode code fun code => recvBuffer code fun key =>
    if code > maxStrLen then sendCode 2 (.again 2)
    else .enter (.perform (.del key code) fun _ => .leave (sendCode 1 (.again 1)))

/-- One turn of the loop. -/
def instanceThread (code : Int) : Routine :=
  recvCode code fun code =>
    if code = 0 then serveGet code
    else if code = 1 then serveSet code
    else if code = 2 then serveDel code
    else if code = 3 then sendCode 1 .exited
    else .again code

/-- A thread and its connection: the turns it has made, how many requests its client has sent, the
bytes sent to it that it has not received, and whether the client has closed its side. -/
structure Thread where
  routine : Routine
  turn : Nat
  requests : Nat
  incoming : Bytes
  closed : Bool

def Thread.asked (thread : Thread) : Nat :=
  match thread.routine with
  | .recv _ count _ | .recvNull count _ => sizeT count
  | _ => 0

/-- What a thread does by itself. The operating system decides how many bytes a `recv` returns, whether
it or a `send` fails, and what is in a new buffer, if there is one. -/
inductive Move where
  | receive (count : Nat)
  | fail
  | allocate (fresh : Bytes)
  | go

/-- After a `recv` of these bytes. The thread goes on also when it has written behind the buffer. -/
def received (buffer bytes : Bytes) (next : Bytes → Routine) : Routine :=
  next (bytes.take buffer.length ++ buffer.drop bytes.length)

/-- A `recv` waits for a byte, or for the end of the stream; one of no bytes may wait or not (`Awaited`). -/
def Thread.delivers (thread : Thread) (count : Nat) : Prop :=
  count ≤ thread.asked ∧ count ≤ thread.incoming.length ∧
    (count = 0 → thread.asked = 0 ∨ (thread.incoming = [] ∧ thread.closed = true))

instance (thread : Thread) (count : Nat) : Decidable (thread.delivers count) := inferInstanceAs (Decidable (_ ∧ _ ∧ _))

/-- The thread after a move, and what it has sent. -/
def Thread.move (thread : Thread) : Move → Option (Thread × Option Bytes)
  | .receive count =>
      match thread.routine with
      | .recv buffer _ next =>
          if thread.delivers count then
            some ({ thread with
              routine := received buffer (thread.incoming.take count) next
              incoming := thread.incoming.drop count }, none)
          else none
      | .recvNull _ next =>
          -- the end of the stream is not an error, whatever the buffer is
          if count = 0 ∧ thread.incoming = [] ∧ thread.closed = true then
            some ({ thread with routine := next }, none)
          else none
      | _ => none
  | .fail =>
      match thread.routine with
      | .recv _ _ _ | .recvNull _ _ | .send _ _ _ => some ({ thread with routine := .exited }, none)
      | _ => none
  | .allocate fresh =>
      match thread.routine with
      | .malloc length next =>
          match allocated length with
          | some size =>
              if fresh.length = size then some ({ thread with routine := next (some fresh) }, none) else none
          | none => some ({ thread with routine := next none }, none)
      | _ => none
  | .go =>
      match thread.routine with
      | .again code => some ({ thread with routine := instanceThread code, turn := thread.turn + 1 }, none)
      | .recvNull _ _ =>
          -- bytes that are there cannot be copied to `NULL`: EFAULT
          if thread.incoming = [] then none else some ({ thread with routine := .exited }, none)
      | .terminate buffer index next =>
          if 0 ≤ index ∧ index.toNat < buffer.length then
            some ({ thread with routine := next (buffer.set index.toNat 0) }, none)
          else some ({ thread with routine := .undefined }, none)
      | .send buffer count next =>
          match bufferPrefix buffer count with
          | some bytes => some ({ thread with routine := next }, some bytes)
          | none => some ({ thread with routine := .undefined }, none)
      | _ => none

inductive Owner (Client : Type) where
  | instanceThread (client : Client)
  | exitNicely
  deriving DecidableEq

/-- What is seen from outside, and what was done to the store. Requests and turns of a client are
counted from zero. -/
inductive Event (Client : Type) where
  | sent (client : Client) (index : Nat)
  | performed (client : Client) (index : Nat) (call : StoreCall) (answer : StoreAnswer)
  | replied (client : Client) (index : Nat) (bytes : Bytes)
  | closed
  deriving DecidableEq

/-- `running` lists the threads that are within a call to the store. -/
structure Server (Client Store : Type) where
  store : Store
  owner : Option (Owner Client)
  running : List Client
  threads : Client → Thread
  unsent : Client → List Bytes
  trace : List (Event Client)

/-- Whose turn it is. A call that is not alone in the store may do anything there. -/
inductive Choice (Client Store : Type) where
  | send (client : Client)
  | close (client : Client)
  | move (client : Client) (move : Move)
  | enter (client : Client)
  | perform (client : Client)
  | finish (client : Client)
  | clash (client : Client) (answer : StoreAnswer) (store : Store)
  | leave (client : Client)

section Threads

variable {Client Store : Type} [DecidableEq Client]

namespace Server

def put (server : Server Client Store) (client : Client) (thread : Thread) : Server Client Store :=
  { server with threads := Function.update server.threads client thread }

def resume (server : Server Client Store) (client : Client) (routine : Routine) : Server Client Store :=
  server.put client { server.threads client with routine := routine }

def tell (server : Server Client Store) (events : List (Event Client)) : Server Client Store :=
  { server with trace := server.trace ++ events }

def answered (server : Server Client Store) (client : Client) (call : StoreCall) (answer : StoreAnswer)
    (store : Store) (next : StoreAnswer → Routine) : Server Client Store :=
  ({ server with store := store, running := server.running.erase client }.resume client (next answer)).tell
    [.performed client (server.threads client).turn call answer]

def take (backend : StoreCall → Program Store StoreAnswer) (server : Server Client Store) :
    Choice Client Store → Option (Server Client Store)
  | .send client =>
      let thread := server.threads client
      match server.unsent client with
      | [] => none
      | request :: rest =>
          some (({ server with unsent := Function.update server.unsent client rest }.put client
            { thread with incoming := thread.incoming ++ request, requests := thread.requests + 1 }).tell
              [.sent client thread.requests])
  | .close client =>
      match server.unsent client with
      | [] => some (server.put client { server.threads client with closed := true })
      | _ :: _ => none
  | .move client move =>
      match (server.threads client).move move with
      | some (thread, none) => some (server.put client thread)
      | some (thread, some bytes) =>
          some ((server.put client thread).tell [.replied client (server.threads client).turn bytes])
      | none => none
  | .enter client =>
      match (server.threads client).routine with
      | .enter next =>
          if server.owner.isNone then
            some ({ server with owner := some (.instanceThread client) }.resume client next)
          else none
      | _ => none
  | .perform client =>
      match (server.threads client).routine with
      | .perform call next =>
          match call.storeCall with
          | some storeCall =>
              some ({ server with running := client :: server.running }.resume client (.running storeCall next))
          | none => some (server.resume client .undefined)
      | _ => none
  | .finish client =>
      match (server.threads client).routine with
      | .running call next =>
          if server.running = [client] then
            match backend call server.store with
            | some (answer, store) => some (server.answered client call answer store next)
            | none => none
          else none
      | _ => none
  | .clash client answer store =>
      match (server.threads client).routine with
      | .running call next =>
          if server.running = [client] then none
          else some (server.answered client call answer store next)
      | _ => none
  | .leave client =>
      match (server.threads client).routine with
      | .leave next => some ({ server with owner := none }.resume client next)
      | _ => none

/-- A thread for every client. Nothing has written `code` yet. -/
def started (store : Store) (codes : Client → Int) (requests : Client → List Bytes) : Server Client Store where
  store := store
  owner := none
  running := []
  threads client := ⟨instanceThread (codes client), 0, 0, [], false⟩
  unsent := requests
  trace := []

end Server

def Step (allows : Choice Client Store → Server Client Store → Prop)
    (backend : StoreCall → Program Store StoreAnswer) (server after : Server Client Store) : Prop :=
  ∃ choice, allows choice server ∧ server.take backend choice = some after

/-- Every `recv` returns as many bytes as it was asked for. -/
def FullLength : Choice Client Store → Server Client Store → Prop
  | .move client (.receive count), server => count = (server.threads client).asked
  | _, _ => True

/-- Every `recv` returns as many bytes as it was asked for, or all that are left of a closed stream. -/
def UntilClosed : Choice Client Store → Server Client Store → Prop
  | .move client (.receive count), server => count = (server.threads client).asked ∨
      ((server.threads client).closed = true ∧ count = (server.threads client).incoming.length)
  | _, _ => True

/-- A `recv` returns only when a byte waits or the stream has ended, also a `recv` of no bytes. -/
def Awaited : Choice Client Store → Server Client Store → Prop
  | .move client (.receive _), server =>
      (server.threads client).incoming ≠ [] ∨ (server.threads client).closed = true
  | _, _ => True

def sending : Routine → Bool
  | .send _ _ _ => true
  | _ => false

/-- No `send` fails. -/
def Delivering : Choice Client Store → Server Client Store → Prop
  | .move client .fail, server => sending (server.threads client).routine = false
  | _, _ => True

def AnyLength (_choice : Choice Client Store) (_server : Server Client Store) : Prop := True

instance : ∀ (choice : Choice Client Store) (server : Server Client Store), Decidable (FullLength choice server)
  | .move client (.receive count), server => inferInstanceAs (Decidable (count = (server.threads client).asked))
  | .move _ .fail, _ | .move _ (.allocate _), _ | .move _ .go, _ | .send _, _ | .close _, _ | .enter _, _
  | .perform _, _ | .finish _, _ | .clash _ _ _, _ | .leave _, _ => inferInstanceAs (Decidable True)

instance : ∀ (choice : Choice Client Store) (server : Server Client Store), Decidable (UntilClosed choice server)
  | .move _ (.receive _), _ => inferInstanceAs (Decidable (_ ∨ _))
  | .move _ .fail, _ | .move _ (.allocate _), _ | .move _ .go, _ | .send _, _ | .close _, _ | .enter _, _
  | .perform _, _ | .finish _, _ | .clash _ _ _, _ | .leave _, _ => inferInstanceAs (Decidable True)

instance : ∀ (choice : Choice Client Store) (server : Server Client Store), Decidable (Awaited choice server)
  | .move _ (.receive _), _ => inferInstanceAs (Decidable (_ ∨ _))
  | .move _ .fail, _ | .move _ (.allocate _), _ | .move _ .go, _ | .send _, _ | .close _, _ | .enter _, _
  | .perform _, _ | .finish _, _ | .clash _ _ _, _ | .leave _, _ => inferInstanceAs (Decidable True)

instance : ∀ (choice : Choice Client Store) (server : Server Client Store), Decidable (Delivering choice server)
  | .move client .fail, server => inferInstanceAs (Decidable (sending (server.threads client).routine = false))
  | .move _ (.receive _), _ | .move _ (.allocate _), _ | .move _ .go, _ | .send _, _ | .close _, _ | .enter _, _
  | .perform _, _ | .finish _, _ | .clash _ _ _, _ | .leave _, _ => inferInstanceAs (Decidable True)

instance (choice : Choice Client Store) (server : Server Client Store) : Decidable (AnyLength choice server) :=
  inferInstanceAs (Decidable True)

def Server.run (allows : Choice Client Store → Server Client Store → Prop)
    [∀ choice server, Decidable (allows choice server)] (backend : StoreCall → Program Store StoreAnswer) :
    List (Choice Client Store) → Server Client Store → Option (Server Client Store)
  | [], server => some server
  | choice :: rest, server =>
      if allows choice server then
        match server.take backend choice with
        | some after => after.run allows backend rest
        | none => none
      else none

inductive ExitPhase where
  | waiting
  | inside
  | closed
  | released
  | disconnected
  | exited
  deriving DecidableEq

structure Process (Client Store : Type) where
  server : Server Client Store
  exit : ExitPhase

omit [DecidableEq Client] in
def exitNicely (close : Store → Store) (process : Process Client Store) : Option (Process Client Store) :=
  match process.exit with
  | .waiting =>
      if process.server.owner.isNone then some ⟨{ process.server with owner := some .exitNicely }, .inside⟩ else none
  | .inside => some ⟨{ process.server with store := close process.server.store }.tell [.closed], .closed⟩
  | .closed => some ⟨{ process.server with owner := none }, .released⟩
  | .released => some ⟨process.server, .disconnected⟩
  | .disconnected => some ⟨process.server, .exited⟩
  | .exited => none

/-- The threads go on until the process has ended. -/
inductive ProcessStep (allows : Choice Client Store → Server Client Store → Prop)
    (backend : StoreCall → Program Store StoreAnswer) (close : Store → Store) :
    Process Client Store → Process Client Store → Prop
  | thread {process : Process Client Store} {after : Server Client Store} (alive : process.exit ≠ .exited)
      (step : Step allows backend process.server after) :
      ProcessStep allows backend close process ⟨after, process.exit⟩
  | exit {process after : Process Client Store} (exits : exitNicely close process = some after) :
      ProcessStep allows backend close process after

end Threads

end MyJQL.ServerThreads
