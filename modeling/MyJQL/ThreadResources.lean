import Mathlib.Data.Finset.Erase
import Mathlib.Data.Finset.Insert
import MyJQL.ThreadSafety

/-!
# What a thread allocates, frees and closes

`InstanceThread` once more, with its calls of `malloc`, `free` and `closesocket` and with what it does when a
system call fails. `malloc` finds memory, and the lengths that are received are such that there is a block for
them. A call that changes the store may take blocks by `insert_handler` in `myjql.c`, which nobody frees; how
many, the B-tree decides. A `send` that fails returns an error; where `SIGPIPE` ends the process there is no
next step. Without all this it is the thread whose requests are served elsewhere.
-/

namespace MyJQL.ThreadResources

open MyJQL.KeyValueStore
open MyJQL.ServerModel
open MyJQL.ServerProtocol (Sensible)
open MyJQL.ServerThreads (RawCall Routine valueLenOf filled sizeT)
open MyJQL.ThreadSafety (Allocable Checked Sound allocated_allocable sound_instance_thread)

set_option autoImplicit false

inductive Pointer where
  | lpvParam
  | key
  | value
  deriving DecidableEq

inductive Item where
  | opcode
  | keyLength
  | key
  | valueLength
  | value
  | status
  | foundLength
  | found
  | shutdown
  deriving DecidableEq

/-- What is left to do of the thread. A system call that fails goes on elsewhere. -/
inductive Worker where
  | attach (next : Worker)
  | recv (item : Item) (into : Option Pointer) (buffer : Bytes) (count : Int) (failed : Worker) (next : Bytes → Worker)
  | recvNull (item : Item) (count : Int) (failed next : Worker)
  | send (item : Item) (out : Option Pointer) (buffer : Bytes) (count : Int) (failed next : Worker)
  | malloc (pointer : Pointer) (length : Int) (next : Option Bytes → Worker)
  | terminate (pointer : Pointer) (buffer : Bytes) (index : Int) (next : Bytes → Worker)
  | free (pointer : Pointer) (next : Worker)
  | enter (next : Worker)
  | perform (call : RawCall) (uses : List Pointer) (next : StoreAnswer → Worker)
  | leave (next : Worker)
  | shutdown (failed next : Worker)
  | closesocket (next : Worker)
  | again (code : Int)
  | returned (result : Int)

def freeAll (next : Worker) : List Pointer → Worker
  | [] => next
  | pointer :: pointers => .free pointer (freeAll next pointers)

def fail (pointers : List Pointer) : Worker := .closesocket (freeAll (.returned 1) pointers)

def recvCode (item : Item) (frees : List Pointer) (code : Int) (next : Int → Worker) : Worker :=
  .recv item none (intBytes code) intSize (fail frees) fun bytes => next (intOfBytes bytes)

def sendCode (item : Item) (frees : List Pointer) (code : Int) (next : Worker) : Worker :=
  .send item none (intBytes code) intSize (fail frees) next

/-- `malloc(code + 1)`, `recv` of `code` bytes, and the zero behind them. -/
def recvBuffer (item : Item) (pointer : Pointer) (frees : List Pointer) (code : Int) (next : Bytes → Worker) : Worker :=
  .malloc pointer code fun
    | some buffer =>
        .recv item (some pointer) buffer code (fail frees) fun buffer => .terminate pointer buffer code next
    | none => .recvNull item code (fail frees) (.terminate pointer [] code next)

def replyGet (value : Bytes) (answer : StoreAnswer) : Worker :=
  if valueLenOf answer = -1 then
    sendCode .status [.key, .value] 0 (.free .value (.free .key (.again 0)))
  else
    sendCode .status [.key, .value] 1 (sendCode .foundLength [.key, .value] (valueLenOf answer)
      (.send .found (some .value) (filled value answer) (valueLenOf answer) (fail [.key, .value])
        (.terminate .value (filled value answer) (valueLenOf answer) fun _ =>
          .free .value (.free .key (.again (valueLenOf answer))))))

def serveGet (code : Int) : Worker :=
  recvCode .keyLength [] code fun code => recvBuffer .key .key [.key] code fun key =>
    if code > maxStrLen then sendCode .status [.key] 2 (.free .key (.again 2))
    else
      .malloc .value maxStrLen fun value =>
        .enter (.perform (.get key code (value.getD []) maxStrLen) [.key, .value] fun answer =>
          .leave (replyGet (value.getD []) answer))

/-- Where the length of the value cannot be received the key is not freed. -/
def serveSet (code : Int) : Worker :=
  recvCode .keyLength [] code fun keyLen => recvBuffer .key .key [.key] keyLen fun key =>
    recvCode .valueLength [] keyLen fun valueLen => recvBuffer .value .value [.key, .value] valueLen fun value =>
      if keyLen > maxStrLen then sendCode .status [.key, .value] 2 (.free .key (.free .value (.again 2)))
      else if valueLen > maxStrLen then sendCode .status [.key, .value] 3 (.free .key (.free .value (.again 3)))
      else
        .enter (.perform (.set key keyLen value valueLen) [.key, .value] fun _ =>
          .leave (sendCode .status [.key, .value] 1 (.free .key (.free .value (.again 1)))))

def serveDel (code : Int) : Worker :=
  recvCode .keyLength [] code fun code => recvBuffer .key .key [.key] code fun key =>
    if code > maxStrLen then sendCode .status [.key] 2 (.free .key (.again 2))
    else
      .enter (.perform (.del key code) [.key] fun _ =>
        .leave (sendCode .status [.key] 1 (.free .key (.again 1))))

def disconnect : Worker := .shutdown (.closesocket (.returned 1)) (.closesocket (.returned 0))

def turn (code : Int) : Worker :=
  recvCode .opcode [] code fun code =>
    if code = 0 then serveGet code
    else if code = 1 then serveSet code
    else if code = 2 then serveDel code
    else if code = 3 then sendCode .status [] 1 disconnect
    else .again code

/-- The socket is read from where `lpvParam` points to. -/
def instanceThread (code : Int) : Worker := .attach (.free .lpvParam (turn code))

/-- Nothing is allocated for good, freed or closed. -/
def erase : Worker → Routine
  | .attach next => erase next
  | .recv _ _ buffer count _ next => .recv buffer count fun bytes => erase (next bytes)
  | .recvNull _ count _ next => .recvNull count (erase next)
  | .send _ _ buffer count _ next => .send buffer count (erase next)
  | .malloc _ length next => .malloc length fun buffer => erase (next buffer)
  | .terminate _ buffer index next => .terminate buffer index fun bytes => erase (next bytes)
  | .free _ next => erase next
  | .enter next => .enter (erase next)
  | .perform call _ next => .perform call fun answer => erase (next answer)
  | .leave next => .leave (erase next)
  | .shutdown _ next => erase next
  | .closesocket next => erase next
  | .again code => .again code
  | .returned _ => .exited

theorem erase_fail (pointers : List Pointer) : erase (fail pointers) = .exited := by
  have freed : ∀ pointers, erase (freeAll (.returned 1) pointers) = .exited := by
    intro pointers
    induction pointers with
    | nil => rfl
    | cons pointer pointers ih => exact ih
  exact freed pointers

theorem erase_reply_get (value : Bytes) (answer : StoreAnswer) :
    erase (replyGet value answer) = ServerThreads.replyGet value answer := by
  rw [replyGet, apply_ite erase, ServerThreads.replyGet]
  rfl

theorem erase_recv_buffer {item : Item} {pointer : Pointer} {frees : List Pointer} {code : Int}
    {next : Bytes → Worker} : erase (recvBuffer item pointer frees code next) =
      ServerThreads.recvBuffer code fun buffer => erase (next buffer) := by
  rw [recvBuffer, erase, ServerThreads.recvBuffer]
  congr 1
  funext buffer
  cases buffer <;> rfl

theorem erase_serve_get (code : Int) : erase (serveGet code) = ServerThreads.serveGet code := by
  simp only [serveGet, recvCode, erase_recv_buffer, erase, apply_ite erase, erase_reply_get]
  rfl

theorem erase_serve_set (code : Int) : erase (serveSet code) = ServerThreads.serveSet code := by
  simp only [serveSet, recvCode, erase_recv_buffer, erase, apply_ite erase]
  rfl

theorem erase_serve_del (code : Int) : erase (serveDel code) = ServerThreads.serveDel code := by
  simp only [serveDel, recvCode, erase_recv_buffer, erase, apply_ite erase]
  rfl

theorem erase_turn (code : Int) : erase (turn code) = ServerThreads.instanceThread code := by
  simp only [turn, recvCode, erase, apply_ite erase, erase_serve_get, erase_serve_set, erase_serve_del]
  rfl

/-- What a step does to the resources of the process. -/
inductive Effect where
  | quiet
  | attaches
  | fails (item : Item)
  | allocates (pointer : Pointer)
  | frees (pointer : Pointer)
  | leaks
  | closes
  deriving DecidableEq

/-- `insert_handler` is passed on by the calls that change the B-tree. -/
def Inserts : RawCall → Prop
  | .get _ _ _ _ => False
  | .set _ _ _ _ | .del _ _ => True

/-- The operating system and the store decide how a call ends. -/
inductive Goes : Worker → Effect → Worker → Prop
  | attach {next : Worker} : Goes (.attach next) .attaches next
  | recv {item : Item} {into : Option Pointer} {buffer : Bytes} {count : Int} {failed : Worker} {next : Bytes → Worker}
      (bytes : Bytes) (size : bytes.length = buffer.length) :
      Goes (.recv item into buffer count failed next) .quiet (next bytes)
  | recvFails {item : Item} {into : Option Pointer} {buffer : Bytes} {count : Int} {failed : Worker}
      {next : Bytes → Worker} : Goes (.recv item into buffer count failed next) (.fails item) failed
  | send {item : Item} {out : Option Pointer} {buffer : Bytes} {count : Int} {failed next : Worker} :
      Goes (.send item out buffer count failed next) .quiet next
  | sendFails {item : Item} {out : Option Pointer} {buffer : Bytes} {count : Int} {failed next : Worker} :
      Goes (.send item out buffer count failed next) (.fails item) failed
  | malloc {pointer : Pointer} {length : Int} {next : Option Bytes → Worker} (fresh : Bytes)
      (allocable : Allocable length) (size : fresh.length = length.toNat + 1) :
      Goes (.malloc pointer length next) (.allocates pointer) (next (some fresh))
  | terminate {pointer : Pointer} {buffer : Bytes} {index : Int} {next : Bytes → Worker} :
      Goes (.terminate pointer buffer index next) .quiet (next (buffer.set index.toNat 0))
  | free {pointer : Pointer} {next : Worker} : Goes (.free pointer next) (.frees pointer) next
  | enter {next : Worker} : Goes (.enter next) .quiet next
  | insertHandler {call : RawCall} {uses : List Pointer} {next : StoreAnswer → Worker} (inserts : Inserts call) :
      Goes (.perform call uses next) .leaks (.perform call uses next)
  | perform {call : RawCall} {uses : List Pointer} {next : StoreAnswer → Worker} (answer : StoreAnswer)
      (sensible : Sensible answer) : Goes (.perform call uses next) .quiet (next answer)
  | leave {next : Worker} : Goes (.leave next) .quiet next
  | shutdown {failed next : Worker} : Goes (.shutdown failed next) .quiet next
  | shutdownFails {failed next : Worker} : Goes (.shutdown failed next) (.fails .shutdown) failed
  | closesocket {next : Worker} : Goes (.closesocket next) .closes next
  | again (code : Int) : Goes (.again code) .quiet (turn code)

def follows : Worker → List Pointer
  | .attach _ => [.lpvParam]
  | .recv _ into _ _ _ _ => into.toList
  | .send _ out _ _ _ _ => out.toList
  | .terminate pointer _ _ _ => [pointer]
  | .free pointer _ => [pointer]
  | .perform _ uses _ => uses
  | .recvNull _ _ _ _ | .malloc _ _ _ | .enter _ | .leave _ | .shutdown _ _ | .closesocket _ | .again _
  | .returned _ => []

/-- The next step stays within the block or the `int` that it is about. -/
def InBounds : Worker → Prop
  | .recv _ _ buffer count _ _ => sizeT count ≤ buffer.length
  | .send _ _ buffer count _ _ => 0 ≤ count ∧ count.toNat ≤ buffer.length
  | .terminate _ buffer index _ => 0 ≤ index ∧ index.toNat < buffer.length
  | .perform call _ _ => Checked call
  | .recvNull _ _ _ _ => False
  | .attach _ | .malloc _ _ _ | .free _ _ | .enter _ | .leave _ | .shutdown _ _ | .closesocket _ | .again _
  | .returned _ => True

def talks : Worker → Bool
  | .recv _ _ _ _ _ _ | .recvNull _ _ _ _ | .send _ _ _ _ _ _ | .shutdown _ _ | .closesocket _ => true
  | .attach _ | .malloc _ _ _ | .terminate _ _ _ _ | .free _ _ | .enter _ | .perform _ _ _ | .leave _ | .again _
  | .returned _ => false

/-- The socket of a thread: still where `lpvParam` points to, open, or closed. -/
inductive Connection where
  | given
  | opened
  | closed
  deriving DecidableEq

/-- What a thread has of its own: what it allocated and has not freed, and its socket; and which system call has
failed. -/
structure Belongings where
  held : Finset Pointer
  connection : Connection
  failed : Option Item

namespace Belongings

def after (belongings : Belongings) : Effect → Belongings
  | .quiet | .leaks => belongings
  | .attaches => { belongings with connection := .opened }
  | .fails item => { belongings with failed := some item }
  | .allocates pointer => { belongings with held := insert pointer belongings.held }
  | .frees pointer => { belongings with held := belongings.held.erase pointer }
  | .closes => { belongings with connection := .closed }

/-- What is left of a thread that has returned. -/
def leftover : Option Item → Finset Pointer
  | some .valueLength => {.key}
  | _ => ∅

theorem leftover_member {failed : Option Item} {pointer : Pointer} :
    pointer ∈ leftover failed ↔ failed = some .valueLength ∧ pointer = .key := by
  unfold leftover
  split
  · simp
  · next other => exact iff_of_false (Finset.notMem_empty _) fun same => other same.1

end Belongings

/-- A worker that follows only pointers to what it holds, closes its socket once, and returns with nothing but what
is left over. -/
inductive Owning : Belongings → Worker → Prop
  | attach {held : Finset Pointer} {failed : Option Item} {next : Worker} (holds : .lpvParam ∈ held)
      (behind : Owning ⟨held, .opened, failed⟩ next) : Owning ⟨held, .given, failed⟩ (.attach next)
  | recv {held : Finset Pointer} {before : Option Item} {item : Item} {into : Option Pointer} {buffer : Bytes}
      {count : Int} {failed : Worker} {next : Bytes → Worker} (holds : ∀ pointer ∈ into, pointer ∈ held)
      (stops : Owning ⟨held, .opened, some item⟩ failed) (exits : erase failed = .exited)
      (behind : ∀ bytes, Owning ⟨held, .opened, before⟩ (next bytes)) :
      Owning ⟨held, .opened, before⟩ (.recv item into buffer count failed next)
  | send {held : Finset Pointer} {before : Option Item} {item : Item} {out : Option Pointer} {buffer : Bytes}
      {count : Int} {failed next : Worker} (holds : ∀ pointer ∈ out, pointer ∈ held)
      (stops : Owning ⟨held, .opened, some item⟩ failed) (exits : erase failed = .exited)
      (behind : Owning ⟨held, .opened, before⟩ next) :
      Owning ⟨held, .opened, before⟩ (.send item out buffer count failed next)
  | malloc {held : Finset Pointer} {connection : Connection} {failed : Option Item} {pointer : Pointer} {length : Int}
      {next : Option Bytes → Worker} (fresh : pointer ∉ held)
      (behind : ∀ bytes, Owning ⟨insert pointer held, connection, failed⟩ (next (some bytes))) :
      Owning ⟨held, connection, failed⟩ (.malloc pointer length next)
  | terminate {held : Finset Pointer} {connection : Connection} {failed : Option Item} {pointer : Pointer}
      {buffer : Bytes} {index : Int} {next : Bytes → Worker} (holds : pointer ∈ held)
      (behind : ∀ bytes, Owning ⟨held, connection, failed⟩ (next bytes)) :
      Owning ⟨held, connection, failed⟩ (.terminate pointer buffer index next)
  | free {held : Finset Pointer} {connection : Connection} {failed : Option Item} {pointer : Pointer} {next : Worker}
      (holds : pointer ∈ held) (behind : Owning ⟨held.erase pointer, connection, failed⟩ next) :
      Owning ⟨held, connection, failed⟩ (.free pointer next)
  | enter {belongings : Belongings} {next : Worker} (behind : Owning belongings next) : Owning belongings (.enter next)
  | perform {belongings : Belongings} {call : RawCall} {uses : List Pointer} {next : StoreAnswer → Worker}
      (holds : ∀ pointer ∈ uses, pointer ∈ belongings.held) (behind : ∀ answer, Owning belongings (next answer)) :
      Owning belongings (.perform call uses next)
  | leave {belongings : Belongings} {next : Worker} (behind : Owning belongings next) : Owning belongings (.leave next)
  | shutdown {held : Finset Pointer} {before : Option Item} {failed next : Worker}
      (stops : Owning ⟨held, .opened, some .shutdown⟩ failed) (exits : erase failed = .exited)
      (behind : Owning ⟨held, .opened, before⟩ next) : Owning ⟨held, .opened, before⟩ (.shutdown failed next)
  | closesocket {held : Finset Pointer} {failed : Option Item} {next : Worker}
      (behind : Owning ⟨held, .closed, failed⟩ next) : Owning ⟨held, .opened, failed⟩ (.closesocket next)
  | again {code : Int} : Owning ⟨∅, .opened, none⟩ (.again code)
  | returned {failed : Option Item} {result : Int} :
      Owning ⟨Belongings.leftover failed, .closed, failed⟩ (.returned result)

section Owning

variable {held : Finset Pointer} {before : Option Item} {item : Item} {next : Worker} {code : Int}
  {frees : List Pointer}

/-- What is held is freed, each once, but what is left over. -/
def Clears (left : Finset Pointer) : Finset Pointer → List Pointer → Prop
  | held, [] => held = left
  | held, pointer :: pointers => pointer ∈ held ∧ Clears left (held.erase pointer) pointers

instance decideClears (left : Finset Pointer) :
    (held : Finset Pointer) → (pointers : List Pointer) → Decidable (Clears left held pointers)
  | held, [] => inferInstanceAs (Decidable (held = left))
  | held, pointer :: pointers =>
      have := decideClears left (held.erase pointer) pointers
      inferInstanceAs (Decidable (_ ∧ _))

theorem owning_fail (clears : Clears (Belongings.leftover before) held frees) :
    Owning ⟨held, .opened, before⟩ (fail frees) := by
  have freed : Owning ⟨held, .closed, before⟩ (freeAll (.returned 1) frees) := by
    induction frees generalizing held with
    | nil =>
        rw [show held = Belongings.leftover before from clears]
        exact .returned
    | cons pointer pointers ih => exact .free clears.1 (ih clears.2)
  exact .closesocket freed

theorem owning_recv_code {next : Int → Worker} (clears : Clears (Belongings.leftover (some item)) held frees)
    (behind : ∀ code, Owning ⟨held, .opened, before⟩ (next code)) :
    Owning ⟨held, .opened, before⟩ (recvCode item frees code next) :=
  .recv (by simp) (owning_fail clears) (erase_fail _) fun _ => behind _

theorem owning_send_code (clears : Clears (Belongings.leftover (some item)) held frees)
    (behind : Owning ⟨held, .opened, before⟩ next) : Owning ⟨held, .opened, before⟩ (sendCode item frees code next) :=
  .send (by simp) (owning_fail clears) (erase_fail _) behind

theorem owning_recv_buffer {pointer : Pointer} {next : Bytes → Worker} (fresh : pointer ∉ held)
    (clears : Clears (Belongings.leftover (some item)) (insert pointer held) frees)
    (behind : ∀ bytes, Owning ⟨insert pointer held, .opened, before⟩ (next bytes)) :
    Owning ⟨held, .opened, before⟩ (recvBuffer item pointer frees code next) :=
  .malloc fresh fun _ => .recv (by simp) (owning_fail clears) (erase_fail _) fun _ =>
    .terminate (Finset.mem_insert_self _ _) behind

theorem owning_frees (clears : Clears ∅ held frees) :
    Owning ⟨held, .opened, none⟩ (freeAll (.again code) frees) := by
  induction frees generalizing held with
  | nil =>
      rw [show held = ∅ from clears]
      exact .again
  | cons pointer pointers ih => exact .free clears.1 (ih clears.2)

theorem owning_reply_get (value : Bytes) (answer : StoreAnswer) :
    Owning ⟨insert .value (insert .key ∅), .opened, none⟩ (replyGet value answer) := by
  rw [replyGet]
  split_ifs
  · exact owning_send_code (by decide) (@owning_frees _ _ [.value, .key] (by decide))
  · refine owning_send_code (by decide) (owning_send_code (by decide) ?_)
    refine .send (by decide) (owning_fail (by decide)) (erase_fail _) ?_
    exact .terminate (by decide) fun _ => @owning_frees _ _ [.value, .key] (by decide)

theorem owning_serve_get (code : Int) : Owning ⟨∅, .opened, none⟩ (serveGet code) := by
  refine owning_recv_code (by decide) fun code => owning_recv_buffer (by decide) (by decide) fun key => ?_
  split_ifs
  · exact owning_send_code (by decide) (@owning_frees _ _ [.key] (by decide))
  · refine .malloc (by decide) fun value => .enter (.perform (by decide) fun answer => ?_)
    exact .leave (owning_reply_get value answer)

theorem owning_serve_set (code : Int) : Owning ⟨∅, .opened, none⟩ (serveSet code) := by
  refine owning_recv_code (by decide) fun keyLen => owning_recv_buffer (by decide) (by decide) fun key => ?_
  refine owning_recv_code (by decide) fun valueLen => owning_recv_buffer (by decide) (by decide) fun value => ?_
  have frees : ∀ code,
      Owning ⟨insert .value (insert .key ∅), .opened, none⟩ (.free .key (.free .value (.again code))) :=
    fun code => @owning_frees _ _ [.key, .value] (by decide)
  split_ifs
  · exact owning_send_code (by decide) (frees _)
  · exact owning_send_code (by decide) (frees _)
  · exact .enter (.perform (by decide) fun _ => .leave (owning_send_code (by decide) (frees _)))

theorem owning_serve_del (code : Int) : Owning ⟨∅, .opened, none⟩ (serveDel code) := by
  refine owning_recv_code (by decide) fun code => owning_recv_buffer (by decide) (by decide) fun key => ?_
  have frees : ∀ code, Owning ⟨insert .key ∅, .opened, none⟩ (.free .key (.again code)) :=
    fun code => @owning_frees _ _ [.key] (by decide)
  split_ifs
  · exact owning_send_code (by decide) (frees _)
  · exact .enter (.perform (by decide) fun _ => .leave (owning_send_code (by decide) (frees _)))

theorem owning_turn (code : Int) : Owning ⟨∅, .opened, none⟩ (turn code) := by
  refine owning_recv_code (by decide) fun code => ?_
  have disconnects : ∀ before result, Belongings.leftover before = ∅ →
      Owning ⟨∅, .opened, before⟩ (.closesocket (.returned result)) := by
    intro before result nothing
    exact .closesocket (nothing ▸ .returned)
  split_ifs
  · exact owning_serve_get code
  · exact owning_serve_set code
  · exact owning_serve_del code
  · exact owning_send_code (by decide) (.shutdown (disconnects _ _ rfl) rfl (disconnects _ _ rfl))
  · exact .again

theorem owning_thread (code : Int) : Owning ⟨{.lpvParam}, .given, none⟩ (instanceThread code) := by
  have nothing : ({.lpvParam} : Finset Pointer).erase .lpvParam = ∅ := by decide
  exact .attach (Finset.mem_singleton_self _) (.free (Finset.mem_singleton_self _) (nothing ▸ owning_turn code))

end Owning

section Steps

variable {belongings : Belongings} {worker after : Worker} {effect : Effect}

theorem owning_step (owning : Owning belongings worker) (goes : Goes worker effect after) :
    Owning (belongings.after effect) after := by
  cases goes with
  | attach => cases owning with | attach _ behind => exact behind
  | recv bytes _ => cases owning with | recv _ _ _ behind => exact behind bytes
  | recvFails => cases owning with | recv _ stops _ _ => exact stops
  | send => cases owning with | send _ _ _ behind => exact behind
  | sendFails => cases owning with | send _ stops _ _ => exact stops
  | malloc fresh _ _ => cases owning with | malloc _ behind => exact behind fresh
  | terminate => cases owning with | terminate _ behind => exact behind _
  | free => cases owning with | free _ behind => exact behind
  | enter => cases owning with | enter behind => exact behind
  | insertHandler _ => exact owning
  | perform answer _ => cases owning with | perform _ behind => exact behind answer
  | leave => cases owning with | leave behind => exact behind
  | shutdown => cases owning with | shutdown _ _ behind => exact behind
  | shutdownFails => cases owning with | shutdown stops _ _ => exact stops
  | closesocket => cases owning with | closesocket behind => exact behind
  | again code => cases owning with | again => exact owning_turn code

theorem owning_follows (owning : Owning belongings worker) : ∀ pointer ∈ follows worker, pointer ∈ belongings.held := by
  cases owning with
  | attach holds _ => simpa [follows] using holds
  | recv holds _ _ _ => simpa [follows] using holds
  | send holds _ _ _ => simpa [follows] using holds
  | terminate holds _ => simpa [follows] using holds
  | free holds _ => simpa [follows] using holds
  | perform holds _ => exact holds
  | malloc _ _ | enter _ | leave _ | shutdown _ _ _ | closesocket _ | again | returned => simp [follows]

theorem owning_talks (owning : Owning belongings worker) (speaks : talks worker = true) :
    belongings.connection = .opened := by
  cases owning with
  | recv _ _ _ _ | send _ _ _ _ | shutdown _ _ _ | closesocket _ => rfl
  | attach _ _ | malloc _ _ | terminate _ _ | free _ _ | enter _ | perform _ _ | leave _ | again | returned =>
      cases speaks

theorem failure_exits {item : Item} (owning : Owning belongings worker) (goes : Goes worker (.fails item) after) :
    erase after = .exited := by
  cases goes with
  | recvFails => cases owning with | recv _ _ exits _ => exact exits
  | sendFails => cases owning with | send _ _ exits _ => exact exits
  | shutdownFails => cases owning with | shutdown _ exits _ => exact exits

theorem owning_attaches (owning : Owning belongings worker) (goes : Goes worker .attaches after) :
    belongings.connection = .given := by
  cases goes with
  | attach => cases owning with | attach _ _ => rfl

theorem owning_allocates {pointer : Pointer} (owning : Owning belongings worker)
    (goes : Goes worker (.allocates pointer) after) : pointer ∉ belongings.held := by
  cases goes with
  | malloc _ _ _ => cases owning with | malloc fresh _ => exact fresh

theorem owning_frees_held {pointer : Pointer} (owning : Owning belongings worker)
    (goes : Goes worker (.frees pointer) after) : pointer ∈ belongings.held := by
  cases goes with
  | free => cases owning with | free holds _ => exact holds

theorem owning_closes (owning : Owning belongings worker) (goes : Goes worker .closes after) :
    belongings.connection = .opened := by
  cases goes with
  | closesocket => cases owning with | closesocket _ => rfl

theorem owning_returned {result : Int} (owning : Owning belongings (.returned result)) :
    belongings.connection = .closed ∧ belongings.held = Belongings.leftover belongings.failed := by
  cases owning with
  | returned => exact ⟨rfl, rfl⟩

/-- What keeps the thread that is served elsewhere within its buffers does so here. -/
theorem sound_step {inside : Bool} (owning : Owning belongings worker) (sound : Sound inside (erase worker))
    (goes : Goes worker effect after) : ∃ inside, Sound inside (erase after) := by
  have exits : ∀ item, effect = .fails item → ∃ inside, Sound inside (erase after) := fun item same => by
    subst same
    rw [failure_exits owning goes]
    exact ⟨false, .exited⟩
  cases goes with
  | recv bytes size => cases sound with | recv _ behind => exact ⟨_, behind bytes size⟩
  | send => cases sound with | send _ behind => exact ⟨_, behind⟩
  | recvFails | sendFails | shutdownFails => exact exits _ rfl
  | malloc fresh allocable size => cases sound with | malloc behind _ => exact ⟨_, behind allocable fresh size⟩
  | terminate => cases sound with | terminate _ behind => exact ⟨_, behind _ List.length_set⟩
  | enter => cases sound with | enter behind => exact ⟨_, behind⟩
  | perform answer sensible => cases sound with | perform _ behind => exact ⟨_, behind answer sensible⟩
  | leave => cases sound with | leave behind => exact ⟨_, behind⟩
  | again code =>
      rw [erase_turn]
      exact ⟨false, sound_instance_thread code⟩
  | attach | free | insertHandler _ | shutdown | closesocket => exact ⟨inside, sound⟩

theorem sound_in_bounds {inside : Bool} (sound : Sound inside (erase worker)) : InBounds worker := by
  cases worker with
  | recv _ _ _ _ _ _ => cases sound with | recv room _ => exact room
  | send _ _ _ _ _ _ => cases sound with | send whole _ => exact whole
  | terminate _ _ _ _ => cases sound with | terminate inside _ => exact inside
  | perform _ _ _ => cases sound with | perform checked _ => exact checked
  | recvNull _ _ _ _ => cases sound
  | attach _ | malloc _ _ _ | free _ _ | enter _ | leave _ | shutdown _ _ | closesocket _ | again _ | returned _ =>
      trivial

end Steps

end MyJQL.ThreadResources
