import MyJQL.ServerSystem
import MyJQL.ServerThreads

/-!
# What the threads never do

A thread writes outside of its buffers and hands the store lengths that are not checked only when it has
read a length that is negative, or so large that `malloc(code + 1)` overflows. Otherwise it also keeps
to the critical section, so that every call to the store runs alone. Which bytes the threads receive,
and how many at a time, does not matter. Where `malloc` has returned `NULL` no harm is done as long as
bytes wait: the `recv` fails, and the thread ends.
-/

namespace MyJQL.ThreadSafety

open MyJQL.StateProgram
open MyJQL.KeyValueStore
open MyJQL.ServerModel
open MyJQL.ServerProtocol
open MyJQL.ServerSystem
open MyJQL.ServerThreads

set_option autoImplicit false

/-- A length that was checked, of a buffer that is as large. -/
structure InBuffer (buffer : Bytes) (length : Int) : Prop where
  nonneg : 0 ≤ length
  least : length ≤ maxStrLen
  room : length.toNat ≤ buffer.length

def Checked : RawCall → Prop
  | .get key keyLen value maxSize => InBuffer key keyLen ∧ InBuffer value maxSize ∧ maxSize = maxStrLen
  | .set key keyLen value valueLen => InBuffer key keyLen ∧ InBuffer value valueLen
  | .del key keyLen => InBuffer key keyLen

def Accepted (call : StoreCall) : Prop := ∃ driverCall, DriverCall.storeCall driverCall = some call

section Calls

variable {buffer : Bytes} {length : Int}

theorem buffer_prefix_of_in (within : InBuffer buffer length) :
    ∃ text : Bytes, bufferPrefix buffer length = some text ∧ text.length = length.toNat ∧ text.length ≤ maxStrLen := by
  obtain ⟨nonneg, least, room⟩ := within
  refine ⟨buffer.take length.toNat, if_pos ⟨nonneg, room⟩, ?_, ?_⟩
  · rw [List.length_take, Nat.min_eq_left room]
  · rw [List.length_take]
    omega

theorem checked_accepted {call : RawCall} (checked : Checked call) :
    ∃ storeCall, call.storeCall = some storeCall ∧ Accepted storeCall := by
  cases call with
  | get key keyLen value maxSize =>
      obtain ⟨inKey, inValue, rfl⟩ := checked
      obtain ⟨key, keyText, _, short⟩ := buffer_prefix_of_in inKey
      obtain ⟨room, roomText, size, _⟩ := buffer_prefix_of_in inValue
      refine ⟨.get key room.length, ?_, .get key, ?_⟩
      · rw [RawCall.storeCall, keyText, roomText]
        rfl
      · rw [DriverCall.storeCall, if_neg (Nat.not_lt.mpr short), size]
        rfl
  | set key keyLen value valueLen =>
      obtain ⟨inKey, inValue⟩ := checked
      obtain ⟨key, keyText, _, short⟩ := buffer_prefix_of_in inKey
      obtain ⟨value, valueText, _, valueShort⟩ := buffer_prefix_of_in inValue
      refine ⟨.set key value, ?_, .set key value, ?_⟩
      · rw [RawCall.storeCall, keyText, valueText]
        rfl
      · rw [DriverCall.storeCall, if_neg (Nat.not_lt.mpr short), if_neg (Nat.not_lt.mpr valueShort)]
  | del key keyLen =>
      obtain ⟨key, keyText, _, short⟩ := buffer_prefix_of_in checked
      refine ⟨.del key, ?_, .del key, ?_⟩
      · rw [RawCall.storeCall, keyText]
        rfl
      · rw [DriverCall.storeCall, if_neg (Nat.not_lt.mpr short)]

end Calls

/-- Neither negative nor the largest `int`: `malloc(length + 1)` returns a buffer for the length. -/
abbrev Allocable (length : Int) : Prop := 0 ≤ length ∧ length < 2 ^ 31 - 1

/-- A routine that stays within its buffers and enters and leaves the critical section in turn, as long as
there are buffers for all lengths. The flag tells whether it is inside. Without a buffer for the length the
thread goes on as if there were one. -/
inductive Sound : Bool → Routine → Prop
  | exited : Sound false .exited
  | again (code : Int) : Sound false (.again code)
  | recv {buffer : Bytes} {count : Int} {next : Bytes → Routine} (room : sizeT count ≤ buffer.length)
      (behind : ∀ after : Bytes, after.length = buffer.length → Sound false (next after)) :
      Sound false (.recv buffer count next)
  | malloc {length : Int} {next : Option Bytes → Routine}
      (behind : Allocable length → ∀ fresh : Bytes, fresh.length = length.toNat + 1 → Sound false (next (some fresh)))
      (beyond : ¬Allocable length → -2 ^ 31 ≤ length ∧ length < 2 ^ 31 ∧ ∃ more,
        (∀ fresh : Bytes, next (some fresh) = .recv fresh length fun after => .terminate after length more) ∧
        next none = .recvNull length (.terminate [] length more)) :
      Sound false (.malloc length next)
  | terminate {buffer : Bytes} {index : Int} {next : Bytes → Routine}
      (inside : 0 ≤ index ∧ index.toNat < buffer.length)
      (behind : ∀ after : Bytes, after.length = buffer.length → Sound false (next after)) :
      Sound false (.terminate buffer index next)
  | enter {next : Routine} (behind : Sound true next) : Sound false (.enter next)
  | perform {call : RawCall} {next : StoreAnswer → Routine} (checked : Checked call)
      (behind : ∀ answer, Sensible answer → Sound true (next answer)) : Sound true (.perform call next)
  | leave {next : Routine} (behind : Sound false next) : Sound true (.leave next)
  | send {buffer : Bytes} {count : Int} {next : Routine} (whole : 0 ≤ count ∧ count.toNat ≤ buffer.length)
      (behind : Sound false next) : Sound false (.send buffer count next)

theorem allocated_allocable {length : Int} (allocable : Allocable length) :
    allocated length = some (length.toNat + 1) := by
  obtain ⟨nonneg, small⟩ := allocable
  rw [allocated, if_pos ⟨by omega, by omega⟩]
  congr 1
  omega

section Routines

variable {code : Int}

theorem size_t_small {count : Int} (nonneg : 0 ≤ count) (small : count < 2 ^ 31) : sizeT count = count.toNat := by
  rw [sizeT, Int.emod_eq_of_lt nonneg (by omega)]

theorem int_of_bytes_bounds {bytes : Bytes} (size : bytes.length = intSize) :
    -2 ^ 31 ≤ intOfBytes bytes ∧ intOfBytes bytes < 2 ^ 31 := by
  match bytes, size with
  | [first, second, third, fourth], _ =>
      have := first.toNat_lt
      have := second.toNat_lt
      have := third.toNat_lt
      have := fourth.toNat_lt
      simp only [intOfBytes, List.foldr_cons, List.foldr_nil]
      split_ifs <;> omega

theorem sound_recv_code {next : Int → Routine}
    (behind : ∀ code, -2 ^ 31 ≤ code → code < 2 ^ 31 → Sound false (next code)) :
    Sound false (recvCode code next) := by
  refine .recv ?_ fun after size => ?_
  · rw [int_bytes_length]
    decide
  · obtain ⟨lower, upper⟩ := int_of_bytes_bounds (size.trans (int_bytes_length code))
    exact behind _ lower upper

theorem sound_send_code {next : Routine} (behind : Sound false next) : Sound false (sendCode code next) := by
  refine .send ?_ behind
  rw [int_bytes_length]
  decide

theorem sound_recv_buffer {next : Bytes → Routine} (lower : -2 ^ 31 ≤ code) (upper : code < 2 ^ 31)
    (behind : 0 ≤ code → ∀ buffer : Bytes, buffer.length = code.toNat + 1 → Sound false (next buffer)) :
    Sound false (recvBuffer code next) := by
  refine .malloc (fun allocable fresh size => ?_) fun notAllocable => ?_
  · obtain ⟨nonneg, small⟩ := allocable
    refine .recv ?_ fun read sameRead => .terminate ?_ fun ended sameEnded => ?_
    · rw [size_t_small nonneg (by omega), size]
      omega
    · exact ⟨nonneg, by omega⟩
    · exact behind nonneg ended (by omega)
  · exact ⟨lower, upper, next, fun _ => rfl, rfl⟩

theorem sound_reply_get {value : Bytes} {answer : StoreAnswer} (size : value.length = maxStrLen + 1)
    (sensible : Sensible answer) : Sound false (replyGet value answer) := by
  rw [replyGet]
  split_ifs with missing
  · exact sound_send_code (.again 0)
  · cases answer with
    | none => exact absurd rfl missing
    | some found =>
        obtain ⟨length, written⟩ := found
        obtain ⟨same, least⟩ := sensible length written rfl
        have small : length ≤ 1024 := least
        have size : value.length = 1025 := size
        have room : (filled value (some (length, written))).length = 1025 := by
          rw [filled, List.length_append, List.length_drop, size, same]
          omega
        have exact : valueLenOf (some (length, written)) = length := as_int_small (by omega)
        rw [exact]
        refine sound_send_code (sound_send_code (.send ?_ (.terminate ?_ fun _ _ => .again _)))
        · rw [room]
          omega
        · rw [room]
          omega

theorem in_buffer_of_size {buffer : Bytes} (nonneg : 0 ≤ code) (least : ¬code > maxStrLen)
    (size : buffer.length = code.toNat + 1) : InBuffer buffer code := ⟨nonneg, by omega, by omega⟩

theorem sound_serve_get (code : Int) : Sound false (serveGet code) := by
  refine sound_recv_code fun code lower upper => sound_recv_buffer lower upper fun nonneg key size => ?_
  split_ifs with long
  · exact sound_send_code (.again 2)
  · refine .malloc (fun _ value valueSize => .enter (.perform ⟨?_, ?_, rfl⟩ fun answer sensible => .leave ?_))
      fun notAllocable => absurd (by decide) notAllocable
    · exact in_buffer_of_size nonneg long size
    · have size : value.length = 1025 := valueSize
      exact ⟨by decide, Int.le_refl _, by rw [Option.getD_some, size]; decide⟩
    · exact sound_reply_get valueSize sensible

theorem sound_serve_set (code : Int) : Sound false (serveSet code) := by
  refine sound_recv_code fun keyLen lower upper => sound_recv_buffer lower upper fun keyNonneg key keySize => ?_
  refine sound_recv_code fun valueLen lower upper => sound_recv_buffer lower upper fun valueNonneg value valueSize => ?_
  split_ifs with keyLong valueLong
  · exact sound_send_code (.again 2)
  · exact sound_send_code (.again 3)
  · refine .enter (.perform ⟨?_, ?_⟩ fun _ _ => .leave (sound_send_code (.again 1)))
    · exact in_buffer_of_size keyNonneg keyLong keySize
    · exact in_buffer_of_size valueNonneg valueLong valueSize

theorem sound_serve_del (code : Int) : Sound false (serveDel code) := by
  refine sound_recv_code fun code lower upper => sound_recv_buffer lower upper fun nonneg key size => ?_
  split_ifs with long
  · exact sound_send_code (.again 2)
  · refine .enter (.perform ?_ fun _ _ => .leave (sound_send_code (.again 1)))
    exact in_buffer_of_size nonneg long size

theorem sound_instance_thread (code : Int) : Sound false (instanceThread code) := by
  refine sound_recv_code fun code _ _ => ?_
  split_ifs
  · exact sound_serve_get code
  · exact sound_serve_set code
  · exact sound_serve_del code
  · exact sound_send_code .exited
  · exact .again code

end Routines

def mayFail : Routine → Bool
  | .recv _ _ _ | .recvNull _ _ | .send _ _ _ => true
  | _ => false

/-- The moves of a thread, one for each thing that can happen to it. -/
inductive Moved (thread : Thread) : Move → Thread → Option Bytes → Prop
  | receive {buffer : Bytes} {asked : Int} {next : Bytes → Routine} {count : Nat}
      (here : thread.routine = .recv buffer asked next) (delivers : thread.delivers count) :
      Moved thread (.receive count) { thread with
        routine := received buffer (thread.incoming.take count) next
        incoming := thread.incoming.drop count } none
  | ended {asked : Int} {next : Routine} (here : thread.routine = .recvNull asked next)
      (ends : thread.incoming = [] ∧ thread.closed = true) :
      Moved thread (.receive 0) { thread with routine := next } none
  | fault {asked : Int} {next : Routine} (here : thread.routine = .recvNull asked next)
      (waits : thread.incoming ≠ []) :
      Moved thread .go { thread with routine := .exited } none
  | fail (here : mayFail thread.routine = true) : Moved thread .fail { thread with routine := .exited } none
  | allocate {length : Int} {next : Option Bytes → Routine} {fresh : Bytes}
      (here : thread.routine = .malloc length next) (size : allocated length = some fresh.length) :
      Moved thread (.allocate fresh) { thread with routine := next (some fresh) } none
  | null {length : Int} {next : Option Bytes → Routine} {fresh : Bytes} (here : thread.routine = .malloc length next)
      (beyond : allocated length = none) :
      Moved thread (.allocate fresh) { thread with routine := next none } none
  | again {code : Int} (here : thread.routine = .again code) :
      Moved thread .go { thread with routine := instanceThread code, turn := thread.turn + 1 } none
  | terminate {buffer : Bytes} {index : Int} {next : Bytes → Routine}
      (here : thread.routine = .terminate buffer index next) (inside : 0 ≤ index ∧ index.toNat < buffer.length) :
      Moved thread .go { thread with routine := next (buffer.set index.toNat 0) } none
  | overrun {buffer : Bytes} {index : Int} {next : Bytes → Routine}
      (here : thread.routine = .terminate buffer index next) (outside : ¬(0 ≤ index ∧ index.toNat < buffer.length)) :
      Moved thread .go { thread with routine := .undefined } none
  | send {buffer bytes : Bytes} {count : Int} {next : Routine} (here : thread.routine = .send buffer count next)
      (whole : bufferPrefix buffer count = some bytes) :
      Moved thread .go { thread with routine := next } (some bytes)
  | overread {buffer : Bytes} {count : Int} {next : Routine} (here : thread.routine = .send buffer count next)
      (beyond : bufferPrefix buffer count = none) :
      Moved thread .go { thread with routine := .undefined } none

theorem move_moved {thread after : Thread} {move : Move} {bytes : Option Bytes}
    (moved : thread.move move = some (after, bytes)) : Moved thread move after bytes := by
  cases move with
  | receive count =>
      simp only [Thread.move] at moved
      split at moved
      · next here =>
          split_ifs at moved with delivers
          cases moved
          exact .receive here delivers
      · next here =>
          split_ifs at moved with ends
          obtain ⟨rfl, ends⟩ := ends
          cases moved
          exact .ended here ends
      · cases moved
  | fail =>
      simp only [Thread.move] at moved
      split at moved
      · next here =>
          cases moved
          exact .fail (here ▸ rfl)
      · next here =>
          cases moved
          exact .fail (here ▸ rfl)
      · next here =>
          cases moved
          exact .fail (here ▸ rfl)
      · cases moved
  | allocate fresh =>
      simp only [Thread.move] at moved
      split at moved
      · next here =>
          split at moved
          · next size allocates =>
              split_ifs at moved with fits
              cases moved
              exact .allocate here (fits ▸ allocates)
          · next beyond =>
              cases moved
              exact .null here beyond
      · cases moved
  | go =>
      simp only [Thread.move] at moved
      split at moved
      · next here =>
          cases moved
          exact .again here
      · next here =>
          split_ifs at moved with waits
          cases moved
          exact .fault here waits
      · next here =>
          split_ifs at moved with inside
          · cases moved
            exact .terminate here inside
          · cases moved
            exact .overrun here inside
      · next here =>
          split at moved
          · next whole =>
              cases moved
              exact .send here whole
          · next beyond =>
              cases moved
              exact .overread here beyond
      · cases moved

section Steps

variable {Client Store : Type} [DecidableEq Client] {backend : StoreCall → Program Store StoreAnswer}
  {server after : Server Client Store} {choice : Choice Client Store}

def replies (client : Client) (turn : Nat) : Option Bytes → List (Event Client)
  | none => []
  | some bytes => [.replied client turn bytes]

/-- The steps of the server, one for each thing that can happen. -/
inductive Taken (backend : StoreCall → Program Store StoreAnswer) (server : Server Client Store) :
    Choice Client Store → Server Client Store → Prop
  | send {client : Client} {request : Bytes} {rest : List Bytes} (unsent : server.unsent client = request :: rest) :
      Taken backend server (.send client)
        (({ server with unsent := Function.update server.unsent client rest }.put client
          { server.threads client with
            incoming := (server.threads client).incoming ++ request
            requests := (server.threads client).requests + 1 }).tell
              [.sent client (server.threads client).requests])
  | close {client : Client} (unsent : server.unsent client = []) :
      Taken backend server (.close client) (server.put client { server.threads client with closed := true })
  | move {client : Client} {move : Move} {thread : Thread} {bytes : Option Bytes}
      (moved : Moved (server.threads client) move thread bytes) :
      Taken backend server (.move client move)
        ((server.put client thread).tell (replies client (server.threads client).turn bytes))
  | enter {client : Client} {next : Routine} (here : (server.threads client).routine = .enter next)
      (free : server.owner = none) :
      Taken backend server (.enter client) ({ server with owner := some (.instanceThread client) }.resume client next)
  | perform {client : Client} {call : RawCall} {storeCall : StoreCall} {next : StoreAnswer → Routine}
      (here : (server.threads client).routine = .perform call next) (within : call.storeCall = some storeCall) :
      Taken backend server (.perform client)
        ({ server with running := client :: server.running }.resume client (.running storeCall next))
  | beyond {client : Client} {call : RawCall} {next : StoreAnswer → Routine}
      (here : (server.threads client).routine = .perform call next) (outside : call.storeCall = none) :
      Taken backend server (.perform client) (server.resume client .undefined)
  | finish {client : Client} {call : StoreCall} {next : StoreAnswer → Routine} {answer : StoreAnswer} {store : Store}
      (here : (server.threads client).routine = .running call next) (alone : server.running = [client])
      (ran : backend call server.store = some (answer, store)) :
      Taken backend server (.finish client) (server.answered client call answer store next)
  | clash {client : Client} {call : StoreCall} {next : StoreAnswer → Routine} {answer : StoreAnswer} {store : Store}
      (here : (server.threads client).routine = .running call next) (others : server.running ≠ [client]) :
      Taken backend server (.clash client answer store) (server.answered client call answer store next)
  | leave {client : Client} {next : Routine} (here : (server.threads client).routine = .leave next) :
      Taken backend server (.leave client) ({ server with owner := none }.resume client next)

theorem run_steps {allows : Choice Client Store → Server Client Store → Prop}
    [∀ choice server, Decidable (allows choice server)] {choices : List (Choice Client Store)}
    (ran : server.run allows backend choices = some after) :
    Relation.ReflTransGen (Step allows backend) server after := by
  induction choices generalizing server with
  | nil =>
      cases ran
      exact .refl
  | cons choice rest ih =>
      rw [Server.run] at ran
      split_ifs at ran with allowed
      split at ran
      · next middle taken => exact (ih ran).head ⟨choice, allowed, taken⟩
      · cases ran

theorem take_taken (taken : server.take backend choice = some after) : Taken backend server choice after := by
  cases choice with
  | send client =>
      simp only [Server.take] at taken
      split at taken
      · cases taken
      · next unsent =>
          cases taken
          exact .send unsent
  | close client =>
      simp only [Server.take] at taken
      split at taken
      · next unsent =>
          cases taken
          exact .close unsent
      · cases taken
  | move client move =>
      simp only [Server.take] at taken
      split at taken
      · next moved =>
          cases taken
          have step : Taken backend server _ _ := .move (move_moved moved)
          rwa [replies, Server.tell, List.append_nil] at step
      · next moved =>
          cases taken
          exact .move (move_moved moved)
      · cases taken
  | enter client =>
      simp only [Server.take] at taken
      split at taken
      · next here =>
          split_ifs at taken with free
          cases taken
          exact .enter here (Option.isNone_iff_eq_none.mp free)
      · cases taken
  | perform client =>
      simp only [Server.take] at taken
      split at taken
      · next here =>
          split at taken
          · next within =>
              cases taken
              exact .perform here within
          · next outside =>
              cases taken
              exact .beyond here outside
      · cases taken
  | finish client =>
      simp only [Server.take] at taken
      split at taken
      · next here =>
          split_ifs at taken with alone
          split at taken
          · next ran =>
              cases taken
              exact .finish here alone ran
          · cases taken
      · cases taken
  | clash client answer store =>
      simp only [Server.take] at taken
      split at taken
      · next here =>
          split_ifs at taken with alone
          cases taken
          exact .clash here alone
      · cases taken
  | leave client =>
      simp only [Server.take] at taken
      split at taken
      · next here =>
          cases taken
          exact .leave here
      · cases taken

end Steps

section Frames

variable {Client Store : Type} [DecidableEq Client] {server : Server Client Store} {client other : Client}
  {thread : Thread} {routine : Routine}

@[simp] theorem put_thread_self : (server.put client thread).threads client = thread := Function.update_self _ _ _

@[simp] theorem put_thread_other (different : other ≠ client) :
    (server.put client thread).threads other = server.threads other := Function.update_of_ne different _ _

@[simp] theorem put_store : (server.put client thread).store = server.store := rfl

@[simp] theorem put_owner : (server.put client thread).owner = server.owner := rfl

@[simp] theorem put_running : (server.put client thread).running = server.running := rfl

@[simp] theorem put_unsent : (server.put client thread).unsent = server.unsent := rfl

@[simp] theorem put_trace : (server.put client thread).trace = server.trace := rfl

@[simp] theorem resume_eq_put : server.resume client routine =
    server.put client { server.threads client with routine := routine } := rfl

omit [DecidableEq Client] in
@[simp] theorem tell_trace (events : List (Event Client)) : (server.tell events).trace = server.trace ++ events := rfl

omit [DecidableEq Client] in
@[simp] theorem tell_threads (events : List (Event Client)) : (server.tell events).threads = server.threads := rfl

omit [DecidableEq Client] in
@[simp] theorem tell_store (events : List (Event Client)) : (server.tell events).store = server.store := rfl

omit [DecidableEq Client] in
@[simp] theorem tell_owner (events : List (Event Client)) : (server.tell events).owner = server.owner := rfl

omit [DecidableEq Client] in
@[simp] theorem tell_running (events : List (Event Client)) : (server.tell events).running = server.running := rfl

omit [DecidableEq Client] in
@[simp] theorem tell_unsent (events : List (Event Client)) : (server.tell events).unsent = server.unsent := rfl

end Frames

/-- Every thread that allocates does so for a length that there is a buffer for. -/
def InRange {Client Store : Type} : Choice Client Store → Server Client Store → Prop
  | .move client (.allocate _), server =>
      ∀ length next, (server.threads client).routine = .malloc length next → Allocable length
  | _, _ => True

def lengthOf : Routine → Option Int
  | .malloc length _ => some length
  | _ => none

theorem length_of_some {routine : Routine} {length : Int} :
    length ∈ lengthOf routine ↔ ∃ next, routine = .malloc length next := by
  cases routine <;> simp [lengthOf]

theorem allocate_in_range {Client Store : Type} {client : Client} {fresh : Bytes} {server : Server Client Store} :
    (∀ length ∈ lengthOf (server.threads client).routine, Allocable length) ↔
      InRange (.move client (.allocate fresh)) server := by
  constructor
  · intro all length next here
    exact all length (length_of_some.mpr ⟨next, here⟩)
  · intro all length member
    exact (length_of_some.mp member).elim (all length)

instance {Client Store : Type} :
    ∀ (choice : Choice Client Store) (server : Server Client Store), Decidable (InRange choice server)
  | .move _ (.allocate _), _ => decidable_of_iff _ allocate_in_range
  | .move _ .fail, _ | .move _ (.receive _), _ | .move _ .go, _ | .send _, _ | .close _, _ | .enter _, _
  | .perform _, _ | .finish _, _ | .clash _ _ _, _ | .leave _, _ => inferInstanceAs (Decidable True)

section Discipline

variable {thread after : Thread} {move : Move} {bytes : Option Bytes} {inside : Bool}

theorem asked_of_recv {buffer : Bytes} {count : Int} {next : Bytes → Routine}
    (here : thread.routine = .recv buffer count next) : thread.asked = sizeT count := by
  rw [Thread.asked, here]

theorem delivers_length {count : Nat} (delivers : thread.delivers count) :
    (thread.incoming.take count).length = count ∧ count ≤ thread.asked := by
  rw [List.length_take, Nat.min_eq_left delivers.2.1]
  exact ⟨rfl, delivers.1⟩

end Discipline

/-- Where a thread stands: at a sound routine, within a call to the store, or, if there are such threads, at
a `recv` to `NULL`. -/
inductive Standing (nulls : Prop) : Bool → Routine → Prop
  | sound {inside : Bool} {routine : Routine} (sound : Sound inside routine) : Standing nulls inside routine
  | running {call : StoreCall} {next : StoreAnswer → Routine} (accepted : Accepted call)
      (behind : ∀ answer, Sensible answer → Sound true (next answer)) : Standing nulls true (.running call next)
  | noBuffer {length : Int} {more : Bytes → Routine} (some : nulls) :
      Standing nulls false (.recvNull length (.terminate [] length more))

theorem sound_not_running {inside : Bool} {routine : Routine} (sound : Sound inside routine) :
    ¬∃ call next, routine = .running call next := by
  rintro ⟨call, next, rfl⟩
  cases sound

theorem standing_not_running {nulls : Prop} {routine : Routine} (standing : Standing nulls false routine) :
    ¬∃ call next, routine = .running call next := by
  rintro ⟨call, next, rfl⟩
  cases standing with
  | sound sound => exact sound_not_running sound ⟨call, next, rfl⟩

def Pauses (routine : Routine) : Prop :=
  (¬∃ call next, routine = .running call next) ∧ ¬∃ asked next, routine = .recvNull asked next

theorem standing_sound {nulls inside} {routine : Routine} (standing : Standing nulls inside routine)
    (pauses : Pauses routine) : Sound inside routine := by
  cases standing with
  | sound sound => exact sound
  | running _ _ => exact absurd ⟨_, _, rfl⟩ pauses.1
  | noBuffer _ => exact absurd ⟨_, _, rfl⟩ pauses.2

theorem standing_running {nulls inside} {call : StoreCall} {next : StoreAnswer → Routine}
    (standing : Standing nulls inside (.running call next)) :
    inside = true ∧ Accepted call ∧ ∀ answer, Sensible answer → Sound true (next answer) := by
  cases standing with
  | sound sound => cases sound
  | running accepted behind => exact ⟨rfl, accepted, behind⟩

theorem sound_malloc {inside : Bool} {length : Int} {next : Option Bytes → Routine}
    (sound : Sound inside (.malloc length next)) (notAllocable : ¬Allocable length) :
    -2 ^ 31 ≤ length ∧ length < 2 ^ 31 ∧ ∃ more,
      (∀ fresh : Bytes, next (some fresh) = .recv fresh length fun after => .terminate after length more) ∧
      next none = .recvNull length (.terminate [] length more) := by
  cases sound with
  | malloc _ beyond => exact beyond notAllocable

theorem sound_enter {inside : Bool} {next : Routine} (sound : Sound inside (.enter next)) : Sound true next := by
  cases sound with
  | enter behind => exact behind

theorem sound_perform {inside : Bool} {call : RawCall} {next : StoreAnswer → Routine}
    (sound : Sound inside (.perform call next)) :
    inside = true ∧ Checked call ∧ ∀ answer, Sensible answer → Sound true (next answer) := by
  cases sound with
  | perform checked behind => exact ⟨rfl, checked, behind⟩

theorem sound_leave {inside : Bool} {next : Routine} (sound : Sound inside (.leave next)) :
    inside = true ∧ Sound false next := by
  cases sound with
  | leave behind => exact ⟨rfl, behind⟩

section Moves

variable {nulls : Prop} {thread after : Thread} {move : Move} {bytes : Option Bytes} {inside : Bool}

theorem moved_pauses (moved : Moved thread move after bytes) : ¬∃ call next, thread.routine = .running call next := by
  rintro ⟨call, next, runs⟩
  cases moved with
  | fail here =>
      rw [runs] at here
      cases here
  | receive here _ | ended here _ | fault here _ | allocate here _ | null here _ | again here | terminate here _
  | overrun here _ | send here _ | overread here _ =>
      rw [here] at runs
      cases runs

/-- A thread that allocates for this length finds a buffer, or it gets `NULL` where that may happen. -/
def Met (nulls : Prop) (length : Int) : Prop := Allocable length ∨ (nulls ∧ length ≠ -1)

theorem sound_allocate {length : Int} {next : Option Bytes → Routine} {fresh : Bytes}
    (sound : Sound inside (.malloc length next)) (met : Met nulls length)
    (size : allocated length = some fresh.length) : inside = false ∧ Sound false (next (some fresh)) := by
  have allocable : Allocable length := by
    rcases met with allocable | ⟨_, notMinusOne⟩
    · exact allocable
    · rw [allocated, Option.ite_none_right_eq_some] at size
      exact ⟨by omega, by omega⟩
  rw [allocated_allocable allocable, Option.some_inj] at size
  cases sound with
  | malloc behind _ => exact ⟨rfl, behind allocable fresh size.symm⟩

theorem sound_null {length : Int} {next : Option Bytes → Routine} (sound : Sound inside (.malloc length next))
    (met : Met nulls length) (beyond : allocated length = none) :
    inside = false ∧ Standing nulls false (next none) := by
  rcases met with allocable | ⟨some, _⟩
  · rw [allocated_allocable allocable] at beyond
    cases beyond
  · have notAllocable : ¬Allocable length := by
      intro allocable
      rw [allocated_allocable allocable] at beyond
      cases beyond
    obtain ⟨_, _, more, _, null⟩ := sound_malloc sound notAllocable
    rw [null]
    cases sound
    exact ⟨rfl, .noBuffer some⟩

/-- Only a thread outside moves by itself. -/
theorem sound_moved (sound : Sound inside thread.routine) (moved : Moved thread move after bytes)
    (range : ∀ fresh length next, move = .allocate fresh → thread.routine = .malloc length next → Met nulls length) :
    inside = false ∧ Standing nulls false after.routine := by
  cases moved with
  | receive here delivers =>
      rw [here] at sound
      cases sound with
      | recv room behind =>
          obtain ⟨length, least⟩ := delivers_length delivers
          rw [asked_of_recv here] at least
          refine ⟨rfl, .sound (behind _ ?_)⟩
          rw [List.length_append, List.length_take, length, List.length_drop]
          omega
  | ended here _ | fault here _ =>
      rw [here] at sound
      cases sound
  | fail here =>
      refine ⟨?_, .sound .exited⟩
      generalize thread.routine = routine at sound here
      cases sound with
      | perform _ _ | leave _ => cases here
      | exited | again _ | recv _ _ | malloc _ _ | terminate _ _ | enter _ | send _ _ => rfl
  | allocate here size =>
      have met := range _ _ _ rfl here
      rw [here] at sound
      obtain ⟨outside, sound⟩ := sound_allocate sound met size
      exact ⟨outside, .sound sound⟩
  | null here beyond =>
      have met := range _ _ _ rfl here
      rw [here] at sound
      exact sound_null sound met beyond
  | again here =>
      rw [here] at sound
      cases sound
      exact ⟨rfl, .sound (sound_instance_thread _)⟩
  | terminate here within =>
      rw [here] at sound
      cases sound with
      | terminate inside behind => exact ⟨rfl, .sound (behind _ (List.length_set ..))⟩
  | overrun here outside =>
      rw [here] at sound
      cases sound with
      | terminate inside behind => exact absurd inside outside
  | send here whole =>
      rw [here] at sound
      cases sound with
      | send whole behind => exact ⟨rfl, .sound behind⟩
  | overread here beyond =>
      rw [here] at sound
      cases sound with
      | send whole behind =>
          rw [bufferPrefix, if_pos whole] at beyond
          cases beyond

/-- At a `recv` to `NULL` a thread ends, unless its stream has ended. -/
theorem standing_moved (standing : Standing nulls inside thread.routine) (moved : Moved thread move after bytes)
    (range : ∀ fresh length next, move = .allocate fresh → thread.routine = .malloc length next → Met nulls length)
    (buffered : ∀ count asked next, move = .receive count → thread.routine = .recvNull asked next → ¬nulls) :
    inside = false ∧ Standing nulls false after.routine := by
  generalize stands : thread.routine = routine at standing
  cases standing with
  | sound sound => exact sound_moved (stands ▸ sound) moved range
  | running _ _ => exact absurd ⟨_, _, stands⟩ (moved_pauses moved)
  | noBuffer some =>
      refine ⟨rfl, ?_⟩
      cases moved with
      | ended here _ => exact absurd some (buffered _ _ _ rfl here)
      | fault _ _ | fail _ => exact .sound .exited
      | receive here _ | allocate here _ | null here _ | again here | terminate here _ | overrun here _
      | send here _ | overread here _ =>
          rw [stands] at here
          cases here

end Moves

section System

variable {Client Store : Type} [DecidableEq Client] {nulls : Prop}
  {backend : StoreCall → Program Store StoreAnswer} {server after : Server Client Store}
  {choice : Choice Client Store} {client : Client}

/-- Every thread keeps to the rules, the owner of the critical section within it and the others outside;
the threads that run a call are listed. -/
structure DisciplinedUpTo (nulls : Prop) (server : Server Client Store) : Prop where
  standing : ∀ client,
    Standing nulls (decide (server.owner = some (.instanceThread client))) (server.threads client).routine
  running : ∀ client, client ∈ server.running ↔ ∃ call next, (server.threads client).routine = .running call next
  once : server.running.Nodup

/-- No thread is without a buffer. -/
abbrev Disciplined (server : Server Client Store) : Prop := DisciplinedUpTo False server

/-- What a step does not do: allocate where it must not, and, where threads may be without a buffer, find the
end of a stream there. -/
def Sheltered (nulls : Prop) : Choice Client Store → Server Client Store → Prop
  | .move client (.allocate _), server =>
      ∀ length next, (server.threads client).routine = .malloc length next → Met nulls length
  | .move client (.receive _), server =>
      ∀ asked next, (server.threads client).routine = .recvNull asked next → ¬nulls
  | _, _ => True

omit [DecidableEq Client] in
theorem in_range_sheltered (range : InRange choice server) : Sheltered False choice server := by
  unfold Sheltered
  split
  · exact fun length next here => .inl (range length next here)
  · exact fun _ _ _ => not_false
  · trivial

theorem running_owns (disciplined : DisciplinedUpTo nulls server) {call : StoreCall} {next : StoreAnswer → Routine}
    (here : (server.threads client).routine = .running call next) : server.owner = some (.instanceThread client) := by
  have standing := disciplined.standing client
  rw [here] at standing
  exact of_decide_eq_true (standing_running standing).1

theorem disciplined_buffered (disciplined : Disciplined server) {asked : Int} {next : Routine} :
    (server.threads client).routine ≠ .recvNull asked next := by
  intro here
  have standing := disciplined.standing client
  rw [here] at standing
  generalize decide (server.owner = some (.instanceThread client)) = inside at standing
  cases standing with
  | sound sound => cases sound
  | noBuffer never => exact never

/-- Whoever runs a call runs it alone. -/
theorem disciplined_alone (disciplined : DisciplinedUpTo nulls server) {call : StoreCall} {next : StoreAnswer → Routine}
    (here : (server.threads client).routine = .running call next) : server.running = [client] := by
  have member := (disciplined.running client).mpr ⟨call, next, here⟩
  have only : ∀ other ∈ server.running, other = client := by
    intro other listed
    obtain ⟨call, next, there⟩ := (disciplined.running other).mp listed
    have same := (running_owns disciplined there).symm.trans (running_owns disciplined here)
    cases same
    rfl
  have single := List.eq_replicate_of_mem only
  have once := disciplined.once
  rw [single, List.nodup_replicate] at once
  have nonempty := List.length_pos_of_mem member
  rw [single, show server.running.length = 1 by omega]
  rfl

theorem disciplined_update (client : Client) (disciplined : DisciplinedUpTo nulls server)
    (others : ∀ other, other ≠ client → after.threads other = server.threads other)
    (owners : ∀ other, other ≠ client →
      (after.owner = some (.instanceThread other) ↔ server.owner = some (.instanceThread other)))
    (own : Standing nulls (decide (after.owner = some (.instanceThread client))) (after.threads client).routine)
    (same : ∀ other, other ≠ client → (other ∈ after.running ↔ other ∈ server.running))
    (runs : client ∈ after.running ↔ ∃ call next, (after.threads client).routine = .running call next)
    (once : after.running.Nodup) : DisciplinedUpTo nulls after := by
  refine ⟨?_, ?_, once⟩
  · intro other
    by_cases isClient : other = client
    · subst isClient
      exact own
    · rw [others other isClient, decide_eq_decide.mpr (owners other isClient)]
      exact disciplined.standing other
  · intro other
    by_cases isClient : other = client
    · subst isClient
      exact runs
    · rw [same other isClient, others other isClient]
      exact disciplined.running other

theorem disciplined_pause (client : Client) (disciplined : DisciplinedUpTo nulls server)
    (pauses : ¬∃ call next, (server.threads client).routine = .running call next)
    (others : ∀ other, other ≠ client → after.threads other = server.threads other)
    (owners : ∀ other, other ≠ client →
      (after.owner = some (.instanceThread other) ↔ server.owner = some (.instanceThread other)))
    (own : Standing nulls (decide (after.owner = some (.instanceThread client))) (after.threads client).routine)
    (still : ¬∃ call next, (after.threads client).routine = .running call next)
    (same : after.running = server.running) : DisciplinedUpTo nulls after := by
  refine disciplined_update client disciplined others owners own (fun _ _ => by rw [same]) ?_
    (same ▸ disciplined.once)
  rw [same, disciplined.running]
  exact ⟨fun runs => absurd runs pauses, fun runs => absurd runs still⟩

theorem disciplined_client (client : Client) (disciplined : DisciplinedUpTo nulls server)
    (others : ∀ other, other ≠ client → after.threads other = server.threads other)
    (owner : after.owner = server.owner) (own : (after.threads client).routine = (server.threads client).routine)
    (same : after.running = server.running) : DisciplinedUpTo nulls after := by
  refine disciplined_update client disciplined others (fun _ _ => by rw [owner]) ?_ (fun _ _ => by rw [same]) ?_
    (same ▸ disciplined.once)
  · rw [own, owner]
    exact disciplined.standing client
  · rw [own, same]
    exact disciplined.running client

theorem disciplined_finish {call : StoreCall} {next : StoreAnswer → Routine} {answer : StoreAnswer} {store : Store}
    (disciplined : DisciplinedUpTo nulls server) (here : (server.threads client).routine = .running call next)
    (sensible : Sensible answer) : DisciplinedUpTo nulls (server.answered client call answer store next) := by
  have owns := running_owns disciplined here
  have standing := disciplined.standing client
  rw [here] at standing
  obtain ⟨_, _, behind⟩ := standing_running standing
  have sound := behind answer sensible
  refine disciplined_update client disciplined (fun other different => ?_) (fun _ _ => Iff.rfl) ?_
    (fun other different => ?_) ?_ (disciplined.once.erase client)
  · exact put_thread_other different
  · simp only [Server.answered, resume_eq_put, tell_owner, put_owner, tell_threads, put_thread_self, owns, decide_true]
    exact .sound sound
  · exact List.mem_erase_of_ne different
  · simp only [Server.answered, resume_eq_put, tell_running, put_running, tell_threads, put_thread_self,
      disciplined_alone disciplined here, List.erase_cons_head, List.not_mem_nil, false_iff]
    exact sound_not_running sound

theorem disciplined_taken (disciplined : DisciplinedUpTo nulls server) (sheltered : Sheltered nulls choice server)
    (sensible : ∀ client call next answer store, (server.threads client).routine = .running call next →
      backend call server.store = some (answer, store) → Sensible answer)
    (taken : Taken backend server choice after) : DisciplinedUpTo nulls after := by
  cases taken with
  | @send client request rest unsent =>
      refine disciplined_client client disciplined (fun other different => ?_) rfl ?_ rfl
      · rw [tell_threads, put_thread_other different]
      · rw [tell_threads, put_thread_self]
  | @close client unsent =>
      refine disciplined_client client disciplined (fun other different => ?_) rfl ?_ rfl
      · rw [put_thread_other different]
      · rw [put_thread_self]
  | @move client move thread bytes moved =>
      obtain ⟨outside, standing⟩ := standing_moved (disciplined.standing client) moved
        (by
          rintro fresh length next rfl here
          exact sheltered length next here)
        (by
          rintro count asked next rfl here
          exact sheltered asked next here)
      refine disciplined_pause client disciplined (moved_pauses moved) (fun other different => ?_)
        (fun _ _ => Iff.rfl) ?_ ?_ rfl
      · rw [tell_threads, put_thread_other different]
      · rw [tell_owner, put_owner, outside, tell_threads, put_thread_self]
        exact standing
      · rw [tell_threads, put_thread_self]
        exact standing_not_running standing
  | @enter client next here free =>
      have pauses : Pauses (server.threads client).routine := by simp [Pauses, here]
      have sound := standing_sound (disciplined.standing client) pauses
      rw [here] at sound
      have entered := sound_enter sound
      refine disciplined_pause client disciplined pauses.1 (fun other different => ?_)
        (fun other different => ?_) ?_ ?_ rfl
      · rw [resume_eq_put, put_thread_other different]
      · simp [free, Ne.symm different]
      · simpa using .sound entered
      · rw [resume_eq_put, put_thread_self]
        exact sound_not_running entered
  | @perform client call storeCall next here within =>
      have pauses : Pauses (server.threads client).routine := by simp [Pauses, here]
      have sound := standing_sound (disciplined.standing client) pauses
      rw [here] at sound
      obtain ⟨inside, checked, behind⟩ := sound_perform sound
      obtain ⟨_, same, accepted⟩ := checked_accepted checked
      rw [within] at same
      cases same
      have absent : client ∉ server.running := fun member => pauses.1 ((disciplined.running client).mp member)
      refine disciplined_update client disciplined (fun other different => ?_) (fun _ _ => Iff.rfl) ?_
        (fun other different => ?_) ?_ (List.nodup_cons.mpr ⟨absent, disciplined.once⟩)
      · rw [resume_eq_put, put_thread_other different]
      · rw [resume_eq_put, put_owner, inside, put_thread_self]
        exact .running accepted behind
      · simp [different]
      · simp
  | @beyond client call next here outside =>
      have sound := standing_sound (disciplined.standing client) (by simp [Pauses, here])
      rw [here] at sound
      obtain ⟨_, same, _⟩ := checked_accepted (sound_perform sound).2.1
      rw [outside] at same
      cases same
  | finish here alone ran => exact disciplined_finish disciplined here (sensible _ _ _ _ _ here ran)
  | clash here others => exact absurd (disciplined_alone disciplined here) others
  | @leave client next here =>
      have pauses : Pauses (server.threads client).routine := by simp [Pauses, here]
      have sound := standing_sound (disciplined.standing client) pauses
      rw [here] at sound
      obtain ⟨inside, behind⟩ := sound_leave sound
      have owns := of_decide_eq_true inside
      refine disciplined_pause client disciplined pauses.1 (fun other different => ?_)
        (fun other different => ?_) ?_ ?_ rfl
      · rw [resume_eq_put, put_thread_other different]
      · simp [owns, Ne.symm different]
      · simpa using .sound behind
      · rw [resume_eq_put, put_thread_self]
        exact sound_not_running behind

end System

namespace Event

variable {Client : Type}

def operation : Event Client → Option (Client × Nat × StoreCall × StoreAnswer)
  | .performed client index call answer => some (client, index, call, answer)
  | _ => none

end Event

section Trace

variable {Client : Type} {trace : List (Event Client)}

def operations (trace : List (Event Client)) : List (Client × Nat × StoreCall × StoreAnswer) :=
  trace.filterMap Event.operation

def storeLog (trace : List (Event Client)) : List (StoreCall × StoreAnswer) :=
  (operations trace).map fun operation => operation.2.2

@[simp] theorem operations_append (front back : List (Event Client)) :
    operations (front ++ back) = operations front ++ operations back := List.filterMap_append

theorem store_log_append (front back : List (Event Client)) :
    storeLog (front ++ back) = storeLog front ++ storeLog back := by
  rw [storeLog, operations_append, List.map_append]
  rfl

theorem store_log_quiet {events : List (Event Client)} (quiet : operations events = []) :
    storeLog (trace ++ events) = storeLog trace := by
  rw [store_log_append, storeLog, storeLog, quiet]
  exact List.append_nil _

theorem replies_quiet (client : Client) (turn : Nat) (bytes : Option Bytes) :
    operations (replies client turn bytes) = [] := by
  cases bytes <;> rfl

end Trace

section Store

variable {Client Store : Type} [DecidableEq Client] {nulls : Prop}
  {represents : Bindings → Store → Prop} {backend : StoreCall → Program Store StoreAnswer} {start : Bindings}
  {server after : Server Client Store} {choice : Choice Client Store} {client : Client}

/-- The store is the map that the calls performed so far have made, and they were answered from it. -/
structure Stored (represents : Bindings → Store → Prop) (start : Bindings) (server : Server Client Store) : Prop where
  stored : represents (replay start ((storeLog server.trace).map Prod.fst)) server.store
  answered : Answered start (storeLog server.trace)
  accepted : ∀ call ∈ (storeLog server.trace).map Prod.fst, Accepted call

omit [DecidableEq Client] in
theorem stored_quiet {events : List (Event Client)} (stored : Stored represents start server)
    (store : after.store = server.store) (trace : after.trace = server.trace ++ events)
    (quiet : operations events = []) : Stored represents start after := by
  obtain ⟨represented, answered, accepted⟩ := stored
  refine ⟨?_, ?_, ?_⟩
  all_goals
    rw [trace, store_log_quiet quiet]
  · rw [store]
    exact represented
  · exact answered
  · exact accepted

theorem stored_sensible (faithful : Faithful represents backend) (bounded : Bounded start)
    (disciplined : DisciplinedUpTo nulls server) (stored : Stored represents start server) :
    ∀ client call next answer store, (server.threads client).routine = .running call next →
      backend call server.store = some (answer, store) → Sensible answer := by
  intro client call next answer store here ran
  have standing := disciplined.standing client
  rw [here] at standing
  obtain ⟨_, ⟨driverCall, accepted⟩, _⟩ := standing_running standing
  obtain ⟨_, _, rfl, _⟩ := allows_of_ensures (faithful _ call) _ stored.stored _ _ ran
  exact accepted_sensible accepted (replay_bounded bounded stored.accepted)

theorem stored_finish (faithful : Faithful represents backend) (disciplined : DisciplinedUpTo nulls server)
    (stored : Stored represents start server) {call : StoreCall} {next : StoreAnswer → Routine} {answer : StoreAnswer}
    {store : Store} (here : (server.threads client).routine = .running call next)
    (ran : backend call server.store = some (answer, store)) :
    Stored represents start (server.answered client call answer store next) := by
  have standing := disciplined.standing client
  rw [here] at standing
  obtain ⟨_, accepted, _⟩ := standing_running standing
  obtain ⟨_, related, answeredNow, rfl⟩ := allows_of_ensures (faithful _ call) _ stored.stored _ _ ran
  have log : storeLog (server.answered client call answer store next).trace =
      storeLog server.trace ++ [(call, answer)] := by
    simp only [Server.answered, resume_eq_put, tell_trace, put_trace, store_log_append]
    rfl
  refine ⟨?_, ?_, ?_⟩
  · rw [log, List.map_append, replay_append]
    exact related
  · rw [log, answered_append]
    exact ⟨stored.answered, answeredNow, trivial⟩
  · rw [log, List.map_append]
    intro other member
    rcases List.mem_append.mp member with old | new
    · exact stored.accepted other old
    · rw [List.mem_singleton.mp new]
      exact accepted

theorem stored_taken (faithful : Faithful represents backend) (disciplined : DisciplinedUpTo nulls server)
    (stored : Stored represents start server) (taken : Taken backend server choice after) :
    Stored represents start after := by
  cases taken with
  | send unsent => exact stored_quiet stored rfl rfl rfl
  | close unsent => exact stored_quiet stored rfl (List.append_nil _).symm rfl
  | move moved => exact stored_quiet stored rfl rfl (replies_quiet _ _ _)
  | enter here free => exact stored_quiet stored rfl (List.append_nil _).symm rfl
  | perform here within => exact stored_quiet stored rfl (List.append_nil _).symm rfl
  | beyond here outside => exact stored_quiet stored rfl (List.append_nil _).symm rfl
  | finish here alone ran => exact stored_finish faithful disciplined stored here ran
  | clash here others => exact absurd (disciplined_alone disciplined here) others
  | leave here => exact stored_quiet stored rfl (List.append_nil _).symm rfl

theorem started_disciplined (store : Store) (codes : Client → Int) (streams : Client → List Bytes) :
    DisciplinedUpTo nulls (Server.started store codes streams) := by
  refine ⟨fun client => ?_, fun client => ?_, List.nodup_nil⟩
  · exact .sound (sound_instance_thread _)
  · have quiet := sound_not_running (sound_instance_thread (codes client))
    exact ⟨fun member => absurd member List.not_mem_nil, fun runs => absurd runs quiet⟩

omit [DecidableEq Client] in
theorem started_stored {store : Store} (related : represents start store) (codes : Client → Int)
    (streams : Client → List Bytes) : Stored represents start (Server.started store codes streams) :=
  ⟨related, trivial, by simp [Server.started, storeLog, operations]⟩

theorem sheltered_step (faithful : Faithful represents backend) (bounded : Bounded start)
    (disciplined : DisciplinedUpTo nulls server) (stored : Stored represents start server)
    (sheltered : Sheltered nulls choice server) (taken : Taken backend server choice after) :
    DisciplinedUpTo nulls after ∧ Stored represents start after :=
  ⟨disciplined_taken disciplined sheltered (stored_sensible faithful bounded disciplined stored) taken,
    stored_taken faithful disciplined stored taken⟩

theorem safe_step (faithful : Faithful represents backend) (bounded : Bounded start)
    (disciplined : Disciplined server) (stored : Stored represents start server)
    (range : InRange choice server) (taken : Taken backend server choice after) :
    Disciplined after ∧ Stored represents start after :=
  sheltered_step faithful bounded disciplined stored (in_range_sheltered range) taken

end Store

end MyJQL.ThreadSafety
