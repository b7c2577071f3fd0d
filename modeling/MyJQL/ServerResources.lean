import Mathlib.Logic.Relation
import MyJQL.ExclusiveOwners
import MyJQL.ThreadResources

/-!
# The memory and the sockets of the server

The accept loop of `main` and any number of threads, over one heap and one table of sockets. `malloc` may return
an address and `accept` a socket again that was given up before, so what is freed or closed twice, or used
too late, would be somebody else's. The blocks that `insert_handler` takes stay its own. The socket that `main`
listens on is not among the sockets.
-/

namespace MyJQL.ServerResources

open MyJQL.KeyValueStore
open MyJQL.ExclusiveOwners
open MyJQL.ThreadResources
open MyJQL.ServerProtocol (Sensible)
open MyJQL.ThreadSafety (Sound sound_instance_thread)

set_option autoImplicit false

/-- Where `main` stands in its loop: it accepts, allocates `arg`, and creates a thread or cleans up. -/
inductive Main where
  | awaiting
  | accepted (clientSocket : Nat)
  | allocated (clientSocket arg : Nat)
  | refused (arg : Nat)
  deriving DecidableEq

/-- A thread, where its pointers point to, and its `ClientSocket`. -/
structure Running where
  worker : Worker
  pointers : Pointer → Nat
  socket : Nat
  belongings : Belongings

/-- The heap holds an `int` for every block, and `leaked` tells which blocks `insert_handler` has taken. -/
structure Process (Thread : Type) where
  main : Main
  threads : Thread → Option Running
  heap : Nat → Option Nat
  leaked : Finset Nat
  sockets : Finset Nat

def threadStart (code : Int) (pointers : Pointer → Nat) (socket : Nat) : Running where
  worker := instanceThread code
  pointers := pointers
  socket := socket
  belongings := ⟨{.lpvParam}, .given, none⟩

section Threads

variable {Thread : Type}

namespace Process

def started : Process Thread := ⟨.awaiting, fun _ => none, fun _ => none, ∅, ∅⟩

/-- The thread after a step: a new block is at this address, and this is what is read through `lpvParam`. -/
def runningAfter (running : Running) (effect : Effect) (worker : Worker) (number : Nat) : Running where
  worker := worker
  belongings := running.belongings.after effect
  pointers :=
    match effect with
    | .allocates pointer => Function.update running.pointers pointer number
    | _ => running.pointers
  socket :=
    match effect with
    | .attaches => number
    | _ => running.socket

def heapAfter (heap : Nat → Option Nat) (running : Running) (effect : Effect) (number : Nat) : Nat → Option Nat :=
  match effect with
  | .allocates _ | .leaks => Function.update heap number (some 0)
  | .frees pointer => Function.update heap (running.pointers pointer) none
  | _ => heap

def leakedAfter (leaked : Finset Nat) (effect : Effect) (number : Nat) : Finset Nat :=
  match effect with
  | .leaks => insert number leaked
  | _ => leaked

def socketsAfter (sockets : Finset Nat) (running : Running) (effect : Effect) : Finset Nat :=
  match effect with
  | .closes => sockets.erase running.socket
  | _ => sockets

def stepped [DecidableEq Thread] (process : Process Thread) (thread : Thread) (running : Running) (effect : Effect)
    (worker : Worker) (number : Nat) : Process Thread where
  main := process.main
  threads := Function.update process.threads thread (some (runningAfter running effect worker number))
  heap := heapAfter process.heap running effect number
  leaked := leakedAfter process.leaked effect number
  sockets := socketsAfter process.sockets running effect

end Process

/-- What a number is that a step takes from outside. -/
def Given (heap : Nat → Option Nat) (running : Running) (effect : Effect) (number : Nat) : Prop :=
  match effect with
  | .allocates _ | .leaks => heap number = none
  | .attaches => heap (running.pointers .lpvParam) = some number
  | _ => True

inductive Step [DecidableEq Thread] : Process Thread → Process Thread → Prop
  | accept {process : Process Thread} {clientSocket : Nat} (awaits : process.main = .awaiting)
      (fresh : clientSocket ∉ process.sockets) :
      Step process { process with main := .accepted clientSocket, sockets := insert clientSocket process.sockets }
  | malloc {process : Process Thread} {clientSocket arg : Nat} (accepted : process.main = .accepted clientSocket)
      (fresh : process.heap arg = none) :
      Step process { process with
        main := .allocated clientSocket arg, heap := Function.update process.heap arg (some clientSocket) }
  | create {process : Process Thread} {clientSocket arg : Nat} {thread : Thread} {pointers : Pointer → Nat}
      {socket : Nat} (code : Int) (allocated : process.main = .allocated clientSocket arg)
      (fresh : process.threads thread = none) (lpvParam : pointers .lpvParam = arg) :
      Step process { process with
        main := .awaiting
        threads := Function.update process.threads thread (some (threadStart code pointers socket)) }
  | refuse {process : Process Thread} {clientSocket arg : Nat}
      (allocated : process.main = .allocated clientSocket arg) :
      Step process { process with main := .refused arg, sockets := process.sockets.erase clientSocket }
  | free {process : Process Thread} {arg : Nat} (refused : process.main = .refused arg) :
      Step process { process with main := .awaiting, heap := Function.update process.heap arg none }
  | thread {process : Process Thread} {thread : Thread} {running : Running} {effect : Effect} {worker : Worker}
      (number : Nat) (runs : process.threads thread = some running) (goes : Goes running.worker effect worker)
      (given : Given process.heap running effect number) :
      Step process (process.stepped thread running effect worker number)

/-- Who may own a block: a thread through one of its pointers. -/
inductive Holder (Thread : Type) where
  | main
  | insertHandler
  | thread (thread : Thread) (pointer : Pointer)

namespace Process

variable (process : Process Thread)

def BlockOwner : Holder Thread → Nat → Prop
  | .main, address =>
      match process.main with
      | .allocated _ arg | .refused arg => address = arg
      | _ => False
  | .insertHandler, address => address ∈ process.leaked
  | .thread thread pointer, address =>
      ∃ running, process.threads thread = some running ∧ pointer ∈ running.belongings.held ∧
        running.pointers pointer = address

/-- The socket of a thread, which may still be behind its `lpvParam`. -/
def Serves (heap : Nat → Option Nat) (running : Running) (socket : Nat) : Prop :=
  match running.belongings.connection with
  | .given => heap (running.pointers .lpvParam) = some socket
  | .opened => running.socket = socket
  | .closed => False

def SocketOwner : Option Thread → Nat → Prop
  | none, socket =>
      match process.main with
      | .accepted clientSocket | .allocated clientSocket _ => socket = clientSocket
      | _ => False
  | some thread, socket => ∃ running, process.threads thread = some running ∧ Serves process.heap running socket

end Process

/-- Everything belongs to somebody. -/
structure Accounted (process : Process Thread) : Prop where
  owning : ∀ thread running, process.threads thread = some running → Owning running.belongings running.worker
  sound : ∀ thread running, process.threads thread = some running → ∃ inside, Sound inside (erase running.worker)
  given : ∀ thread running, process.threads thread = some running → running.belongings.connection = .given →
    (∃ next, running.worker = .attach next) ∧ .lpvParam ∈ running.belongings.held
  blocks : Exclusive (fun address => process.heap address ≠ none) process.BlockOwner
  sockets : Exclusive (fun socket => socket ∈ process.sockets) process.SocketOwner
  written : ∀ clientSocket arg, process.main = .allocated clientSocket arg → process.heap arg = some clientSocket

open Process

variable {process : Process Thread} {thread other : Thread} {running : Running} {effect : Effect} {worker : Worker}
  {number address socket clientSocket arg : Nat} {pointer : Pointer}

theorem given_block (accounted : Accounted process) (runs : process.threads thread = some running)
    (given : running.belongings.connection = .given) :
    process.BlockOwner (.thread thread .lpvParam) (running.pointers .lpvParam) :=
  ⟨running, runs, (accounted.given thread running runs given).2, rfl⟩

/-- What is written elsewhere does not matter to a thread that has not begun. -/
theorem serves_update (accounted : Accounted process) (runs : process.threads thread = some running)
    (elsewhere : ¬process.BlockOwner (.thread thread .lpvParam) address) (content : Option Nat) (socket : Nat) :
    Serves (Function.update process.heap address content) running socket ↔ Serves process.heap running socket := by
  unfold Serves
  cases connection : running.belongings.connection with
  | given =>
      have different : running.pointers .lpvParam ≠ address := by
        rintro rfl
        exact elsewhere (given_block accounted runs connection)
      rw [Function.update_of_ne different]
  | opened | closed => rfl

theorem socket_owner_update (accounted : Accounted process) (content : Option Nat)
    (elsewhere : ¬process.BlockOwner (.thread thread .lpvParam) address) (socket : Nat) :
    (∃ running, process.threads thread = some running ∧
      Serves (Function.update process.heap address content) running socket) ↔
      process.SocketOwner (some thread) socket :=
  exists_congr fun _ => and_congr_right fun runs => serves_update accounted runs elsewhere content socket

theorem block_live (accounted : Accounted process) {owner : Holder Thread}
    (owns : process.BlockOwner owner address) : process.heap address ≠ none :=
  (accounted.blocks.owned address).mpr ⟨owner, owns⟩

theorem accept_accounted (accounted : Accounted process) (awaits : process.main = .awaiting)
    (fresh : clientSocket ∉ process.sockets) :
    Accounted { process with main := .accepted clientSocket, sockets := insert clientSocket process.sockets } := by
  refine ⟨accounted.owning, accounted.sound, accounted.given, ?_, ?_, fun _ _ same => nomatch same⟩
  · refine exclusive_same accounted.blocks (fun _ => Iff.rfl) fun owner address => ?_
    cases owner with
    | main => simp [BlockOwner, awaits]
    | insertHandler | thread _ _ => rfl
  · refine @exclusive_acquire _ _ _ _ _ _ none clientSocket accounted.sockets fresh (fun other => ?_)
      fun owner other => ?_
    · rw [Finset.mem_insert, or_comm]
    · cases owner with
      | none => simp [SocketOwner, awaits]
      | some owner => simp [SocketOwner]

theorem malloc_accounted (accounted : Accounted process) (accepted : process.main = .accepted clientSocket)
    (fresh : process.heap arg = none) :
    Accounted { process with
      main := .allocated clientSocket arg, heap := Function.update process.heap arg (some clientSocket) } := by
  have elsewhere : ∀ owner, ¬process.BlockOwner owner arg := fun owner owns => block_live accounted owns fresh
  refine ⟨accounted.owning, accounted.sound, accounted.given, ?_, ?_, ?_⟩
  · refine @exclusive_acquire _ _ _ _ _ _ .main arg accounted.blocks (not_not_intro fresh) (fun other => ?_)
      fun owner other => ?_
    · by_cases same : other = arg
      · simp [same]
      · simp [same]
    · cases owner with
      | main => simp [BlockOwner, accepted]
      | insertHandler | thread _ _ => simp [BlockOwner]
  · refine exclusive_same accounted.sockets (fun _ => Iff.rfl) fun owner other => ?_
    cases owner with
    | none => simp [SocketOwner, accepted]
    | some owner => exact socket_owner_update accounted _ (elsewhere _) other
  · rintro other place same
    cases same
    exact Function.update_self arg _ _

theorem refuse_accounted (accounted : Accounted process) (allocated : process.main = .allocated clientSocket arg) :
    Accounted { process with main := .refused arg, sockets := process.sockets.erase clientSocket } := by
  refine ⟨accounted.owning, accounted.sound, accounted.given, ?_, ?_, fun _ _ same => nomatch same⟩
  · refine exclusive_same accounted.blocks (fun _ => Iff.rfl) fun owner address => ?_
    cases owner with
    | main => simp [BlockOwner, allocated]
    | insertHandler | thread _ _ => rfl
  · have mine : process.SocketOwner none clientSocket := by simp [SocketOwner, allocated]
    refine exclusive_release accounted.sockets mine (fun other => ?_) fun owner other => ?_
    · rw [Finset.mem_erase, and_comm]
    · cases owner with
      | none => simp [SocketOwner, allocated]
      | some owner => simp [SocketOwner]

theorem free_accounted (accounted : Accounted process) (refused : process.main = .refused arg) :
    Accounted { process with main := .awaiting, heap := Function.update process.heap arg none } := by
  have mine : process.BlockOwner .main arg := by simp [BlockOwner, refused]
  refine ⟨accounted.owning, accounted.sound, accounted.given, ?_, ?_, fun _ _ same => nomatch same⟩
  · refine exclusive_release accounted.blocks mine (fun other => ?_) fun owner other => ?_
    · by_cases same : other = arg
      · simp [same]
      · simp [same]
    · cases owner with
      | main => simp [BlockOwner, refused]
      | insertHandler | thread _ _ => simp [BlockOwner]
  · refine exclusive_same accounted.sockets (fun _ => Iff.rfl) fun owner other => ?_
    cases owner with
    | none => simp [SocketOwner, refused]
    | some owner =>
        refine socket_owner_update accounted _ (fun owns => ?_) other
        cases accounted.blocks.once _ _ _ mine owns

section Creating

variable [DecidableEq Thread]

theorem updated_runs {threads : Thread → Option Running} {found : Running} :
    Function.update threads thread (some running) other = some found ↔
      (other = thread ∧ found = running) ∨ (other ≠ thread ∧ threads other = some found) := by
  by_cases same : other = thread
  · subst same
    rw [Function.update_self, Option.some_inj, eq_comm]
    simp
  · rw [Function.update_of_ne same]
    simp [same]

theorem updated_holds {threads : Thread → Option Running} {holds : Running → Prop} :
    (∃ found, Function.update threads thread (some running) other = some found ∧ holds found) ↔
      (other = thread ∧ holds running) ∨ (other ≠ thread ∧ ∃ found, threads other = some found ∧ holds found) := by
  by_cases same : other = thread
  · subst same
    simp
  · simp [same]

theorem sound_thread (code : Int) : ∃ inside, Sound inside (erase (instanceThread code)) := by
  change ∃ inside, Sound inside (erase (turn code))
  rw [erase_turn]
  exact ⟨false, sound_instance_thread code⟩

theorem create_accounted {pointers : Pointer → Nat} (code : Int) (accounted : Accounted process)
    (allocated : process.main = .allocated clientSocket arg) (fresh : process.threads thread = none)
    (lpvParam : pointers .lpvParam = arg) :
    Accounted { process with
      main := .awaiting
      threads := Function.update process.threads thread (some (threadStart code pointers socket)) } := by
  have written := accounted.written clientSocket arg allocated
  refine ⟨fun other running runs => ?_, fun other running runs => ?_, fun other running runs => ?_, ?_, ?_,
    fun _ _ same => nomatch same⟩
  · rcases updated_runs.mp runs with ⟨rfl, rfl⟩ | ⟨_, runs⟩
    · exact owning_thread code
    · exact accounted.owning other running runs
  · rcases updated_runs.mp runs with ⟨rfl, rfl⟩ | ⟨_, runs⟩
    · exact sound_thread code
    · exact accounted.sound other running runs
  · rcases updated_runs.mp runs with ⟨rfl, rfl⟩ | ⟨_, runs⟩
    · exact fun _ => ⟨⟨_, rfl⟩, Finset.mem_singleton_self _⟩
    · exact accounted.given other running runs
  · have mine : process.BlockOwner .main arg := by simp [BlockOwner, allocated]
    refine @exclusive_hand_on _ _ _ _ _ _ .main (.thread thread .lpvParam) arg accounted.blocks mine
      (fun _ => Iff.rfl) fun owner address => ?_
    cases owner with
    | main => simp [BlockOwner, allocated]
    | insertHandler =>
        refine ⟨fun owns => .inl ⟨owns, ?_⟩, fun owns => owns.elim (fun owns => owns.1) fun same => nomatch same.1⟩
        rintro rfl
        cases accounted.blocks.once _ .insertHandler _ mine owns
    | thread other pointer =>
        refine updated_holds.trans ⟨?_, ?_⟩
        · rintro (⟨rfl, held, here⟩ | ⟨_, owns⟩)
          · have only : pointer = .lpvParam := Finset.mem_singleton.mp held
            subst only
            exact .inr ⟨rfl, here.symm.trans lpvParam⟩
          · have owns : process.BlockOwner (.thread other pointer) address := owns
            refine .inl ⟨owns, ?_⟩
            rintro rfl
            cases accounted.blocks.once _ _ _ mine owns
        · rintro (⟨owns, _⟩ | ⟨same, rfl⟩)
          · refine .inr ⟨?_, owns⟩
            rintro rfl
            obtain ⟨found, runs, _⟩ := owns
            rw [fresh] at runs
            cases runs
          · cases same
            exact .inl ⟨rfl, Finset.mem_singleton_self _, lpvParam⟩
  · have mine : process.SocketOwner none clientSocket := by simp [SocketOwner, allocated]
    refine @exclusive_hand_on _ _ _ _ _ _ none (some thread) clientSocket accounted.sockets mine (fun _ => Iff.rfl)
      fun owner other => ?_
    cases owner with
    | none => simp [SocketOwner, allocated]
    | some owner =>
        refine updated_holds.trans ⟨?_, ?_⟩
        · rintro (⟨rfl, read⟩ | ⟨_, owns⟩)
          · have read : process.heap (pointers .lpvParam) = some other := read
            rw [lpvParam, written] at read
            exact .inr ⟨rfl, (Option.some_inj.mp read).symm⟩
          · have owns : process.SocketOwner (some owner) other := owns
            refine .inl ⟨owns, ?_⟩
            rintro rfl
            cases accounted.sockets.once _ _ _ mine owns
        · rintro (⟨owns, _⟩ | ⟨same, rfl⟩)
          · refine .inr ⟨?_, owns⟩
            rintro rfl
            obtain ⟨found, runs, _⟩ := owns
            rw [fresh] at runs
            cases runs
          · cases same
            refine .inl ⟨rfl, ?_⟩
            change process.heap (pointers .lpvParam) = some other
            rw [lpvParam, written]

end Creating

theorem begun (accounted : Accounted process) (runs : process.threads thread = some running)
    (goes : Goes running.worker effect worker) (later : effect ≠ .attaches) :
    running.belongings.connection ≠ .given := by
  intro first
  obtain ⟨⟨next, here⟩, _⟩ := accounted.given thread running runs first
  rw [here] at goes
  cases goes
  exact later rfl

theorem begun_after (accounted : Accounted process) (runs : process.threads thread = some running)
    (goes : Goes running.worker effect worker) : (running.belongings.after effect).connection ≠ .given := by
  cases effect with
  | attaches | closes => exact fun same => nomatch same
  | quiet | fails _ | allocates _ | frees _ | leaks => exact begun accounted runs goes (by simp)

theorem serves_begun {heap heap' : Nat → Option Nat} {after : Running}
    (begun : running.belongings.connection ≠ .given)
    (connection : after.belongings.connection = running.belongings.connection)
    (same : after.socket = running.socket) (socket : Nat) :
    Serves heap' after socket ↔ Serves heap running socket := by
  unfold Serves
  rw [connection, same]
  cases here : running.belongings.connection with
  | given => exact absurd here begun
  | opened | closed => rfl

theorem own_block (runs : process.threads thread = some running) :
    process.BlockOwner (.thread thread pointer) address ↔
      pointer ∈ running.belongings.held ∧ running.pointers pointer = address := by
  unfold BlockOwner
  simp [runs]

theorem own_socket (runs : process.threads thread = some running) :
    process.SocketOwner (some thread) socket ↔ Serves process.heap running socket := by
  unfold SocketOwner
  simp [runs]

section Stepping

variable [DecidableEq Thread]

theorem stepped_blocks (runs : process.threads thread = some running)
    (kept : leakedAfter process.leaked effect number = process.leaked)
    (same : ∀ pointer address, pointer ∈ (running.belongings.after effect).held ∧
      (runningAfter running effect worker number).pointers pointer = address ↔
        pointer ∈ running.belongings.held ∧ running.pointers pointer = address) (owner : Holder Thread)
    (address : Nat) :
    (process.stepped thread running effect worker number).BlockOwner owner address ↔
      process.BlockOwner owner address := by
  cases owner with
  | main => rfl
  | insertHandler =>
      unfold BlockOwner
      rw [stepped, kept]
  | thread other pointer =>
      refine updated_holds.trans ⟨?_, ?_⟩
      · rintro (⟨rfl, owns⟩ | ⟨_, owns⟩)
        · exact ⟨running, runs, (same pointer address).mp owns⟩
        · exact owns
      · rintro ⟨found, there, owns⟩
        by_cases own : other = thread
        · subst own
          rw [runs] at there
          cases there
          exact .inl ⟨rfl, (same pointer address).mpr owns⟩
        · exact .inr ⟨own, found, there, owns⟩

theorem stepped_sockets (runs : process.threads thread = some running)
    (others : ∀ other found, other ≠ thread → process.threads other = some found → ∀ socket,
      Serves (heapAfter process.heap running effect number) found socket ↔ Serves process.heap found socket)
    (same : ∀ socket, Serves (heapAfter process.heap running effect number)
      (runningAfter running effect worker number) socket ↔ Serves process.heap running socket) (owner : Option Thread)
    (socket : Nat) :
    (process.stepped thread running effect worker number).SocketOwner owner socket ↔
      process.SocketOwner owner socket := by
  cases owner with
  | none => rfl
  | some other =>
      refine updated_holds.trans ⟨?_, ?_⟩
      · rintro (⟨rfl, serves⟩ | ⟨different, found, there, serves⟩)
        · exact ⟨running, runs, (same socket).mp serves⟩
        · exact ⟨found, there, (others other found different there socket).mp serves⟩
      · rintro ⟨found, there, serves⟩
        by_cases own : other = thread
        · subst own
          rw [runs] at there
          cases there
          exact .inl ⟨rfl, (same socket).mpr serves⟩
        · exact .inr ⟨own, found, there, (others other found own there socket).mpr serves⟩

theorem stepped_blocks_accounted (accounted : Accounted process) (runs : process.threads thread = some running)
    (goes : Goes running.worker effect worker) (given : Given process.heap running effect number) :
    Exclusive (fun address => (process.stepped thread running effect worker number).heap address ≠ none)
      (process.stepped thread running effect worker number).BlockOwner := by
  have owning := accounted.owning thread running runs
  cases effect with
  | quiet | attaches | fails _ | closes =>
      exact exclusive_same accounted.blocks (fun _ => Iff.rfl) (stepped_blocks runs rfl fun _ _ => Iff.rfl)
  | leaks =>
      have fresh : process.heap number = none := given
      refine @exclusive_acquire _ _ _ _ _ _ .insertHandler number accounted.blocks (not_not_intro fresh)
        (fun address => ?_) fun owner address => ?_
      · by_cases same : address = number
        · simp [stepped, heapAfter, same]
        · simp [stepped, heapAfter, same]
      · cases owner with
        | main => simp [stepped, BlockOwner]
        | insertHandler => simp [stepped, BlockOwner, leakedAfter, or_comm]
        | thread other which =>
            refine updated_holds.trans ?_
            by_cases own : other = thread
            · subst own
              rw [own_block runs]
              simp [runningAfter, Belongings.after]
            · simp [own, BlockOwner]
  | allocates pointer =>
      have fresh : process.heap number = none := given
      have new := owning_allocates owning goes
      refine @exclusive_acquire _ _ _ _ _ _ (.thread thread pointer) number accounted.blocks (not_not_intro fresh)
        (fun address => ?_) fun owner address => ?_
      · by_cases same : address = number
        · simp [stepped, heapAfter, same]
        · simp [stepped, heapAfter, same]
      · cases owner with
        | main => simp [stepped, BlockOwner]
        | insertHandler => simp [stepped, BlockOwner, leakedAfter]
        | thread other which =>
            refine updated_holds.trans ?_
            by_cases own : other = thread
            · subst own
              rw [own_block runs]
              by_cases same : which = pointer
              · subst same
                simp [runningAfter, Belongings.after, new, eq_comm]
              · simp [runningAfter, Belongings.after, same]
            · simp [own, BlockOwner]
  | frees pointer =>
      have mine : process.BlockOwner (.thread thread pointer) (running.pointers pointer) :=
        ⟨running, runs, owning_frees_held owning goes, rfl⟩
      refine exclusive_release accounted.blocks mine (fun address => ?_) fun owner address => ?_
      · by_cases same : address = running.pointers pointer
        · simp [stepped, heapAfter, same]
        · simp [stepped, heapAfter, same]
      · cases owner with
        | main => simp [stepped, BlockOwner]
        | insertHandler => simp [stepped, BlockOwner, leakedAfter]
        | thread other which =>
            refine updated_holds.trans ?_
            by_cases own : other = thread
            · subst own
              rw [own_block runs]
              by_cases same : which = pointer
              · subst same
                simp [runningAfter, Belongings.after, eq_comm]
              · simp [runningAfter, Belongings.after, same]
            · simp [own, BlockOwner]

theorem stepped_sockets_accounted (accounted : Accounted process) (runs : process.threads thread = some running)
    (goes : Goes running.worker effect worker) (given : Given process.heap running effect number) :
    Exclusive (fun socket => socket ∈ (process.stepped thread running effect worker number).sockets)
      (process.stepped thread running effect worker number).SocketOwner := by
  have owning := accounted.owning thread running runs
  cases effect with
  | quiet | fails _ =>
      exact exclusive_same accounted.sockets (fun _ => Iff.rfl)
        (stepped_sockets runs (fun _ _ _ _ _ => Iff.rfl) fun _ => Iff.rfl)
  | attaches =>
      have read : process.heap (running.pointers .lpvParam) = some number := given
      refine exclusive_same accounted.sockets (fun _ => Iff.rfl)
        (stepped_sockets runs (fun _ _ _ _ _ => Iff.rfl) fun socket => ?_)
      simp [Serves, runningAfter, Belongings.after, owning_attaches owning goes, read]
  | allocates _ | leaks =>
      have fresh : process.heap number = none := given
      refine exclusive_same accounted.sockets (fun _ => Iff.rfl)
        (stepped_sockets runs (fun other found _ there => ?_) fun socket => ?_)
      · exact serves_update accounted there (fun owns => block_live accounted owns fresh) _
      · refine serves_begun (begun accounted runs goes (by simp)) ?_ ?_ socket <;> rfl
  | frees pointer =>
      have mine : process.BlockOwner (.thread thread pointer) (running.pointers pointer) :=
        ⟨running, runs, owning_frees_held owning goes, rfl⟩
      refine exclusive_same accounted.sockets (fun _ => Iff.rfl)
        (stepped_sockets runs (fun other found different there => ?_) fun socket => ?_)
      · refine serves_update accounted there (fun owns => ?_) _
        cases accounted.blocks.once _ _ _ mine owns
        exact different rfl
      · refine serves_begun (begun accounted runs goes (by simp)) ?_ ?_ socket <;> rfl
  | closes =>
      have opened := owning_closes owning goes
      have mine : process.SocketOwner (some thread) running.socket :=
        (own_socket runs).mpr (by simp [Serves, opened])
      refine exclusive_release accounted.sockets mine (fun other => ?_) fun owner other => ?_
      · simp [stepped, socketsAfter, and_comm]
      · cases owner with
        | none => simp [stepped, SocketOwner]
        | some owner =>
            refine updated_holds.trans ?_
            by_cases own : owner = thread
            · subst own
              rw [own_socket runs]
              simp [runningAfter, Belongings.after, Serves, opened, eq_comm]
            · simp [own, SocketOwner, stepped, heapAfter]

theorem stepped_accounted (accounted : Accounted process) (runs : process.threads thread = some running)
    (goes : Goes running.worker effect worker) (given : Given process.heap running effect number) :
    Accounted (process.stepped thread running effect worker number) := by
  have owning := accounted.owning thread running runs
  refine ⟨fun other found there => ?_, fun other found there => ?_, fun other found there begins => ?_,
    stepped_blocks_accounted accounted runs goes given, ?_, ?_⟩
  · rcases updated_runs.mp there with ⟨rfl, rfl⟩ | ⟨_, there⟩
    · exact owning_step owning goes
    · exact accounted.owning other found there
  · rcases updated_runs.mp there with ⟨rfl, rfl⟩ | ⟨_, there⟩
    · obtain ⟨_, sound⟩ := accounted.sound _ running runs
      exact sound_step owning sound goes
    · exact accounted.sound other found there
  · rcases updated_runs.mp there with ⟨rfl, rfl⟩ | ⟨_, there⟩
    · exact absurd begins (begun_after accounted runs goes)
    · exact accounted.given other found there begins
  · exact stepped_sockets_accounted accounted runs goes given
  · intro clientSocket arg allocated
    have written := accounted.written clientSocket arg allocated
    have mine : process.BlockOwner .main arg := by
      have here : process.main = .allocated clientSocket arg := allocated
      simp [BlockOwner, here]
    cases effect with
    | quiet | attaches | fails _ | closes => exact written
    | allocates _ | leaks =>
        have fresh : process.heap number = none := given
        have different : arg ≠ number := by
          rintro rfl
          rw [written] at fresh
          cases fresh
        exact (Function.update_of_ne different _ _).trans written
    | frees pointer =>
        have theirs : process.BlockOwner (.thread thread pointer) (running.pointers pointer) :=
          ⟨running, runs, owning_frees_held owning goes, rfl⟩
        have different : arg ≠ running.pointers pointer := by
          rintro rfl
          cases accounted.blocks.once _ _ _ mine theirs
        exact (Function.update_of_ne different _ _).trans written

theorem step_accounted {after : Process Thread} (accounted : Accounted process) (step : Step process after) :
    Accounted after := by
  cases step with
  | accept awaits fresh => exact accept_accounted accounted awaits fresh
  | malloc accepted fresh => exact malloc_accounted accounted accepted fresh
  | create code allocated fresh lpvParam => exact create_accounted code accounted allocated fresh lpvParam
  | refuse allocated => exact refuse_accounted accounted allocated
  | free refused => exact free_accounted accounted refused
  | thread number runs goes given => exact stepped_accounted accounted runs goes given

theorem run_accounted (run : Relation.ReflTransGen Step Process.started process) : Accounted process := by
  induction run with
  | refl =>
      refine ⟨fun _ _ runs => (by cases runs), fun _ _ runs => (by cases runs), fun _ _ runs => (by cases runs), ?_, ?_,
        fun _ _ same => (by cases same)⟩
      · refine exclusive_none (by simp [started]) fun owner address => ?_
        cases owner <;> simp [BlockOwner, started]
      · refine exclusive_none (by simp [started]) fun owner socket => ?_
        cases owner <;> simp [SocketOwner, started]
  | tail _ step accounted => exact step_accounted accounted step

end Stepping

/-- The next step of a thread uses nothing but what is live and its own, and stays within it. -/
structure Proper (process : Process Thread) (thread : Thread) (running : Running) : Prop where
  memory : ∀ pointer ∈ follows running.worker, process.heap (running.pointers pointer) ≠ none ∧
    ∀ owner, process.BlockOwner owner (running.pointers pointer) → owner = .thread thread pointer
  inside : InBounds running.worker
  socket : talks running.worker = true → running.socket ∈ process.sockets ∧
    ∀ owner, process.SocketOwner owner running.socket → owner = some thread
  returned : ∀ result, running.worker = .returned result → running.belongings.connection = .closed ∧
    running.belongings.held = Belongings.leftover running.belongings.failed

/-- In every run nothing is used, freed or closed that is not there, or that belongs to somebody else; and what
is there belongs to somebody. A thread that has returned has closed its socket and freed what it allocated,
but the key where it could not receive the length of a value; and what `insert_handler` has taken is there. -/
theorem resources_accounted [DecidableEq Thread] (run : Relation.ReflTransGen Step Process.started process) :
    (∀ thread running, process.threads thread = some running → Proper process thread running) ∧
      Exclusive (fun address => process.heap address ≠ none) process.BlockOwner ∧
      Exclusive (fun socket => socket ∈ process.sockets) process.SocketOwner := by
  have accounted := run_accounted run
  refine ⟨fun thread running runs => ⟨fun pointer follows => ?_, ?_, fun speaks => ?_, fun result here => ?_⟩,
    accounted.blocks, accounted.sockets⟩
  · have mine : process.BlockOwner (.thread thread pointer) (running.pointers pointer) :=
      ⟨running, runs, owning_follows (accounted.owning thread running runs) pointer follows, rfl⟩
    exact ⟨block_live accounted mine, fun owner owns => accounted.blocks.once _ _ _ owns mine⟩
  · obtain ⟨_, sound⟩ := accounted.sound thread running runs
    exact sound_in_bounds sound
  · have opened := owning_talks (accounted.owning thread running runs) speaks
    have mine : process.SocketOwner (some thread) running.socket := (own_socket runs).mpr (by simp [Serves, opened])
    exact ⟨(accounted.sockets.owned _).mpr ⟨_, mine⟩, fun owner owns => accounted.sockets.once _ _ _ owns mine⟩
  · have owning := accounted.owning thread running runs
    rw [here] at owning
    exact owning_returned owning

/-- When all threads have returned, no socket is open, and the blocks that are left are those of `insert_handler` and
the keys of the threads that could not receive the length of a value. -/
theorem nothing_left [DecidableEq Thread] (run : Relation.ReflTransGen Step Process.started process)
    (awaits : process.main = .awaiting)
    (done : ∀ thread running, process.threads thread = some running → ∃ result, running.worker = .returned result) :
    process.sockets = ∅ ∧ ∀ address, process.heap address ≠ none ↔ address ∈ process.leaked ∨
      ∃ thread running, process.threads thread = some running ∧ running.belongings.failed = some .valueLength ∧
        running.pointers .key = address := by
  have accounted := run_accounted run
  have rests : ∀ thread running, process.threads thread = some running →
      running.belongings.connection = .closed ∧
        running.belongings.held = Belongings.leftover running.belongings.failed := by
    intro thread running runs
    obtain ⟨result, here⟩ := done thread running runs
    have owning := accounted.owning thread running runs
    rw [here] at owning
    exact owning_returned owning
  refine ⟨Finset.eq_empty_of_forall_notMem fun socket inside => ?_, fun address => ?_⟩
  · obtain ⟨owner, owns⟩ := (accounted.sockets.owned socket).mp inside
    cases owner with
    | none => simp [SocketOwner, awaits] at owns
    | some thread =>
        obtain ⟨running, runs, serves⟩ := owns
        simp [Serves, (rests thread running runs).1] at serves
  · rw [accounted.blocks.owned]
    constructor
    · rintro ⟨owner, owns⟩
      cases owner with
      | main => simp [BlockOwner, awaits] at owns
      | insertHandler => exact .inl owns
      | thread thread pointer =>
          obtain ⟨running, runs, held, here⟩ := owns
          rw [(rests thread running runs).2, Belongings.leftover_member] at held
          obtain ⟨failed, rfl⟩ := held
          exact .inr ⟨thread, running, runs, failed, here⟩
    · rintro (leaked | ⟨thread, running, runs, failed, here⟩)
      · exact ⟨.insertHandler, leaked⟩
      · refine ⟨.thread thread .key, running, runs, ?_, here⟩
        rw [(rests thread running runs).2, failed]
        exact Finset.mem_singleton_self _

end Threads

/-- A deletion, in which `insert_handler` takes a block, and a `set` whose key has arrived when the socket fails. -/
theorem set_breaks : ∃ process : Process Unit, Relation.ReflTransGen Step Process.started process ∧
    process.main = .awaiting ∧ process.leaked = {72} ∧ ∃ running, process.threads () = some running ∧
      running.worker = .returned 1 ∧ running.belongings.failed = some .valueLength ∧ running.pointers .key = 64 := by
  have accepted : Step (Process.started : Process Unit) _ := @Step.accept Unit _ _ 5 rfl (by decide)
  have created := ((Relation.ReflTransGen.single accepted).tail (@Step.malloc Unit _ _ _ 64 rfl rfl)).tail
    (@Step.create Unit _ _ _ _ () (fun _ => 64) 0 0 rfl rfl rfl)
  have attached := created.tail (@Step.thread Unit _ _ () _ _ _ 5 rfl .attach rfl)
  have begun := attached.tail (@Step.thread Unit _ _ () _ _ _ 0 rfl .free trivial)
  have deletes := begun.tail (@Step.thread Unit _ _ () _ _ _ 0 rfl (.recv [2, 0, 0, 0] rfl) trivial)
  have length := deletes.tail (@Step.thread Unit _ _ () _ _ _ 0 rfl (.recv [1, 0, 0, 0] rfl) trivial)
  have allocated := length.tail (@Step.thread Unit _ _ () _ _ _ 64 rfl (.malloc [0, 0] (by decide) rfl) rfl)
  have received := allocated.tail (@Step.thread Unit _ _ () _ _ _ 0 rfl (.recv [107, 0] rfl) trivial)
  have entered := (received.tail (@Step.thread Unit _ _ () _ _ _ 0 rfl .terminate trivial)).tail
    (@Step.thread Unit _ _ () _ _ _ 0 rfl .enter trivial)
  have leaked := entered.tail (@Step.thread Unit _ _ () _ _ _ 72 rfl (.insertHandler trivial) rfl)
  have sensible : Sensible none := fun _ _ same => nomatch same
  have performed := leaked.tail (@Step.thread Unit _ _ () _ _ _ 0 rfl (.perform none sensible) trivial)
  have replied := (performed.tail (@Step.thread Unit _ _ () _ _ _ 0 rfl .leave trivial)).tail
    (@Step.thread Unit _ _ () _ _ _ 0 rfl .send trivial)
  have freed := (replied.tail (@Step.thread Unit _ _ () _ _ _ 0 rfl .free trivial)).tail
    (@Step.thread Unit _ _ () _ _ _ 0 rfl (.again _) trivial)
  have sets := freed.tail (@Step.thread Unit _ _ () _ _ _ 0 rfl (.recv [1, 0, 0, 0] rfl) trivial)
  have again := sets.tail (@Step.thread Unit _ _ () _ _ _ 0 rfl (.recv [1, 0, 0, 0] rfl) trivial)
  have allocates := again.tail (@Step.thread Unit _ _ () _ _ _ 64 rfl (.malloc [0, 0] (by decide) rfl) rfl)
  have receives := allocates.tail (@Step.thread Unit _ _ () _ _ _ 0 rfl (.recv [107, 0] rfl) trivial)
  have ended := receives.tail (@Step.thread Unit _ _ () _ _ _ 0 rfl .terminate trivial)
  have failed := ended.tail (@Step.thread Unit _ _ () _ _ _ 0 rfl .recvFails trivial)
  have closed := failed.tail (@Step.thread Unit _ _ () _ _ _ 0 rfl .closesocket trivial)
  exact ⟨_, closed, rfl, rfl, _, rfl, rfl, rfl, rfl⟩

theorem resources_accounted_set : ∃ (process : Process Unit) (running : Running),
    Relation.ReflTransGen Step Process.started process ∧ process.threads () = some running ∧
      running.belongings.held = {.key} ∧ process.heap 72 ≠ none := by
  obtain ⟨process, run, _, leaked, running, runs, here, failed, _⟩ := set_breaks
  obtain ⟨proper, blocks, _⟩ := resources_accounted run
  refine ⟨process, running, run, runs, ?_, (blocks.owned 72).mpr ⟨.insertHandler, ?_⟩⟩
  · rw [((proper () running runs).returned 1 here).2, failed]
    rfl
  · unfold Process.BlockOwner
    rw [leaked]
    exact Finset.mem_singleton_self _

theorem nothing_left_key : ∃ process : Process Unit, Relation.ReflTransGen Step Process.started process ∧
    process.sockets = ∅ ∧ process.heap 64 ≠ none ∧ process.heap 72 ≠ none ∧
      ∀ address, process.heap address ≠ none → address = 64 ∨ address = 72 := by
  obtain ⟨process, run, awaits, leaked, running, runs, here, failed, key⟩ := set_breaks
  have done : ∀ thread found, process.threads thread = some found → ∃ result, found.worker = .returned result := by
    rintro ⟨⟩ found there
    rw [runs] at there
    cases there
    exact ⟨1, here⟩
  obtain ⟨closed, left⟩ := nothing_left run awaits done
  refine ⟨process, run, closed, (left 64).mpr (.inr ⟨(), running, runs, failed, key⟩),
    (left 72).mpr (.inl (by rw [leaked]; exact Finset.mem_singleton_self _)), fun address live => ?_⟩
  rcases (left address).mp live with inside | ⟨_, found, there, _, same⟩
  · rw [leaked] at inside
    exact .inr (Finset.mem_singleton.mp inside)
  · rw [runs] at there
    cases there
    exact .inl (same.symm.trans key)

end MyJQL.ServerResources
