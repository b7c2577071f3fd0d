import MyJQL.ThreadSafety

/-!
# Lengths that are checked too late

A thread checks the lengths that it reads against the largest one it stores, after it has used them. Two
lengths are still harmless: one that is too long but has a buffer, and one for which `malloc(code + 1)`
returns `NULL` while bytes wait, since the `recv` then fails. Two go wrong: `-1`, for which `malloc(0)` returns
an empty buffer, and one without a buffer where the stream has ended.
-/

namespace MyJQL.LengthChecks

open MyJQL.StateProgram
open MyJQL.KeyValueStore
open MyJQL.ServerModel
open MyJQL.ServerProtocol
open MyJQL.ServerSystem
open MyJQL.ServerThreads
open MyJQL.ThreadSafety

set_option autoImplicit false

/-- What the thread does next has valid lengths: a call to the store, or the zero behind what was received. -/
def WithinBuffers : Routine → Prop
  | .perform call _ => Checked call
  | .terminate buffer index _ => 0 ≤ index ∧ index.toNat < buffer.length
  | _ => True

def hasBuffer : Routine → Bool
  | .recvNull _ _ => false
  | _ => true

/-- `malloc(0)` comes next, or the end of the stream where there is no buffer. -/
def Misses (thread : Thread) : Prop :=
  lengthOf thread.routine = some (-1) ∨
    (hasBuffer thread.routine = false ∧ thread.incoming = [] ∧ thread.closed = true)

/-- No thread calls `malloc(0)`, and no `recv` returns that has no buffer. -/
def Spared {Client Store : Type} : Choice Client Store → Server Client Store → Prop
  | .move client (.allocate _), server => lengthOf (server.threads client).routine ≠ some (-1)
  | .move client (.receive _), server => hasBuffer (server.threads client).routine = true
  | _, _ => True

instance {Client Store : Type} :
    ∀ (choice : Choice Client Store) (server : Server Client Store), Decidable (Spared choice server)
  | .move client (.allocate _), server =>
      inferInstanceAs (Decidable (lengthOf (server.threads client).routine ≠ some (-1)))
  | .move client (.receive _), server => inferInstanceAs (Decidable (hasBuffer (server.threads client).routine = true))
  | .move _ .fail, _ | .move _ .go, _ | .send _, _ | .close _, _ | .enter _, _ | .perform _, _ | .finish _, _
  | .clash _ _ _, _ | .leave _, _ => inferInstanceAs (Decidable True)

theorem no_buffer {routine : Routine} : hasBuffer routine = false ↔ ∃ asked next, routine = .recvNull asked next := by
  cases routine <;> simp [hasBuffer]

theorem met_of_length {length : Int} {next : Option Bytes → Routine} {routine : Routine}
    (spared : lengthOf routine ≠ some (-1)) (here : routine = .malloc length next) : Met True length := by
  refine .inr ⟨trivial, ?_⟩
  rintro rfl
  exact spared (length_of_some.mpr ⟨next, here⟩)

theorem sound_within {inside : Bool} {routine : Routine} (sound : Sound inside routine) : WithinBuffers routine := by
  cases sound with
  | terminate within _ => exact within
  | perform checked _ => exact checked
  | exited | again _ | recv _ _ | malloc _ _ | enter _ | leave _ | send _ _ => trivial

theorem standing_within {nulls inside} {routine : Routine} (standing : Standing nulls inside routine) :
    WithinBuffers routine := by
  cases standing with
  | sound sound => exact sound_within sound
  | running _ _ | noBuffer _ => trivial

section Runs

variable {Client Store : Type} [DecidableEq Client] {represents : Bindings → Store → Prop}
  {backend : StoreCall → Program Store StoreAnswer} {start : Bindings} {server after : Server Client Store}
  {choice : Choice Client Store} {client : Client}

omit [DecidableEq Client] in
theorem spared_sheltered (spared : Spared choice server) : Sheltered True choice server := by
  unfold Spared at spared
  split at spared
  · exact fun length next here => met_of_length spared here
  · next other _ =>
      intro asked next here
      rw [no_buffer.mpr ⟨asked, next, here⟩] at spared
      cases spared
  · next others neither =>
      unfold Sheltered
      split
      · exact absurd rfl (others _ _)
      · exact absurd rfl (neither _ _)
      · trivial

theorem misses_of_taken (taken : Taken backend server choice after) (reckless : ¬Spared choice server) :
    ∃ client, Misses (server.threads client) := by
  cases taken with
  | @move client move thread bytes moved =>
      refine ⟨client, ?_⟩
      cases moved with
      | allocate _ _ | null _ _ => exact .inl (not_not.mp reckless)
      | receive here _ => exact absurd (by simp [Spared, here, hasBuffer]) reckless
      | ended here ends => exact .inr ⟨no_buffer.mpr ⟨_, _, here⟩, ends⟩
      | fault | fail | again | terminate | overrun | send | overread => exact absurd trivial reckless
  | send | close | enter | perform | beyond | finish | clash | leave => exact absurd trivial reckless

theorem receive_taken {buffer : Bytes} {asked : Int} {next : Bytes → Routine} {count : Nat}
    (here : (server.threads client).routine = .recv buffer asked next)
    (delivers : (server.threads client).delivers count) :
    server.take backend (.move client (.receive count)) = some (server.put client { server.threads client with
      routine := received buffer ((server.threads client).incoming.take count) next
      incoming := (server.threads client).incoming.drop count }) := by
  simp only [Server.take, Thread.move, here, if_pos delivers]

def sends (server : Server Client Store) (client : Client) (request : Bytes) (rest : List Bytes) :
    Server Client Store :=
  ({ server with unsent := Function.update server.unsent client rest }.put client { server.threads client with
    incoming := (server.threads client).incoming ++ request
    requests := (server.threads client).requests + 1 }).tell [.sent client (server.threads client).requests]

theorem send_taken {request : Bytes} {rest : List Bytes} (unsent : server.unsent client = request :: rest) :
    server.take backend (.send client) = some (sends server client request rest) := by
  simp only [Server.take, unsent]
  rfl

theorem send_routine {request : Bytes} {rest : List Bytes} :
    ((sends server client request rest).threads client).routine = (server.threads client).routine := by
  rw [sends, tell_threads, put_thread_self]

section EmptyBuffer

variable {length : Int} {more : Bytes → Routine}

/-- Whatever is received into an empty buffer, the zero is written outside of it. -/
theorem outside_of_delivery {count : Nat}
    (here : (server.threads client).routine = .recv [] length fun after => .terminate after length more)
    (delivers : (server.threads client).delivers count) :
    ∃ after, Relation.ReflTransGen (Step AnyLength backend) server after ∧
      ¬WithinBuffers (after.threads client).routine := by
  refine ⟨_, .single ⟨_, trivial, receive_taken here delivers⟩, ?_⟩
  rw [put_thread_self]
  simp [received, WithinBuffers]

theorem outside_of_end
    (here : (server.threads client).routine = .recv [] length fun after => .terminate after length more)
    (arrived : (server.threads client).incoming = []) (ends : server.unsent client = []) :
    ∃ after, Relation.ReflTransGen (Step AnyLength backend) server after ∧
      ¬WithinBuffers (after.threads client).routine := by
  have closes : server.take backend (.close client) =
      some (server.put client { server.threads client with closed := true }) := by
    simp only [Server.take, ends]
  have there : ((server.put client { server.threads client with closed := true }).threads client).routine =
      .recv [] length fun after => .terminate after length more := by
    rw [put_thread_self]
    exact here
  have delivers : ((server.put client { server.threads client with closed := true }).threads client).delivers 0 := by
    rw [put_thread_self]
    exact ⟨Nat.zero_le _, Nat.zero_le _, fun _ => .inr ⟨arrived, rfl⟩⟩
  obtain ⟨after, run, outside⟩ := @outside_of_delivery _ _ _ backend _ _ _ _ _ there delivers
  exact ⟨after, run.head ⟨_, trivial, closes⟩, outside⟩

/-- A thread that receives into an empty buffer can be made to write outside of it: the induction is on what
its client still sends. -/
theorem outside_reached (asks : sizeT length ≠ 0)
    (here : (server.threads client).routine = .recv [] length fun after => .terminate after length more) :
    ∃ after, Relation.ReflTransGen (Step AnyLength backend) server after ∧
      ¬WithinBuffers (after.threads client).routine := by
  induction left : server.unsent client generalizing server with
  | nil =>
      by_cases arrived : (server.threads client).incoming = []
      · exact outside_of_end here arrived left
      · have asked : (server.threads client).asked = sizeT length := asked_of_recv here
        have some := List.length_pos_of_ne_nil arrived
        have delivers : (server.threads client).delivers 1 := ⟨by omega, some, by simp⟩
        exact outside_of_delivery here delivers
  | cons chunk rest ih =>
      obtain ⟨after, run, beyond⟩ := ih (send_routine.trans here) (Function.update_self _ _ _)
      exact ⟨after, run.head ⟨.send client, trivial, send_taken left⟩, beyond⟩

end EmptyBuffer

theorem outside_of_empty (disciplined : DisciplinedUpTo True server) {next : Option Bytes → Routine}
    (here : (server.threads client).routine = .malloc (-1) next) :
    ∃ after, Relation.ReflTransGen (Step AnyLength backend) server after ∧
      ¬WithinBuffers (after.threads client).routine := by
  have sound := standing_sound (disciplined.standing client) (by simp [Pauses, here])
  rw [here] at sound
  obtain ⟨_, _, more, goesOn, _⟩ := sound_malloc sound (by decide)
  have allocates : server.take backend (.move client (.allocate [])) =
      some (server.put client { server.threads client with routine := next (some []) }) := by
    have empty : allocated (-1) = some 0 := rfl
    simp only [Server.take, Thread.move, here, empty, List.length_nil, if_true]
  have there : ((server.put client { server.threads client with routine := next (some []) }).threads client).routine =
      .recv [] (-1) fun after => .terminate after (-1) more := by
    rw [put_thread_self]
    exact goesOn []
  obtain ⟨after, run, outside⟩ := @outside_reached _ _ _ backend _ _ _ _ (by decide) there
  exact ⟨after, run.head ⟨_, trivial, allocates⟩, outside⟩

theorem outside_of_null (disciplined : DisciplinedUpTo True server)
    (here : hasBuffer (server.threads client).routine = false)
    (ends : (server.threads client).incoming = [] ∧ (server.threads client).closed = true) :
    ∃ after, Relation.ReflTransGen (Step AnyLength backend) server after ∧
      ¬WithinBuffers (after.threads client).routine := by
  have standing := disciplined.standing client
  generalize stands : (server.threads client).routine = routine at standing here
  generalize decide (server.owner = some (.instanceThread client)) = inside at standing
  cases standing with
  | sound sound =>
      obtain ⟨_, _, rfl⟩ := no_buffer.mp here
      cases sound
  | running _ _ => cases here
  | @noBuffer length more _ =>
      have returns : server.take backend (.move client (.receive 0)) = some (server.put client
          { server.threads client with routine := .terminate [] length more }) := by
        simp only [Server.take, Thread.move, stands, true_and, if_pos ends]
      refine ⟨_, .single ⟨_, trivial, returns⟩, ?_⟩
      rw [put_thread_self]
      simp [WithinBuffers]

/-- A thread that goes wrong can be made to write outside of its buffer. -/
theorem outside_of_misses (disciplined : DisciplinedUpTo True server) (misses : Misses (server.threads client)) :
    ∃ after, Relation.ReflTransGen (Step AnyLength backend) server after ∧
      ¬WithinBuffers (after.threads client).routine := by
  rcases misses with length | ⟨null, ends⟩
  · obtain ⟨next, here⟩ := length_of_some.mp length
    exact outside_of_empty disciplined here
  · exact outside_of_null disciplined null ends

section Start

variable {store : Store} {codes : Client → Int} {streams : Client → List Bytes}

theorem spared_kept (faithful : Faithful represents backend) (bounded : Bounded start)
    (related : represents start store)
    (run : Relation.ReflTransGen (Step Spared backend) (Server.started store codes streams) server) :
    DisciplinedUpTo True server ∧ Stored represents start server := by
  induction run with
  | refl => exact ⟨started_disciplined store codes streams, started_stored related codes streams⟩
  | tail _ step ih =>
      obtain ⟨choice, spared, taken⟩ := step
      exact sheltered_step faithful bounded ih.1 ih.2 (spared_sheltered spared) (take_taken taken)

theorem kept_or_misses (faithful : Faithful represents backend) (bounded : Bounded start)
    (related : represents start store)
    (run : Relation.ReflTransGen (Step AnyLength backend) (Server.started store codes streams) server) :
    (DisciplinedUpTo True server ∧ Stored represents start server) ∨
      ∃ (early : Server Client Store) (client : Client),
        Relation.ReflTransGen (Step AnyLength backend) (Server.started store codes streams) early ∧
        DisciplinedUpTo True early ∧ Misses (early.threads client) := by
  induction run with
  | refl => exact .inl ⟨started_disciplined store codes streams, started_stored related codes streams⟩
  | @tail server after run step ih =>
      rcases ih with ⟨disciplined, stored⟩ | beyond
      · obtain ⟨choice, _, taken⟩ := step
        by_cases spared : Spared choice server
        · exact .inl (sheltered_step faithful bounded disciplined stored (spared_sheltered spared) (take_taken taken))
        · obtain ⟨client, misses⟩ := misses_of_taken (take_taken taken) spared
          exact .inr ⟨server, client, run, disciplined, misses⟩
      · exact .inr beyond

end Start

/-- In every run in which no thread calls `malloc(0)` and none finds the end of its stream without a buffer, every
call to the store has valid lengths and every zero is written inside its buffer. For given streams all runs
are like that exactly when no run brings a thread there. -/
theorem lengths_valid (faithful : Faithful represents backend) (bounded : Bounded start) {store : Store}
    (related : represents start store) (codes : Client → Int) (streams : Client → List Bytes) :
    (∀ server, Relation.ReflTransGen (Step Spared backend) (Server.started store codes streams) server →
      ∀ client, WithinBuffers (server.threads client).routine) ∧
    ((∀ server, Relation.ReflTransGen (Step AnyLength backend) (Server.started store codes streams) server →
      ∀ client, WithinBuffers (server.threads client).routine) ↔
    ∀ server, Relation.ReflTransGen (Step AnyLength backend) (Server.started store codes streams) server →
      ∀ client, ¬Misses (server.threads client)) := by
  refine ⟨fun server run client => ?_, fun within server run client misses => ?_, fun none server run client => ?_⟩
  · exact standing_within ((spared_kept faithful bounded related run).1.standing client)
  · obtain ⟨early, other, reached, disciplined, misses⟩ : ∃ early other,
        Relation.ReflTransGen (Step AnyLength backend) (Server.started store codes streams) early ∧
        DisciplinedUpTo True early ∧ Misses (early.threads other) := by
      rcases kept_or_misses faithful bounded related run with ⟨disciplined, _⟩ | beyond
      · exact ⟨server, client, run, disciplined, misses⟩
      · exact beyond
    obtain ⟨after, onward, outside⟩ := @outside_of_misses _ _ _ backend _ _ disciplined misses
    exact outside (within after (reached.trans onward) other)
  · rcases kept_or_misses faithful bounded related run with ⟨disciplined, _⟩ | ⟨early, other, reached, _, misses⟩
    · exact standing_within (disciplined.standing client)
    · exact absurd misses (none early reached other)

end Runs

def negativeGet : Server Unit Bindings :=
  .started noBindings (fun _ => 0) fun _ => [intBytes 0 ++ intBytes (-1)]

def nothingFollows : List (Choice Unit Bindings) :=
  [.send (), .move () (.receive 4), .move () (.receive 4), .move () (.allocate []), .close (), .move () (.receive 0)]

theorem negative_get_reaches : ∃ (server : Server Unit Bindings) (more : Bytes → Routine),
    Relation.ReflTransGen (Step AnyLength mapStore) negativeGet server ∧
      (server.threads ()).routine = .terminate [] (-1) more := by
  obtain ⟨server, ran, more, here⟩ : ∃ server, negativeGet.run AnyLength mapStore nothingFollows = some server ∧
      ∃ more, (server.threads ()).routine = .terminate [] (-1) more := ⟨_, rfl, _, rfl⟩
  exact ⟨server, more, run_steps ran, here⟩

theorem negative_index {more : Bytes → Routine} : ¬WithinBuffers (.terminate [] (-1) more) :=
  fun within => absurd within.1 (by decide)

/-- A zero is written in front of an empty buffer. -/
theorem zero_written_outside : ∃ (server : Server Unit Bindings) (more : Bytes → Routine),
    Relation.ReflTransGen (Step AnyLength mapStore) negativeGet server ∧
      (server.threads ()).routine = .terminate [] (-1) more ∧ ¬WithinBuffers (server.threads ()).routine := by
  obtain ⟨server, more, run, here⟩ := negative_get_reaches
  exact ⟨server, more, run, here, here ▸ negative_index⟩

/-- One client updates a key; the other one asks for a key of length `-2` and sends a byte behind it. -/
def hugeGet : Server Bool Bindings :=
  .started noBindings (fun _ => 0) fun
    | true => [DriverCall.request (.set [107] [1])]
    | false => [intBytes 0 ++ intBytes (-2) ++ [88]]

def noBufferMet : List (Choice Bool Bindings) :=
  [.send false, .send true, .move false (.receive 4), .move false (.receive 4), .move false (.allocate []),
    .move false .go, .move true (.receive 4), .move true (.receive 4), .move true (.allocate [9, 9]),
    .move true (.receive 1), .move true .go, .move true (.receive 4), .move true (.allocate [9, 9]),
    .move true (.receive 1), .move true .go, .enter true]

theorem lengths_valid_without_buffer :
    (∃ server next, Relation.ReflTransGen (Step Spared mapStore) hugeGet server ∧
      (server.threads false).routine = .exited ∧
      (server.threads true).routine = .perform (.set [107, 0] 1 [1, 0] 1) next ∧
      Checked (.set [107, 0] 1 [1, 0] 1)) ∧
    ¬∀ server, Relation.ReflTransGen (Step AnyLength mapStore) negativeGet server →
      ∀ client, ¬Misses (server.threads client) := by
  constructor
  · obtain ⟨server, ran, ended, next, here⟩ : ∃ server, hugeGet.run Spared mapStore noBufferMet = some server ∧
        (server.threads false).routine = .exited ∧
        ∃ next, (server.threads true).routine = .perform (.set [107, 0] 1 [1, 0] 1) next := ⟨_, rfl, rfl, _, rfl⟩
    have within := (lengths_valid map_store_faithful nothing_bounded rfl _ _).1 server (run_steps ran) true
    rw [here] at within
    exact ⟨server, next, run_steps ran, ended, here, within⟩
  · intro none
    obtain ⟨server, more, run, here⟩ := negative_get_reaches
    have within := (lengths_valid map_store_faithful nothing_bounded rfl _ _).2.mpr none server run ()
    exact negative_index (here ▸ within)

end MyJQL.LengthChecks
