import MyJQL.MarkedHistories
import MyJQL.ClientService

/-!
# The server as one map

Whatever the threads do at the same time: the calls to the store come one after the other, each while its
request is being served. So the clients see one map, on which all requests that are accepted act in one
order.
-/

namespace MyJQL.Linearization

open MyJQL.StateProgram
open MyJQL.KeyValueStore
open MyJQL.ServerModel
open MyJQL.ServerProtocol
open MyJQL.ServerSystem
open MyJQL.ServerThreads
open MyJQL.ThreadSafety
open MyJQL.MarkedHistories
open MyJQL.RequestService
open MyJQL.ClientService

set_option autoImplicit false

abbrev Operation (Client : Type) := Client × Nat × StoreCall × StoreAnswer

def begins {Client : Type} : Event Client → Option (Client × Nat)
  | .sent client index => some (client, index)
  | _ => none

/-- An operation is begun when its request is sent, and has ended when a part of its reply was sent. -/
def reading {Client : Type} (calls : Client → List DriverCall) :
    Reading (Event Client) (Client × Nat) (Operation Client) where
  begins := begins
  acts := Event.operation
  ends
    | .replied client index _ =>
        if ((calls client)[index]?.bind DriverCall.storeCall).isSome then some (client, index) else none
    | _ => none
  identity operation := (operation.1, operation.2.1)

section Performed

variable {served : List Served} {index : Nat} {call : StoreCall} {answer : StoreAnswer}

theorem performed_by_member : (index, call, answer) ∈ performedBy served ↔
    ∃ request, served[index]? = some (request, answer) ∧ request.storeCall = some call := by
  rw [performedBy, List.mem_filterMap]
  constructor
  · rintro ⟨⟨⟨request, found⟩, place⟩, member, same⟩
    obtain ⟨asked, called, entry⟩ := Option.map_eq_some_iff.mp same
    cases entry
    exact ⟨request, List.mk_mem_zipIdx_iff_getElem?.mp member, called⟩
  · rintro ⟨request, found, called⟩
    refine ⟨((request, answer), index), List.mk_mem_zipIdx_iff_getElem?.mpr found, ?_⟩
    rw [called]
    rfl

theorem performed_by_once (served : List Served) : ((performedBy served).map Prod.fst).Nodup := by
  induction served using List.reverseRecOn with
  | nil => exact List.nodup_nil
  | append_singleton served entry ih =>
      obtain ⟨request, answer⟩ := entry
      rw [performed_by_append, List.map_append]
      cases called : request.storeCall with
      | none => simpa using ih
      | some call =>
          simp only [Option.map_some, Option.toList_some, List.map_cons, List.map_nil]
          refine List.nodup_append.mpr ⟨ih, List.nodup_singleton _, fun place member last inLast => ?_⟩
          obtain ⟨⟨place', call', answer'⟩, performed, rfl⟩ := List.mem_map.mp member
          obtain ⟨_, found, _⟩ := performed_by_member.mp performed
          have inside := (List.getElem?_eq_some_iff.mp found).1
          rw [List.mem_singleton.mp inLast]
          exact inside.ne

end Performed

section Operations

variable {Client : Type} [DecidableEq Client] {trace : List (Event Client)}

theorem operations_of_member {client : Client} {index : Nat} {call : StoreCall} {answer : StoreAnswer} :
    (index, call, answer) ∈ operationsOf client trace ↔ (client, index, call, answer) ∈ operations trace := by
  rw [operationsOf, List.mem_filterMap]
  constructor
  · rintro ⟨⟨other, operation⟩, member, same⟩
    split_ifs at same with own
    cases same
    cases own
    exact member
  · exact fun member => ⟨_, member, if_pos rfl⟩

theorem once_of_each {Entry : Type} (list : List (Client × Nat × Entry))
    (each : ∀ client,
      ((list.filterMap fun entry => if entry.1 = client then some entry.2 else none).map Prod.fst).Nodup) :
    (list.map fun entry => (entry.1, entry.2.1)).Nodup := by
  induction list with
  | nil => exact List.nodup_nil
  | cons entry rest ih =>
      obtain ⟨client, index, more⟩ := entry
      rw [List.map_cons, List.nodup_cons]
      constructor
      · intro again
        obtain ⟨⟨other, place, found⟩, member, same⟩ := List.mem_map.mp again
        cases same
        have once := each client
        simp only [List.filterMap_cons, if_true, List.map_cons, List.nodup_cons] at once
        exact once.1 (List.mem_map.mpr ⟨(index, found), List.mem_filterMap.mpr ⟨_, member, if_pos rfl⟩, rfl⟩)
      · refine ih fun other => (each other).sublist ?_
        exact ((List.sublist_cons_self _ _).filterMap _).map _

end Operations

section Sending

variable {Client Store : Type} [DecidableEq Client] {backend : StoreCall → Program Store StoreAnswer}
  {server after : Server Client Store} {choice : Choice Client Store} {requests : Client → List Bytes}

/-- How many requests each client has sent, and which. -/
structure Sending (requests : Client → List Bytes) (server : Server Client Store) : Prop where
  unsent : ∀ client, server.unsent client = (requests client).drop (server.threads client).requests
  sent : ∀ client index, (client, index) ∈ server.trace.filterMap begins ↔ index < (server.threads client).requests
  once : (server.trace.filterMap begins).Nodup

omit [DecidableEq Client] in
theorem sending_quiet {events : List (Event Client)} (sending : Sending requests server)
    (unsent : after.unsent = server.unsent)
    (same : ∀ client, (after.threads client).requests = (server.threads client).requests)
    (trace : after.trace = server.trace ++ events) (quiet : events.filterMap begins = []) : Sending requests after := by
  refine ⟨fun client => ?_, fun client index => ?_, ?_⟩
  · rw [unsent, same]
    exact sending.unsent client
  · rw [trace, List.filterMap_append, quiet, List.append_nil, same]
    exact sending.sent client index
  · rw [trace, List.filterMap_append, quiet, List.append_nil]
    exact sending.once

theorem put_requests {client : Client} {thread : Thread}
    (same : thread.requests = (server.threads client).requests) (other : Client) :
    ((server.put client thread).threads other).requests = (server.threads other).requests := by
  by_cases own : other = client
  · subst own
    rw [put_thread_self, same]
  · rw [put_thread_other own]

theorem moved_requests {thread after : Thread} {move : Move} {bytes : Option Bytes}
    (moved : Moved thread move after bytes) : after.requests = thread.requests := by
  cases moved <;> rfl

theorem sending_sent {client : Client} {request : Bytes} {rest : List Bytes} (sending : Sending requests server)
    (unsent : server.unsent client = request :: rest) :
    Sending requests (({ server with unsent := Function.update server.unsent client rest }.put client
      { server.threads client with
        incoming := (server.threads client).incoming ++ request
        requests := (server.threads client).requests + 1 }).tell [.sent client (server.threads client).requests]) := by
  have next : [Event.sent client (server.threads client).requests].filterMap begins =
      [(client, (server.threads client).requests)] := rfl
  refine ⟨fun other => ?_, fun other index => ?_, ?_⟩
  · rw [tell_unsent, put_unsent, tell_threads]
    by_cases own : other = client
    · subst own
      rw [put_thread_self]
      simp only [Function.update_self]
      rw [← List.drop_drop, ← sending.unsent, unsent]
      rfl
    · rw [put_thread_other own]
      exact (Function.update_of_ne own _ _).trans (sending.unsent other)
  · rw [tell_trace, put_trace, List.filterMap_append, next, List.mem_append, sending.sent, List.mem_singleton,
      tell_threads]
    by_cases own : other = client
    · subst own
      rw [put_thread_self]
      simp only [Prod.mk.injEq, true_and]
      omega
    · rw [put_thread_other own]
      simp [own]
  · rw [tell_trace, put_trace, List.filterMap_append, next]
    refine List.nodup_append.mpr ⟨sending.once, List.nodup_singleton _, fun entry member last inLast => ?_⟩
    rw [List.mem_singleton.mp inLast]
    rintro rfl
    exact absurd ((sending.sent _ _).mp member) (lt_irrefl _)

theorem sending_taken (sending : Sending requests server) (taken : Taken backend server choice after) :
    Sending requests after := by
  cases taken with
  | send unsent => exact sending_sent sending unsent
  | close _ => exact sending_quiet sending rfl (put_requests rfl) (List.append_nil _).symm rfl
  | @move client move thread bytes moved =>
      refine sending_quiet sending rfl (put_requests (moved_requests moved)) rfl ?_
      cases bytes <;> rfl
  | enter _ _ | perform _ _ | beyond _ _ | leave _ =>
      exact sending_quiet sending rfl (put_requests rfl) (List.append_nil _).symm rfl
  | finish _ _ _ | clash _ _ => exact sending_quiet sending rfl (put_requests rfl) rfl rfl

omit [DecidableEq Client] in
theorem sending_started (store : Store) (codes : Client → Int) (requests : Client → List Bytes) :
    Sending requests (Server.started store codes requests) :=
  ⟨fun _ => rfl, fun _ _ => by simp [Server.started], List.nodup_nil⟩

end Sending

section Streams

variable {requests : List Request}

theorem request_bytes_pos (request : Request) : 0 < request.bytes.length := by
  cases request with
  | call made =>
      cases made <;>
        simp only [Request.bytes, DriverCall.request, List.length_append, int_bytes_length, intSize] <;> omega
  | unknown code => simp [Request.bytes, int_bytes_length]

theorem stream_of_shorter {fewer more : Nat} (less : fewer < more) (inside : more ≤ requests.length) :
    (streamOf (requests.take fewer)).length < (streamOf (requests.take more)).length := by
  have split : requests.take more =
      requests.take fewer ++ requests[fewer] :: (requests.take more).drop (fewer + 1) := by
    have front : (requests.take more).take fewer = requests.take fewer := by
      rw [List.take_take, Nat.min_eq_left less.le]
    have back : (requests.take more).drop fewer = requests[fewer] :: (requests.take more).drop (fewer + 1) := by
      rw [List.drop_eq_getElem_cons (by rw [List.length_take]; omega), List.getElem_take]
    rw [← front, ← back, List.take_append_drop]
  have pos := request_bytes_pos requests[fewer]
  rw [split, stream_of_append, List.length_append]
  simp only [streamOf, List.flatMap_cons, List.length_append]
  omega

end Streams

section Order

variable {Client Store : Type} [DecidableEq Client] {backend : StoreCall → Program Store StoreAnswer}
  {server after : Server Client Store} {choice : Choice Client Store} {client : Client} {failing : Prop}
  {calls : Client → List DriverCall}

def requestsOf (calls : Client → List DriverCall) (client : Client) : List Bytes :=
  (calls client).map DriverCall.request

theorem served_sent {served : List Served} (sending : Sending (requestsOf calls) server)
    (serving : Serving failing ((calls client).map .call) [] server client served) :
    served.length ≤ (server.threads client).requests := by
  have first := serving_shorter serving
  have inside := first.length_le
  rw [List.length_map] at inside
  have split : (server.unsent client).flatten =
      streamOf (((calls client).map Request.call).drop (server.threads client).requests) := by
    rw [sending.unsent, requestsOf, streamOf, ← List.map_drop, ← List.map_drop, List.flatMap_map, List.flatMap_def]
    rfl
  obtain ⟨read, taken⟩ := stage_taken (.inl rfl) serving.stage
  have known : served.map Prod.fst = ((calls client).map Request.call).take served.length := by
    have same := List.prefix_iff_eq_take.mp first
    rwa [List.length_map] at same
  by_contra more
  have shorter := stream_of_shorter (Nat.lt_of_not_le more) inside
  rw [split, known, List.append_nil] at taken
  have whole := List.take_append_drop (server.threads client).requests ((calls client).map Request.call)
  have parts := congrArg (fun requests => (streamOf requests).length) whole
  have lengths := congrArg List.length taken
  simp only [stream_of_append, List.length_append] at parts lengths
  omega

theorem taken_grows (taken : Taken backend server choice after) :
    ∃ events, after.trace = server.trace ++ events ∧ events.length ≤ 1 := by
  cases taken with
  | send _ | finish _ _ _ | clash _ _ => exact ⟨_, rfl, le_refl _⟩
  | @move client move thread bytes _ =>
      refine ⟨_, rfl, ?_⟩
      cases bytes <;> simp [replies]
  | close _ | enter _ _ | perform _ _ | beyond _ _ | leave _ => exact ⟨[], (List.append_nil _).symm, Nat.zero_le _⟩

theorem served_call {made : List DriverCall} {served : List Served} {index : Nat} {entry : Served}
    (first : served.map Prod.fst <+: made.map .call) (found : served[index]? = some entry) :
    ∃ call, made[index]? = some call ∧ entry.1 = .call call := by
  obtain ⟨behind, split⟩ := first
  have there : (served.map Prod.fst ++ behind)[index]? = some entry.1 := by
    rw [List.getElem?_append_left (by simpa using (List.getElem?_eq_some_iff.mp found).1), List.getElem?_map, found]
    rfl
  rw [split, List.getElem?_map] at there
  obtain ⟨call, made, same⟩ := Option.map_eq_some_iff.mp there
  exact ⟨call, made, same.symm⟩

theorem acknowledged_performed {served : List Served} {index : Nat} {bytes : Bytes} {call : DriverCall}
    {storeCall : StoreCall} (serving : Serving failing ((calls client).map .call) [] server client served)
    (replied : .replied client index bytes ∈ server.trace) (made : (calls client)[index]? = some call)
    (accepted : DriverCall.storeCall call = some storeCall) :
    ∃ answer, (client, index, storeCall, answer) ∈ operations server.trace := by
  have inside := serving.replied index bytes replied
  have found : served[index]? = some served[index] := List.getElem?_eq_getElem inside
  obtain ⟨other, same, request⟩ := served_call (serving_shorter serving) found
  rw [made] at same
  cases same
  refine ⟨served[index].2, operations_of_member.mp ?_⟩
  rw [serving.performed]
  refine performed_by_member.mpr ⟨served[index].1, found, ?_⟩
  rw [request]
  exact accepted

/-- Every operation acts while its request is being served. -/
theorem reading_closed (sending : Sending (requestsOf calls) server)
    (serving : ∀ client, ∃ served, Serving failing ((calls client).map .call) [] server client served) :
    (reading calls).Closed server.trace := by
  refine ⟨?_, ?_, sending.once, ?_⟩
  · rintro ⟨client, index, call, answer⟩ performed
    obtain ⟨served, serving⟩ := serving client
    have own := operations_of_member.mpr performed
    rw [serving.performed] at own
    obtain ⟨_, found, _⟩ := performed_by_member.mp own
    have inside := (List.getElem?_eq_some_iff.mp found).1
    exact (sending.sent client index).mpr (lt_of_lt_of_le inside (served_sent sending serving))
  · rintro ⟨client, index⟩ ended
    obtain ⟨event, member, same⟩ := List.mem_filterMap.mp ended
    cases event with
    | replied other place bytes =>
        simp only [reading] at same
        split_ifs at same with accepted
        cases same
        obtain ⟨storeCall, asked⟩ := Option.isSome_iff_exists.mp accepted
        obtain ⟨call, made, accepted⟩ := Option.bind_eq_some_iff.mp asked
        obtain ⟨served, serving⟩ := serving client
        obtain ⟨answer, performed⟩ := acknowledged_performed serving member made accepted
        exact ⟨_, performed, rfl⟩
    | sent _ _ | performed _ _ _ _ | closed => cases same
  · refine once_of_each _ fun client => ?_
    obtain ⟨served, serving⟩ := serving client
    have own := serving.performed
    rw [operationsOf] at own
    rw [Reading.order]
    change (((operations server.trace).filterMap _).map Prod.fst).Nodup
    rw [own]
    exact performed_by_once served

end Order

section Runs

variable {Client Store : Type} [DecidableEq Client] {represents : Bindings → Store → Prop}
  {backend : StoreCall → Program Store StoreAnswer} {start : Bindings} {server : Server Client Store}
  {calls : Client → List DriverCall} {store : Store} {codes : Client → Int}

/-- One order of all operations, in which the map answers as the clients see it. -/
structure Linearized (start : Bindings) (calls : Client → List DriverCall) (trace : List (Event Client))
    (order : List (Operation Client)) : Prop where
  /-- The answers are those of the map. -/
  answered : Answered start (order.map fun operation => operation.2.2)
  /-- The operations of a client are those of its first calls that are accepted, each once and in its own order,
  and what was sent to it are the replies with these answers. -/
  clients : ∀ client, ∃ served, served.map Prod.fst <+: (calls client).map .call ∧
    (order.filterMap fun operation => if operation.1 = client then some operation.2 else none) = performedBy served ∧
    repliedTo client trace <+: repliesTo served
  /-- What was acknowledged is in the order. -/
  acknowledged : ∀ client index bytes call storeCall, .replied client index bytes ∈ trace →
    (calls client)[index]? = some call → DriverCall.storeCall call = some storeCall →
    ∃ answer, (client, index, storeCall, answer) ∈ order
  /-- What was acknowledged before another request was sent is ahead of it. -/
  realTime : ∀ front back bytes (early late : Operation Client),
    trace = front ++ .sent late.1 late.2.1 :: back → .replied early.1 early.2.1 bytes ∈ front →
    early ∈ order → late ∈ order → [early, late].Sublist order

theorem served_calls (faithful : Faithful represents backend) (bounded : Bounded start)
    (related : represents start store) (fits : ∀ client, ∀ call ∈ calls client, DriverCall.Fits call)
    (run : Relation.ReflTransGen (Step FullLength backend) (Server.started store codes (requestsOf calls)) server) :
    Disciplined server ∧ Stored represents start server ∧
      ∀ client, ∃ served, Serving True ((calls client).map .call) [] server client served := by
  refine served_run faithful bounded related (fun client request member => ?_) (fun client => ?_) (fun _ _ full => full)
    (fun _ _ _ => trivial) run
  · obtain ⟨call, made, rfl⟩ := List.mem_map.mp member
    exact fits client call made
  · rw [requestsOf, streamOf, List.flatMap_map, List.flatMap_def]
    rfl

/-- The trace grows by what the invariant of the clients allows. -/
theorem marked_run (faithful : Faithful represents backend) (bounded : Bounded start) (related : represents start store)
    (fits : ∀ client, ∀ call ∈ calls client, DriverCall.Fits call)
    (run : Relation.ReflTransGen (Step FullLength backend) (Server.started store codes (requestsOf calls)) server) :
    Sending (requestsOf calls) server ∧ (reading calls).Marked server.trace := by
  induction run with
  | refl => exact ⟨sending_started store codes _, Reading.marked_nil⟩
  | @tail server after run step ih =>
      obtain ⟨_, _, serving⟩ := served_calls faithful bounded related fits (run.tail step)
      obtain ⟨choice, _, took⟩ := step
      have taken := take_taken took
      have sending := sending_taken ih.1 taken
      obtain ⟨events, grows, single⟩ := taken_grows taken
      have closed := reading_closed sending serving
      rw [grows] at closed ⊢
      exact ⟨sending, Reading.marked_append ih.2 single closed⟩

/-- The order in which the store was called is such an order, and the store is what it leads to. -/
theorem server_linearized (faithful : Faithful represents backend) (bounded : Bounded start)
    (related : represents start store) (codes : Client → Int) (calls : Client → List DriverCall)
    (fits : ∀ client, ∀ call ∈ calls client, DriverCall.Fits call)
    (run : Relation.ReflTransGen (Step FullLength backend) (Server.started store codes (requestsOf calls)) server) :
    ∃ order, Linearized start calls server.trace order ∧
      represents (replay start (order.map fun operation => operation.2.2.1)) server.store := by
  obtain ⟨_, stored, serving⟩ := served_calls faithful bounded related fits run
  obtain ⟨_, marked⟩ := marked_run faithful bounded related fits run
  refine ⟨operations server.trace, ⟨stored.answered, fun client => ?_, ?_, ?_⟩, ?_⟩
  · obtain ⟨served, serving⟩ := serving client
    exact ⟨served, serving_shorter serving, serving.performed, serving_told serving⟩
  · intro client index bytes call storeCall replied made accepted
    obtain ⟨served, serving⟩ := serving client
    exact acknowledged_performed serving replied made accepted
  · intro front back bytes early late split replied earlyActs lateActs
    refine Reading.marked_real_time marked split rfl ?_ earlyActs lateActs
    obtain ⟨served, serving⟩ := serving early.1
    have own := operations_of_member.mpr (show (early.1, early.2.1, early.2.2.1, early.2.2.2) ∈ _ from earlyActs)
    rw [serving.performed] at own
    obtain ⟨request, found, accepted⟩ := performed_by_member.mp own
    refine List.mem_filterMap.mpr ⟨_, replied, if_pos ?_⟩
    obtain ⟨call, made, rfl⟩ := served_call (serving_shorter serving) found
    rw [made]
    exact Option.isSome_iff_exists.mpr ⟨_, accepted⟩
  · have represented := stored.stored
    rwa [storeLog, List.map_map] at represented

end Runs

def storeAndLook : Bool → List DriverCall
  | true => [.set [107] [1]]
  | false => [.get [107]]

def stores : List (Choice Bool Bindings) :=
  [.send true, .move true (.receive 4), .move true (.receive 4), .move true (.allocate [0, 0]),
    .move true (.receive 1), .move true .go, .move true (.receive 4), .move true (.allocate [0, 0]),
    .move true (.receive 1), .move true .go, .enter true, .perform true, .finish true, .leave true, .move true .go]

def looks : List (Choice Bool Bindings) :=
  [.send false, .move false (.receive 4), .move false (.receive 4), .move false (.allocate [0, 0]),
    .move false (.receive 1), .move false .go, .move false (.allocate (.replicate 1025 0)), .enter false,
    .perform false, .finish false, .leave false, .move false .go, .move false .go, .move false .go]

def twoClients : Server Bool Bindings := .started noBindings (fun _ => 0) (requestsOf storeAndLook)

set_option maxRecDepth 16000 in
theorem two_clients_run : ∃ (server : Server Bool Bindings) (back : List (Event Bool)),
    twoClients.run FullLength mapStore (stores ++ looks) = some server ∧
      server.trace = [.sent true 0, .performed true 0 (.set [107] [1]) none, .replied true 0 (intBytes 1)] ++
        .sent false 0 :: back ∧ .replied false 0 (intBytes 1) ∈ back :=
  ⟨_, _, rfl, rfl, .tail _ (.head _)⟩

/-- The value was acknowledged before it was looked for. -/
theorem server_linearized_two_clients : ∃ (server : Server Bool Bindings) (order : List (Operation Bool))
    (stored found : StoreAnswer), twoClients.run FullLength mapStore (stores ++ looks) = some server ∧
      Linearized noBindings storeAndLook server.trace order ∧
      [(true, 0, .set [107] [1], stored), (false, 0, .get [107] maxStrLen, found)].Sublist order := by
  obtain ⟨server, back, ran, trace, replied⟩ := two_clients_run
  obtain ⟨order, linearized, _⟩ := server_linearized map_store_faithful nothing_bounded rfl (fun _ => 0) storeAndLook
    (by rintro (_ | _) <;> simp [storeAndLook, DriverCall.Fits]) (run_steps ran)
  obtain ⟨stored, early⟩ := linearized.acknowledged true 0 (intBytes 1) (.set [107] [1]) (.set [107] [1])
    (by simp [trace]) rfl rfl
  obtain ⟨found, late⟩ := linearized.acknowledged false 0 (intBytes 1) (.get [107]) (.get [107] maxStrLen)
    (by simp [trace, replied]) rfl rfl
  exact ⟨server, order, stored, found, ran, linearized,
    linearized.realTime _ back (intBytes 1) _ _ trace (by simp) early late⟩

end MyJQL.Linearization
