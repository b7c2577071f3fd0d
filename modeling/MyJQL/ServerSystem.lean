import MyJQL.ServerProtocol
import Mathlib.Data.List.Infix
import Mathlib.Data.List.TakeWhile

/-!
# Any number of connections

Every client and every server thread takes its steps when it likes; the calls to the store come one
at a time. In every state of every run each connection is in step, and the store is the map that the
calls performed so far have made.
-/

namespace MyJQL.ServerSystem

open MyJQL.ByteStreams
open MyJQL.StateProgram
open MyJQL.KeyValueStore
open MyJQL.ServerModel
open MyJQL.ServerProtocol

set_option autoImplicit false

variable {Client Store : Type} [DecidableEq Client]

def logOf (client : Client) (log : List (Client × StoreCall × StoreAnswer)) :
    List (StoreCall × StoreAnswer) :=
  log.filterMap fun entry => if entry.1 = client then some entry.2 else none

def performedCalls (log : List (Client × StoreCall × StoreAnswer)) : List StoreCall :=
  (log.map Prod.snd).map Prod.fst

def Bounded (bindings : Bindings) : Prop :=
  ∀ key value, bindings key = some value → value.length ≤ maxStrLen

theorem nothing_bounded : Bounded noBindings := by
  intro key value found
  cases found

def Made (calls : List DriverCall) : Prop :=
  ∀ call ∈ calls, DriverCall.Fits call ∧ call ≠ .close

/-- A connection whose client stands between two calls: whatever was sent has been read, and the
calls that returned did what they stand for. -/
structure Settled (calls : List DriverCall) (performed : List (StoreCall × StoreAnswer))
    (link : Connection) (history : List Exchange) : Prop where
  split : calls = history.map Exchange.call ++ link.client.remaining
  proper : ∀ exchange ∈ history, exchange.Proper
  logged : performed = history.filterMap Exchange.performed
  returned : link.client.outcomes = history.map Exchange.outcome
  readUp : link.up = []
  readDown : link.down = []
  rests : Produces serverAction link.server [] (restingTurn link.client.remaining)

section OneConnection

variable {calls : List DriverCall} {performed : List (StoreCall × StoreAnswer)} {link : Connection}

theorem session_of_made (made : Made calls) : Session (calls ++ [.close]) := by
  constructor
  · intro call member
    rcases List.mem_append.mp member with inside | last
    · exact (made call inside).1
    · rw [List.mem_singleton.mp last]
      trivial
  · intro front call remaining split
    rcases List.eq_nil_or_concat remaining with rfl | ⟨others, last, rfl⟩
    · have same := List.append_inj_right' split rfl
      simpa using (List.cons.inj same).1.symm
    · have shape : calls ++ [DriverCall.close] = (front ++ call :: others) ++ [last] := by
        rw [split]
        simp
      have inside : call ∈ calls := by
        rw [List.append_inj_left' shape rfl]
        simp
      simpa using (made call inside).2

theorem idle_driver_consumes {remaining : List DriverCall} {outcomes : List Outcome} {bytes : Bytes}
    {last : DriverState} (reads : Consumes driverAction ⟨none, remaining, outcomes⟩ bytes last)
    (waits : last.running = none) : last = ⟨none, remaining, outcomes⟩ ∧ bytes = [] := by
  rcases consumes_inv reads with ⟨same, empty⟩ | ⟨next, acts, behind⟩ | ⟨next, acts, _⟩ |
    ⟨first, rest, next, acts, _⟩
  · exact ⟨same.symm, empty⟩
  · cases remaining with
    | nil => cases acts
    | cons call remaining =>
        cases acts
        rcases consumes_inv behind with ⟨same, _⟩ | ⟨_, acts, _⟩ | ⟨_, acts, _⟩ | ⟨_, _, _, acts, _⟩
        · rw [← same] at waits
          cases waits
        all_goals
          cases call <;> simp [driverAction, DriverCall.script, sendInt, intBytes, List.range_succ] at acts
  · cases remaining <;> cases acts
  · cases remaining <;> cases acts

theorem stage_settled (stage : Stage calls performed link) (between : link.client.running = none) :
    ∃ history, Settled calls performed link history := by
  cases stage with
  | answering history remaining split proper logged crossing =>
      obtain ⟨up, rest, sends, reads⟩ := crossing
      obtain ⟨⟨running, waiting, returned⟩, server, upBytes, down⟩ := link
      cases between
      obtain ⟨same, empty⟩ := idle_driver_consumes reads rfl
      cases same
      obtain ⟨drained, rfl⟩ := List.append_eq_nil_iff.mp empty
      exact ⟨history, split, proper, logged, rfl, up, drained, sends⟩
  | asking history call remaining split proper logged within crossing =>
      obtain ⟨_, rest, sends, _⟩ := crossing
      obtain ⟨⟨running, waiting, returned⟩, server, upBytes, down⟩ := link
      cases between
      have within : waiting = remaining := within
      subst within
      rcases produces_inv sends with ⟨same, _⟩ | ⟨next, acts, behind⟩ | ⟨_, _, _, acts, _⟩
      · cases same
      · cases waiting with
        | nil => cases acts
        | cons first waiting =>
            cases acts
            have fewer := driver_produces_remaining behind
            simp only [List.length_cons] at fewer
            omega
      · cases waiting <;> cases acts

/-- What has been performed is what the first calls stand for, in their order. -/
theorem stage_ordered (stage : Stage calls performed link) :
    performed.map Prod.fst <+: calls.filterMap DriverCall.storeCall := by
  have ordered : ∀ history : List Exchange, (∀ exchange ∈ history, exchange.Proper) →
      (history.filterMap Exchange.performed).map Prod.fst =
        (history.map Exchange.call).filterMap DriverCall.storeCall := by
    intro history proper
    rw [List.filterMap_map, List.map_filterMap]
    apply List.filterMap_congr
    intro exchange member
    exact (proper exchange member).asked
  cases stage with
  | answering history remaining split proper logged crossing =>
      rw [logged, ordered history proper, split, List.filterMap_append]
      exact List.prefix_append _ _
  | asking history call remaining split proper logged within crossing =>
      rw [logged, ordered history proper, split, List.filterMap_append]
      exact List.prefix_append _ _

end OneConnection

structure InStep (represents : Bindings → Store → Prop) (start : Bindings)
    (calls : Client → List DriverCall) (system : System Client Store) : Prop where
  stored : represents (replay start (performedCalls system.log)) system.store
  answered : Answered start (system.log.map Prod.snd)
  accepted : ∀ storeCall ∈ performedCalls system.log, ∃ call, DriverCall.storeCall call = some storeCall
  staged : ∀ client, Stage (calls client ++ [.close]) (logOf client system.log) (system.links client)

section Calls

variable {call : DriverCall} {storeCall : StoreCall} {bindings : Bindings}

theorem accepted_bounded (accepted : DriverCall.storeCall call = some storeCall)
    (bounded : Bounded bindings) : Bounded (storeCall.apply bindings) := by
  cases call with
  | get key =>
      rw [DriverCall.storeCall] at accepted
      split_ifs at accepted
      cases accepted
      exact bounded
  | set key value =>
      rw [DriverCall.storeCall] at accepted
      split_ifs at accepted with long valueLong
      cases accepted
      intro other bound found
      by_cases same : other = key
      · subst same
        simp only [StoreCall.apply, Function.update_self, Option.some.injEq] at found
        rw [← found]
        exact Nat.le_of_not_lt valueLong
      · simp only [StoreCall.apply, Function.update_of_ne same] at found
        exact bounded other bound found
  | del key =>
      rw [DriverCall.storeCall] at accepted
      split_ifs at accepted
      cases accepted
      intro other bound found
      by_cases same : other = key
      · simp [StoreCall.apply, same] at found
      · simp only [StoreCall.apply, Function.update_of_ne same] at found
        exact bounded other bound found
  | close => cases accepted

theorem replay_bounded (bounded : Bounded bindings) {calls : List StoreCall}
    (accepted : ∀ storeCall ∈ calls, ∃ call, DriverCall.storeCall call = some storeCall) :
    Bounded (replay bindings calls) := by
  induction calls generalizing bindings with
  | nil => exact bounded
  | cons storeCall calls ih =>
      obtain ⟨call, asked⟩ := accepted storeCall List.mem_cons_self
      exact ih (accepted_bounded asked bounded) fun other member =>
        accepted other (List.mem_cons_of_mem storeCall member)

theorem accepted_sensible (accepted : DriverCall.storeCall call = some storeCall)
    (bounded : Bounded bindings) : Sensible (storeCall.answer bindings) := by
  intro size value answered
  cases call with
  | get key =>
      rw [DriverCall.storeCall] at accepted
      split_ifs at accepted
      cases accepted
      simp only [StoreCall.answer, Option.map_eq_some_iff, Prod.mk.injEq] at answered
      obtain ⟨whole, found, rfl, rfl⟩ := answered
      have small := bounded key whole found
      rw [List.take_of_length_le small]
      exact ⟨rfl, small⟩
  | set key value =>
      rw [DriverCall.storeCall] at accepted
      split_ifs at accepted
      cases accepted
      cases answered
  | del key =>
      rw [DriverCall.storeCall] at accepted
      split_ifs at accepted
      cases accepted
      cases answered
  | close => cases accepted

end Calls

section Runs

variable {represents : Bindings → Store → Prop} {backend : StoreCall → Program Store StoreAnswer}
  {start : Bindings} {calls : Client → List DriverCall} {system after : System Client Store}
  {client : Client}

theorem log_of_cons_own (log : List (Client × StoreCall × StoreAnswer)) (client : Client)
    (entry : StoreCall × StoreAnswer) : logOf client ((client, entry) :: log) = entry :: logOf client log := by
  simp [logOf]

theorem log_of_own (log : List (Client × StoreCall × StoreAnswer)) (client : Client)
    (entry : StoreCall × StoreAnswer) :
    logOf client (log ++ [(client, entry)]) = logOf client log ++ [entry] := by
  simp [logOf]

theorem log_of_other (log : List (Client × StoreCall × StoreAnswer)) {client other : Client}
    (different : other ≠ client) (entry : StoreCall × StoreAnswer) :
    logOf other (log ++ [(client, entry)]) = logOf other log := by
  simp [logOf, different.symm]

omit [DecidableEq Client] in
theorem performed_calls_append (log : List (Client × StoreCall × StoreAnswer)) (call : StoreCall)
    (answer : StoreAnswer) :
    performedCalls (log ++ [(client, call, answer)]) = performedCalls log ++ [call] := by
  simp [performedCalls]

theorem perform_keeps (faithful : Faithful represents backend) (bounded : Bounded start)
    (made : ∀ client, Made (calls client)) (inStep : InStep represents start calls system)
    {call : StoreCall} {next : StoreAnswer → Turn} {answer : StoreAnswer} {store : Store}
    (acts : serverAction (system.links client).server = .perform call next)
    (ran : backend call system.store = some (answer, store)) :
    InStep represents start calls
      { store := store
        links := Function.update system.links client { system.links client with server := next answer }
        log := system.log ++ [(client, call, answer)] } := by
  have session := session_of_made (made client)
  obtain ⟨⟨driverCall, accepted⟩, goesOn⟩ := @stage_perform (calls client ++ [.close])
    (logOf client system.log) (system.links client) call next answer session (inStep.staged client) acts
  obtain ⟨_, related, rfl, rfl⟩ := allows_of_ensures (faithful _ call) _ inStep.stored _ _ ran
  have sensible := accepted_sensible accepted (replay_bounded bounded inStep.accepted)
  have replayed : replay start (performedCalls system.log ++ [call]) =
      call.apply (replay start (performedCalls system.log)) := replay_append _ _ _
  constructor
  · rw [performed_calls_append, replayed]
    exact related
  · rw [List.map_append, answered_append]
    exact ⟨inStep.answered, rfl, trivial⟩
  · rw [performed_calls_append]
    intro other member
    rcases List.mem_append.mp member with old | new
    · exact inStep.accepted other old
    · rw [List.mem_singleton.mp new]
      exact ⟨driverCall, accepted⟩
  · intro other
    by_cases same : other = client
    · subst same
      rw [log_of_own]
      simp only [Function.update_self]
      exact goesOn sensible
    · rw [log_of_other _ same]
      simp only [Function.update_of_ne same]
      exact inStep.staged other

theorem step_keeps (faithful : Faithful represents backend) (bounded : Bounded start)
    (made : ∀ client, Made (calls client))
    (inStep : InStep represents start calls system) (step : SystemStep backend system after) :
    InStep represents start calls after := by
  cases step with
  | link client step =>
      refine ⟨inStep.stored, inStep.answered, inStep.accepted, fun other => ?_⟩
      by_cases same : other = client
      · subst same
        simp only [Function.update_self]
        exact stage_step (session_of_made (made other)) (inStep.staged other) step
      · simp only [Function.update_of_ne same]
        exact inStep.staged other
  | perform client acts ran => exact perform_keeps faithful bounded made inStep acts ran

theorem run_keeps (faithful : Faithful represents backend) (bounded : Bounded start)
    (made : ∀ client, Made (calls client))
    (inStep : InStep represents start calls system)
    (run : Relation.ReflTransGen (SystemStep backend) system after) :
    InStep represents start calls after := by
  induction run with
  | refl => exact inStep
  | tail _ step ih => exact step_keeps faithful bounded made ih step

theorem started_in_step {store : Store} (related : represents start store) :
    InStep represents start calls (System.started store calls) := by
  refine ⟨related, trivial, by simp [System.started, performedCalls], fun client => ?_⟩
  refine .answering [] (calls client ++ [.close]) rfl (by simp) rfl ⟨rfl, [], ?_, .here _⟩
  rw [restingTurn, if_neg (by simp)]
  exact .here _

theorem link_run_lifts (backend : StoreCall → Program Store StoreAnswer) {before link : Connection}
    (here : system.links client = before)
    (run : Relation.ReflTransGen (LinkStep driverAction serverAction) before link) :
    Relation.ReflTransGen (SystemStep backend) system
      { system with links := Function.update system.links client link } := by
  induction run with
  | refl =>
      rw [← here, Function.update_eq_self]
  | @tail middle final _ step ih =>
      have next : SystemStep backend { system with links := Function.update system.links client middle }
          { system with links := Function.update (Function.update system.links client middle) client final } :=
        .link client (by simpa using step)
      rw [Function.update_idem] at next
      exact ih.tail next

theorem decided_completes (faithful : Faithful represents backend) (bounded : Bounded start)
    (made : ∀ client, Made (calls client)) (inStep : InStep represents start calls system)
    {call : DriverCall} {remaining : List DriverCall} {outcomes : List Outcome}
    (here : system.links client =
      ⟨⟨some (DriverCall.awaiting call), remaining, outcomes⟩, DriverCall.deciding call, [], []⟩) :
    ∃ final returned, Relation.ReflTransGen (SystemStep backend) system final ∧
      InStep represents start calls final ∧
      final.links client = ⟨⟨none, remaining, returned⟩, DriverCall.idle call, [], []⟩ := by
  have waiting : Crossed driverAction (⟨some (DriverCall.awaiting call), remaining, outcomes⟩ : DriverState) []
      ⟨some (DriverCall.awaiting call), remaining, outcomes⟩ := ⟨rfl, .here _⟩
  cases asked : DriverCall.storeCall call with
  | none =>
      obtain ⟨bytes, next, sends, goesOn, reads⟩ := server_refuses asked
      have sent : LinkStep driverAction serverAction
          ⟨⟨some (DriverCall.awaiting call), remaining, outcomes⟩, DriverCall.deciding call, [], []⟩
          ⟨⟨some (DriverCall.awaiting call), remaining, outcomes⟩, next, [], [] ++ bytes⟩ :=
        .serverSend sends
      have completes := answering_completes (answering_begins waiting goesOn (by simpa using reads))
      have run := link_run_lifts backend here (completes.head sent)
      exact ⟨_, _, run, run_keeps faithful bounded made inStep run, Function.update_self _ _ _⟩
  | some storeCall =>
      obtain ⟨next, performs, replies⟩ := server_performs asked
      obtain ⟨answer, store, _, ran, _, rfl, rfl⟩ := faithful _ storeCall _ inStep.stored
      obtain ⟨reply, sends, reads⟩ := replies _ (accepted_sensible asked (replay_bounded bounded inStep.accepted))
      have performed := SystemStep.perform client (show serverAction (system.links client).server =
        .perform storeCall next by rw [here]; exact performs) ran
      rw [here] at performed
      have crosses : Consumes driverAction ⟨some (DriverCall.awaiting call), remaining, outcomes⟩
          ([] ++ reply) ⟨none, remaining, outcomes ++ [_]⟩ := reads
      have completes := answering_completes (answering_begins waiting sends crosses)
      have run := (link_run_lifts backend (Function.update_self _ _ _) completes).head performed
      exact ⟨_, _, run, run_keeps faithful bounded made inStep run, Function.update_self _ _ _⟩

theorem resting_completes (faithful : Faithful represents backend) (bounded : Bounded start)
    (made : ∀ client, Made (calls client)) {remaining : List DriverCall} {outcomes : List Outcome}
    (inStep : InStep represents start calls system)
    (here : system.links client = ⟨⟨none, remaining, outcomes⟩, restingTurn remaining, [], []⟩) :
    ∃ final, Relation.ReflTransGen (SystemStep backend) system final ∧
      (final.links client).client.running = none ∧ (final.links client).client.remaining = [] := by
  induction remaining generalizing system outcomes with
  | nil => exact ⟨system, .refl, by rw [here], by rw [here]⟩
  | cons call remaining ih =>
      obtain ⟨history, settled⟩ := stage_settled (inStep.staged client) (by rw [here])
      have session := session_of_made (made client)
      have split : calls client ++ [.close] = history.map Exchange.call ++ call :: remaining := by
        rw [settled.split, here]
      have fits := session.fits call (by simp [split])
      have begins : LinkStep driverAction serverAction
          ⟨⟨none, call :: remaining, outcomes⟩, restingTurn (call :: remaining), [], []⟩
          ⟨⟨some call.script, remaining, outcomes⟩, restingTurn (call :: remaining), [], []⟩ :=
        .clientPass rfl
      have asking : Asking driverAction serverAction
          ⟨⟨some call.script, remaining, outcomes⟩, restingTurn (call :: remaining), [], []⟩
          ⟨some (DriverCall.awaiting call), remaining, outcomes⟩ (DriverCall.deciding call) :=
        ⟨rfl, DriverCall.request call, driver_asks fits, server_reads_request fits⟩
      have run := link_run_lifts backend here ((asking_completes asking).head begins)
      obtain ⟨middle, returned, onward, inStepThere, there⟩ := decided_completes faithful bounded made
        (run_keeps faithful bounded made inStep run) (Function.update_self _ _ _)
      rw [idle_eq_resting session split] at there
      obtain ⟨final, last, done⟩ := ih inStepThere there
      exact ⟨final, (run.trans onward).trans last, done⟩

theorem in_step_completes (faithful : Faithful represents backend) (bounded : Bounded start)
    (made : ∀ client, Made (calls client)) (inStep : InStep represents start calls system)
    (client : Client) :
    ∃ final, Relation.ReflTransGen (SystemStep backend) system final ∧
      (final.links client).client.running = none ∧ (final.links client).client.remaining = [] := by
  cases inStep.staged client with
  | answering history remaining split proper logged crossing =>
      have run := link_run_lifts backend rfl (answering_completes crossing)
      obtain ⟨final, onward, done⟩ := resting_completes faithful bounded made
        (run_keeps faithful bounded made inStep run) (Function.update_self _ _ _)
      exact ⟨final, run.trans onward, done⟩
  | asking history call remaining split proper logged within crossing =>
      have run := link_run_lifts backend rfl (asking_completes crossing)
      obtain ⟨middle, returned, onward, inStepThere, there⟩ := decided_completes faithful bounded made
        (run_keeps faithful bounded made inStep run) (Function.update_self _ _ _)
      rw [idle_eq_resting (session_of_made (made client)) split] at there
      obtain ⟨final, last, done⟩ := resting_completes faithful bounded made inStepThere there
      exact ⟨final, (run.trans onward).trans last, done⟩

/-- In every state of every run the store is the map that the calls performed so far have made, and
they were answered from it; whenever a client stands between two calls, everything that was sent has
been read and every call that returned did what it stands for; the calls performed for a client are
the first ones it made, in its order; and each client can make all the calls it has left. -/
theorem system_in_step (faithful : Faithful represents backend) {store : Store}
    (related : represents start store) (bounded : Bounded start) (made : ∀ client, Made (calls client))
    (run : Relation.ReflTransGen (SystemStep backend) (System.started store calls) system) :
    represents (replay start (performedCalls system.log)) system.store ∧
      Answered start (system.log.map Prod.snd) ∧
      ∀ client, ((system.links client).client.running = none → ∃ history,
          Settled (calls client ++ [.close]) (logOf client system.log) (system.links client) history) ∧
        (logOf client system.log).map Prod.fst <+: (calls client).filterMap DriverCall.storeCall ∧
        ∃ final, Relation.ReflTransGen (SystemStep backend) system final ∧
          (final.links client).client.running = none ∧ (final.links client).client.remaining = [] := by
  have inStep := run_keeps faithful bounded made (started_in_step related) run
  refine ⟨inStep.stored, inStep.answered, fun client => ⟨?_, ?_, ?_⟩⟩
  · exact stage_settled (inStep.staged client)
  · have ordered := stage_ordered (inStep.staged client)
    rwa [List.filterMap_append, show [DriverCall.close].filterMap DriverCall.storeCall = [] from rfl,
      List.append_nil] at ordered
  · exact in_step_completes faithful bounded made inStep client

theorem log_of_split (front rest : List (Client × StoreCall × StoreAnswer)) (client : Client)
    (entry : StoreCall × StoreAnswer) :
    logOf client (front ++ (client, entry) :: rest) = logOf client front ++ entry :: logOf client rest := by
  rw [logOf, List.filterMap_append]
  exact congrArg (logOf client front ++ ·) (log_of_cons_own rest client entry)

theorem proper_get {exchange : Exchange} {key : Bytes} (proper : exchange.Proper)
    (looked : exchange.call = .get key) (short : key.length ≤ maxStrLen) :
    ∃ answer, exchange.performed = some (.get key maxStrLen, answer) ∧
      exchange.outcome = DriverCall.lookedUp answer := by
  obtain ⟨call, performed, outcome⟩ := exchange
  obtain ⟨asked, returned⟩ := proper
  cases looked
  have accepted : DriverCall.storeCall (.get key) = some (.get key maxStrLen) :=
    if_neg (Nat.not_lt.mpr short)
  rw [accepted] at asked
  obtain ⟨⟨call, answer⟩, rfl, same⟩ := Option.map_eq_some_iff.mp asked
  cases same
  refine ⟨answer, rfl, returned.trans ?_⟩
  rw [DriverCall.outcome, if_neg (Nat.not_lt.mpr short)]
  rfl

/-- Nothing between a `set` and a lookup of the same key is about binding the key. -/
def Untouched (key : Bytes) (log : List (Client × StoreCall × StoreAnswer)) : Prop :=
  ∀ entry ∈ log, (∀ value, entry.2.1 ≠ .set key value) ∧ entry.2.1 ≠ .del key

omit [DecidableEq Client] in
theorem lookup_answer {setter getter : Client} {key value : Bytes} {answer found : StoreAnswer}
    {front middle rest : List (Client × StoreCall × StoreAnswer)} (bounded : Bounded start)
    (answered : Answered start (system.log.map Prod.snd))
    (accepted : ∀ storeCall ∈ performedCalls system.log, ∃ call, DriverCall.storeCall call = some storeCall)
    (logged : system.log = (front ++ (setter, .set key value, answer) :: middle) ++
      (getter, .get key maxStrLen, found) :: rest)
    (untouched : Untouched key middle) : found = some (value.length, value) := by
  let before := performedCalls (front ++ (setter, .set key value, answer) :: middle)
  have kept : replay start before key = some value := by
    have shape : before = performedCalls front ++ .set key value :: performedCalls middle := by
      simp [before, performedCalls]
    rw [shape, replay_append, replay, replay_untouched]
    · exact Function.update_self _ _ _
    · intro call member
      rw [performedCalls, List.map_map] at member
      obtain ⟨other, there, rfl⟩ := List.mem_map.mp member
      exact untouched other there
  have small : value.length ≤ maxStrLen := by
    refine replay_bounded bounded (fun storeCall member => accepted storeCall ?_) key value kept
    rw [logged, performedCalls, List.map_append, List.map_append]
    exact List.mem_append_left _ member
  rw [logged, List.map_append, answered_append] at answered
  have fromMap : found = (replay start before key).map fun value => (value.length, value.take maxStrLen) :=
    answered.2.1
  rwa [kept, Option.map_some, List.take_of_length_le small] at fromMap

theorem lookup_outcome (bounded : Bounded start) (inStep : InStep represents start calls system)
    {setter getter : Client} {key value : Bytes} {answer found : StoreAnswer}
    {front middle rest : List (Client × StoreCall × StoreAnswer)}
    {earlier later : List Exchange} {exchange : Exchange} (short : key.length ≤ maxStrLen)
    (settled : Settled (calls getter ++ [.close]) (logOf getter system.log) (system.links getter)
      (earlier ++ exchange :: later))
    (looked : exchange.call = .get key)
    (logged : system.log = (front ++ (setter, .set key value, answer) :: middle) ++
      (getter, .get key maxStrLen, found) :: rest)
    (which : logOf getter (front ++ (setter, .set key value, answer) :: middle) =
      earlier.filterMap Exchange.performed)
    (untouched : Untouched key middle) : exchange.outcome = .found (cString value) := by
  obtain ⟨served, performed, returned⟩ := proper_get (settled.proper exchange (by simp)) looked short
  have same := settled.logged
  rw [logged, log_of_split, which, List.filterMap_append, List.filterMap_cons_some performed,
    List.append_cancel_left_eq, List.cons.injEq, Prod.mk.injEq] at same
  rw [returned, ← same.1.2, lookup_answer bounded inStep.answered inStep.accepted logged untouched]
  rfl

/-- A value survives exactly when it has no zero byte: the driver reads the reply as a C string. -/
theorem c_string_eq_iff (value : Bytes) : cString value = value ↔ 0 ∉ value := by
  rw [cString, List.takeWhile_eq_self_iff]
  constructor
  · intro all member
    exact absurd rfl (of_decide_eq_true (all 0 member))
  · intro absent byte member
    apply decide_eq_true
    rintro rfl
    exact absent member

/-- The value that comes back is the one that was set exactly when it has no zero byte. -/
theorem system_round_trip (faithful : Faithful represents backend) {store : Store}
    (related : represents start store) (bounded : Bounded start) (made : ∀ client, Made (calls client))
    (run : Relation.ReflTransGen (SystemStep backend) (System.started store calls) system)
    {setter getter : Client} {key value : Bytes} {answer found : StoreAnswer}
    {front middle rest : List (Client × StoreCall × StoreAnswer)}
    {earlier later : List Exchange} {exchange : Exchange} (short : key.length ≤ maxStrLen)
    (settled : Settled (calls getter ++ [.close]) (logOf getter system.log) (system.links getter)
      (earlier ++ exchange :: later))
    (looked : exchange.call = .get key)
    (logged : system.log = (front ++ (setter, .set key value, answer) :: middle) ++
      (getter, .get key maxStrLen, found) :: rest)
    (which : logOf getter (front ++ (setter, .set key value, answer) :: middle) =
      earlier.filterMap Exchange.performed)
    (untouched : Untouched key middle) : exchange.outcome = .found value ↔ 0 ∉ value := by
  have inStep := run_keeps faithful bounded made (started_in_step related) run
  rw [lookup_outcome bounded inStep short settled looked logged which untouched, Outcome.found.injEq]
  exact c_string_eq_iff value

def setThenGet (key value : Bytes) : List DriverCall := [.set key value, .get key]

theorem set_then_get_made {key value : Bytes} (short : key.length ≤ maxStrLen)
    (valueShort : value.length ≤ maxStrLen) : Made (setThenGet key value) := by
  have keyFits : key.length ≤ 1024 := short
  have valueFits : value.length ≤ 1024 := valueShort
  intro call member
  simp only [setThenGet, List.mem_cons, List.not_mem_nil, or_false] at member
  rcases member with rfl | rfl
  · exact ⟨⟨by omega, by omega⟩, by simp⟩
  · exact ⟨show key.length ≤ 2 ^ 31 - 2 by omega, by simp⟩

theorem log_of_only (log : List (Unit × StoreCall × StoreAnswer)) : logOf () log = log.map Prod.snd := by
  rw [logOf, ← List.filterMap_eq_map]
  exact List.filterMap_congr fun entry _ => if_pos rfl

theorem set_then_get (faithful : Faithful represents backend) {store : Store}
    (related : represents start store) (bounded : Bounded start) {key value : Bytes}
    (short : key.length ≤ maxStrLen) (valueShort : value.length ≤ maxStrLen) :
    ∃ (system : System Unit Store) (answer found : StoreAnswer) (earlier later : List Exchange)
        (exchange : Exchange),
      Relation.ReflTransGen (SystemStep backend) (System.started store fun _ => setThenGet key value) system ∧
        Settled (setThenGet key value ++ [.close]) (logOf () system.log) (system.links ())
          (earlier ++ exchange :: later) ∧
        exchange.call = .get key ∧
        system.log = ([] ++ ((), .set key value, answer) :: []) ++ ((), .get key maxStrLen, found) :: [] ∧
        logOf () (([] : List (Unit × StoreCall × StoreAnswer)) ++ ((), .set key value, answer) :: []) =
          earlier.filterMap Exchange.performed ∧
        exchange.outcome = .found (cString value) := by
  have made : ∀ client : Unit, Made (setThenGet key value) := fun _ => set_then_get_made short valueShort
  obtain ⟨system, run, returned, all⟩ := in_step_completes faithful bounded made (started_in_step related) ()
  have inStep := run_keeps faithful bounded made (started_in_step related) run
  obtain ⟨history, settled⟩ := stage_settled (inStep.staged ()) returned
  have split := settled.split
  rw [all, List.append_nil] at split
  obtain ⟨first, history, rfl, firstCall, split⟩ := List.map_eq_cons_iff.mp split.symm
  obtain ⟨second, history, rfl, secondCall, split⟩ := List.map_eq_cons_iff.mp split
  obtain ⟨third, history, rfl, thirdCall, split⟩ := List.map_eq_cons_iff.mp split
  obtain rfl := List.map_eq_nil_iff.mp split
  have firstProper := settled.proper first (by simp)
  have thirdProper := settled.proper third (by simp)
  obtain ⟨found, looked, _⟩ := proper_get (settled.proper second (by simp)) secondCall short
  have asked := firstProper.asked
  rw [firstCall, DriverCall.storeCall, if_neg (Nat.not_lt.mpr short), if_neg (Nat.not_lt.mpr valueShort)] at asked
  obtain ⟨⟨call, answer⟩, performed, same⟩ := Option.map_eq_some_iff.mp asked
  obtain rfl : call = .set key value := same
  have unasked := thirdProper.asked
  rw [thirdCall, DriverCall.storeCall, Option.map_eq_none_iff] at unasked
  have logged := settled.logged
  rw [log_of_only] at logged
  simp only [List.filterMap_cons, performed, looked, unasked, List.filterMap_nil] at logged
  have shape : system.log = ([] ++ ((), .set key value, answer) :: []) ++ ((), .get key maxStrLen, found) :: [] := by
    have untagged : ∀ log : List (Unit × StoreCall × StoreAnswer),
        (log.map Prod.snd).map (Prod.mk ()) = log := by
      intro log
      rw [List.map_map]
      exact List.map_id log
    rw [← untagged system.log, logged]
    rfl
  have which : logOf () (([] : List (Unit × StoreCall × StoreAnswer)) ++ ((), .set key value, answer) :: []) =
      [first].filterMap Exchange.performed := by
    simp [log_of_only, performed]
  refine ⟨system, answer, found, [first], [third], second, run, settled, secondCall, shape, which, ?_⟩
  exact lookup_outcome bounded inStep short settled secondCall shape which (by simp [Untouched])

end Runs

end MyJQL.ServerSystem
