import MyJQL.DriverSessions
import MyJQL.PacedService
import MyJQL.ShellSessions

/-!
# Shells, the server and one map

Every client of the server is a shell. What the lines of a shell ask for is sent to the server as the bytes of
the driver, one call when the calls before it have returned, and what is printed is what the replies say. So
every shell comes to its end, and everything that is printed anywhere is explained by one map.
-/

namespace MyJQL.ShellService

open MyJQL.FairRuns
open MyJQL.StateProgram
open MyJQL.KeyValueStore
open MyJQL.ServerModel
open MyJQL.ServerProtocol
open MyJQL.ServerSystem
open MyJQL.ServerThreads
open MyJQL.ThreadSafety
open MyJQL.RequestService
open MyJQL.ClientService
open MyJQL.ThreadProgress
open MyJQL.ConnectionEnd
open MyJQL.DriverCalls
open MyJQL.DriverSessions
open MyJQL.ServiceLiveness
open MyJQL.PacedService
open MyJQL.ShellInput
open MyJQL.ShellCommands
open MyJQL.ShellSessions
open MyJQL.TextWords

set_option autoImplicit false

def asked : List Bytes → List DriverCall
  | [] => []
  | line :: lines =>
      match meaning line with
      | .leave => [.close]
      | .call call => call :: asked lines
      | _ => asked lines

/-- What is printed when the calls end with these reports, and how the session ends. -/
def printed : List Bytes → List Report → Bytes × Ending
  | [], _ => (prompt, .exited)
  | line :: lines, reports =>
      match meaning line with
      | .leave => (prompt ++ ascii "bye~\n", .left)
      | .call call =>
          let rest := printed lines reports.tail
          (prompt ++ (reports.head?.elim [] (answerText call)) ++ rest.1, rest.2)
      | refused =>
          let rest := printed lines reports
          (prompt ++ refusal refused ++ rest.1, rest.2)

section Asked

variable {found : List Bytes} {line : Bytes} {lines : List Bytes} {call : DriverCall}

/-- The call can be sent, and its texts are words. -/
structure Worded (call : DriverCall) : Prop where
  fits : DriverCall.Fits call
  last : ¬Request.LastEmpty (.call call)
  value : ∀ key, call ≠ .set key []

theorem words_call (short : ∀ word ∈ found, word.length ≤ 2 ^ 31 - 2 ∧ word ≠ [])
    (means : wordsMeaning found = .call call) : Worded call ∧ call ≠ .close := by
  cases found with
  | nil => cases means
  | cons command arguments =>
      rw [wordsMeaning.eq_def] at means
      dsimp only at means
      split_ifs at means
      · rcases arguments with _ | ⟨key, others⟩ <;> cases means
        obtain ⟨fits, some⟩ := short key (by simp)
        exact ⟨⟨fits, some, by simp⟩, by simp⟩
      · rcases arguments with _ | ⟨key, _ | ⟨value, others⟩⟩ <;> cases means
        obtain ⟨fits, some⟩ := short value (by simp)
        exact ⟨⟨⟨(short key (by simp)).1, fits⟩, some, by simpa using some⟩, by simp⟩
      · rcases arguments with _ | ⟨key, others⟩ <;> cases means
        obtain ⟨fits, some⟩ := short key (by simp)
        exact ⟨⟨fits, some, by simp⟩, by simp⟩

theorem meaning_call (means : meaning line = .call call) : Worded call ∧ call ≠ .close := by
  rw [meaning] at means
  split_ifs at means with long
  refine words_call (fun word member => ⟨?_, words_some member⟩) means
  have inside := words_length space (cString line) word member
  have front := (List.takeWhile_prefix (l := line) (· ≠ 0)).length_le
  have least : line.length ≤ 1024 := Nat.not_lt.mp long
  exact (inside.trans front).trans (least.trans (by decide))

theorem close_worded : Worded .close := ⟨trivial, not_false, by simp⟩

theorem asked_worded : ∀ call ∈ asked lines, Worded call := by
  induction lines with
  | nil => exact fun _ member => absurd member List.not_mem_nil
  | cons line lines ih =>
      rw [asked]
      cases means : meaning line with
      | leave =>
          intro call member
          rw [List.mem_singleton.mp member]
          exact close_worded
      | call first =>
          intro call member
          rcases List.mem_cons.mp member with rfl | behind
          · exact (meaning_call means).1
          · exact ih call behind
      | tooLong | invalidInput | invalidCommand => exact ih

theorem asked_closes : Request.call .close ∉ ((asked lines).map Request.call).dropLast := by
  induction lines with
  | nil => exact List.not_mem_nil
  | cons line lines ih =>
      rw [asked]
      cases means : meaning line with
      | leave => exact List.not_mem_nil
      | call first =>
          intro member
          rw [List.map_cons] at member
          cases others : (asked lines).map Request.call with
          | nil =>
              rw [others] at member
              cases member
          | cons request requests =>
              rw [others, List.dropLast_cons_cons, List.mem_cons] at member
              rw [others] at ih
              rcases member with same | behind
              · exact (meaning_call means).2 (Request.call.inj same).symm
              · exact ih behind
      | tooLong | invalidInput | invalidCommand => exact ih

end Asked

section Reports

variable {Client : Type} (client : DriverCall → Program Client Report)

def reportsOf : List DriverCall → Program Client (List Report)
  | [] => pure []
  | call :: calls => do
      let report ← client call
      let reports ← reportsOf calls
      pure (report :: reports)

theorem interpret_reports (lines : List Bytes) : interpret client lines = (do
    let reports ← reportsOf client (asked lines)
    pure (printed lines reports)) := by
  induction lines with
  | nil => rfl
  | cons line lines ih =>
      rw [interpret, asked]
      by_cases leaves : meaning line = .leave
      · rw [if_pos leaves, leaves]
        simp only [reportsOf, bind_assoc, pure_bind, printed, leaves]
      · rw [if_neg leaves, ih]
        cases means : meaning line with
        | leave => exact absurd means leaves
        | call call => simp only [shown, reportsOf, bind_assoc, pure_bind, printed, means, List.head?_cons,
            List.tail_cons, Option.elim_some]
        | tooLong | invalidInput | invalidCommand => simp only [shown, pure_bind, bind_assoc, printed, means]

end Reports

/-- The bytes that a client has sent, and those that are there for it. -/
structure Socket where
  sent : Bytes
  stream : Bytes

def socketClient (network : Network) (call : DriverCall) : Program Socket Report := fun socket =>
  ((conversation call).run network 0 socket.stream).map fun outcome =>
    (outcome.1, ⟨socket.sent ++ outcome.2.1, outcome.2.2⟩)

inductive Mute : Conversation → Prop
  | finish (report : Report) : Mute (.finish report)
  | undefined : Mute .undefined
  | recv {buffer : Bytes} {count : Int} {next : Bytes → Int → Conversation}
      (behind : ∀ bytes code, Mute (next bytes code)) : Mute (.recv buffer count next)
  | recvNull {next : Int → Conversation} (behind : ∀ code, Mute (next code)) : Mute (.recvNull next)
  | malloc {length : Int} {next : Option Bytes → Conversation} (behind : ∀ buffer, Mute (next buffer)) :
      Mute (.malloc length next)
  | shutdown {next : Int → Conversation} (behind : ∀ code, Mute (next code)) : Mute (.shutdown next)

section Sending

variable {network : Network} {next : Conversation} {turn : Nat} {stream bytes sent rest : Bytes} {report : Report}
  {code : Int} {call : DriverCall}

theorem mute_sends (mute : Mute next) (ran : next.run network turn stream = some (report, sent, rest)) : sent = [] := by
  induction mute generalizing turn stream with
  | finish report =>
      cases ran
      rfl
  | undefined => cases ran
  | recv behind ih =>
      rw [Conversation.run] at ran
      split_ifs at ran
      · exact ih _ _ ran
      · obtain ⟨taken, _, ran⟩ := Option.bind_eq_some_iff.mp ran
        split_ifs at ran
        exact ih _ _ ran
  | recvNull behind ih =>
      rw [Conversation.run] at ran
      split_ifs at ran <;> exact ih _ ran
  | malloc behind ih =>
      rw [Conversation.run] at ran
      exact ih _ ran
  | shutdown behind ih =>
      rw [Conversation.run] at ran
      exact ih _ ran

theorem mute_recv {buffer : Bytes} {count : Int} {next : Bytes → Int → Conversation}
    (behind : ∀ bytes code, Mute (next bytes code)) : Mute (recvInto buffer count next) := by
  refine .recv fun bytes iResult => ?_
  split_ifs
  · exact .finish _
  · exact behind _ _

theorem mute_take (buf : Bytes) (code : Int) : Mute (takeValue buf code) := by
  rw [takeValue]
  split_ifs
  · exact .finish _
  · exact .undefined

theorem mute_value (code : Int) : Mute (recvValue code) := by
  refine .malloc fun buffer => ?_
  cases buffer with
  | some buf =>
      refine mute_recv fun buf iResult => ?_
      split_ifs
      · exact .finish _
      · exact mute_take _ _
  | none =>
      refine .recvNull fun iResult => ?_
      split_ifs
      · exact .finish _
      · exact .finish _
      · exact mute_take _ _

theorem mute_reply (call : DriverCall) (code : Int) : Mute (afterReply call code) := by
  cases call with
  | get key =>
      rw [afterReply, replyToGet]
      split_ifs
      · exact .finish _
      · exact mute_recv fun bytes _ => mute_value _
      · exact .finish _
      · exact .finish _
  | set key value =>
      rw [afterReply, replyToSet]
      split_ifs <;> exact .finish _
  | del key =>
      rw [afterReply, replyToDel]
      split_ifs <;> exact .finish _
  | close => exact .finish _

/-- These bytes are sent on a network that holds, and nothing else. -/
def Sends (next : Conversation) (bytes : Bytes) : Prop :=
  ∀ network : Network, network.Calm → ∀ turn stream report sent rest,
    next.run network turn stream = some (report, sent, rest) → sent = bytes

theorem sends_mute (mute : Mute next) : Sends next [] := fun _ _ _ _ _ _ _ ran => mute_sends mute ran

theorem sends_send {buffer first : Bytes} {count : Int} {next : Int → Conversation}
    (whole : bufferPrefix buffer count = some first) (behind : Sends (next first.length) bytes) :
    Sends (.send buffer count next) (first ++ bytes) := by
  intro network calm turn stream report sent rest ran
  rw [Conversation.run, calm turn, if_neg (by simp), whole, Option.bind_eq_bind, Option.bind_some] at ran
  obtain ⟨⟨report', sent', rest'⟩, later, same⟩ := Option.bind_eq_some_iff.mp ran
  cases same
  rw [behind network calm _ _ _ _ _ later]

theorem sends_from {buffer first : Bytes} {count : Int} (whole : bufferPrefix buffer count = some first)
    (behind : Sends next bytes) : Sends (sendFrom buffer count next) (first ++ bytes) := by
  refine sends_send whole ?_
  rw [if_neg (counted first)]
  exact behind

theorem sends_code (behind : Sends next bytes) : Sends (DriverCalls.sendCode code next) (intBytes code ++ bytes) :=
  sends_from (code_whole code) behind

theorem sends_text {text : Bytes} (small : text.length ≤ 2 ^ 31 - 2) (behind : Sends next bytes) :
    Sends (sendText text next) (intBytes text.length ++ (text ++ bytes)) := by
  have size : asInt text.length = text.length := as_int_small (by omega)
  have whole := text_whole (Nat.lt_of_le_of_lt small (by decide))
  rw [size] at whole
  rw [sendText, size]
  exact sends_code (sends_from whole behind)

theorem call_sends (fits : DriverCall.Fits call) : Sends (conversation call) (DriverCall.request call) := by
  have reply : ∀ size, Sends (DriverCalls.recvCode size (afterReply call)) [] := fun size =>
    sends_mute (mute_recv fun bytes _ => mute_reply call _)
  cases call with
  | get key => exact sends_code (sends_text fits (reply _))
  | set key value => exact sends_code (sends_text fits.1 (sends_text fits.2 (reply _)))
  | del key => exact sends_code (sends_text fits (reply _))
  | close =>
      refine sends_send rfl ?_
      rw [if_neg (counted _)]
      refine sends_mute (.recv fun bytes iResult => ?_)
      split_ifs
      · exact .finish _
      · exact .shutdown fun _ => .finish _

end Sending

section Arrived

variable {network : Network} {calls : List DriverCall} {served : List Served} {call : DriverCall}
  {answer : StoreAnswer} {sent rest : Bytes}

def truth (call : DriverCall) (answer : StoreAnswer) : Report := .outcome (DriverCall.outcome call answer)

/-- The reply to the request is understood, and no byte has to come behind it. -/
structure Legible (entry : Served) : Prop where
  answerable : Answerable entry
  filled : ∀ call, entry.1 = .call call → ¬EmptyValue call entry.2

theorem call_answered (calm : network.Calm) (whole : network.Whole) (fits : DriverCall.Fits call)
    (legible : Legible (.call call, answer)) :
    socketClient network call ⟨sent, callReply call answer ++ rest⟩ =
      some (truth call answer, ⟨sent ++ DriverCall.request call, rest⟩) := by
  obtain ⟨bytes, ran⟩ := answered_whole whole calm fits legible.answerable (.inr (.inr (legible.filled call rfl)))
  rw [socketClient]
  dsimp only
  rw [ran, ← call_sends fits network calm _ _ _ _ _ ran]
  rfl

theorem calls_answered (calm : network.Calm) (whole : network.Whole) (fits : ∀ call ∈ calls, DriverCall.Fits call)
    (legible : ∀ entry ∈ served, Legible entry) (same : served.map Prod.fst = calls.map .call) :
    reportsOf (socketClient network) calls ⟨sent, repliesTo served⟩ =
      some (List.zipWith truth calls (served.map Prod.snd), ⟨sent ++ streamOf (calls.map .call), []⟩) := by
  induction calls generalizing served sent with
  | nil =>
      obtain rfl := List.map_eq_nil_iff.mp same
      change some ([], Socket.mk sent []) = some ([], ⟨sent ++ [], []⟩)
      rw [List.append_nil]
  | cons call calls ih =>
      cases served with
      | nil => cases same
      | cons entry served =>
          obtain ⟨request, answer⟩ := entry
          obtain ⟨rfl, behind⟩ := List.cons_eq_cons.mp same
          have first : socketClient network call ⟨sent, repliesTo ((.call call, answer) :: served)⟩ =
              some (truth call answer, ⟨sent ++ DriverCall.request call, repliesTo served⟩) :=
            call_answered calm whole (fits call List.mem_cons_self) (legible _ List.mem_cons_self)
          have later := @ih served (sent ++ DriverCall.request call)
            (fun other member => fits other (List.mem_cons_of_mem _ member))
            (fun other member => legible other (List.mem_cons_of_mem _ member)) behind
          rw [reportsOf, bind_ran first, bind_ran later, List.append_assoc]
          rfl

end Arrived

section Shells

variable {Client Store : Type} [DecidableEq Client] {represents : Bindings → Store → Prop}
  {backend : StoreCall → Program Store StoreAnswer} {start : Bindings} {store : Store}

def requestsOf (lines : List Bytes) : List Request := (asked lines).map .call

/-- The first calls of a client have returned when this is what was replied to it. -/
def Returned (network : Network) (calls : Client → List DriverCall) (client : Client) (count : Nat)
    (replied : Bytes) : Prop :=
  (reportsOf (socketClient network) ((calls client).take count) ⟨[], replied⟩).isSome

instance (network : Network) (calls : Client → List DriverCall) (client : Client) (count : Nat) (replied : Bytes) :
    Decidable (Returned network calls client count replied) := inferInstanceAs (Decidable (_ = true))

variable {server : Server Client Store} {lines : Client → List Bytes} {client : Client} {served : List Served}

omit [DecidableEq Client] in
theorem shell_fits (client : Client) : ∀ request ∈ requestsOf (lines client), request.Fits := by
  intro request member
  obtain ⟨call, made, rfl⟩ := List.mem_map.mp member
  exact (asked_worded call made).fits

theorem set_stored {call : DriverCall} {key value : Bytes}
    (stores : DriverCall.storeCall call = some (.set key value)) : call = .set key value := by
  cases call with
  | set other text =>
      rw [DriverCall.storeCall] at stores
      split_ifs at stores
      cases stores
      rfl
  | get other | del other =>
      rw [DriverCall.storeCall] at stores
      split_ifs at stores
      cases stores
  | close => cases stores

theorem shell_stores_some
    (serving : ∀ client, ∃ served, Serving False (requestsOf (lines client)) [] server client served)
    {key value : Bytes} (performed : .set key value ∈ (storeLog server.trace).map Prod.fst) : value ≠ [] := by
  obtain ⟨⟨call, answer⟩, logged, rfl⟩ := List.mem_map.mp performed
  obtain ⟨⟨client, index, _, _⟩, operation, same⟩ := List.mem_map.mp logged
  obtain ⟨rfl, rfl⟩ := Prod.mk.inj same
  obtain ⟨served, serving⟩ := serving client
  have own := Linearization.operations_of_member.mpr operation
  rw [serving.performed] at own
  obtain ⟨request, found, stores⟩ := Linearization.performed_by_member.mp own
  have member : request ∈ requestsOf (lines client) :=
    (serving_shorter serving).subset (List.mem_map.mpr ⟨_, List.mem_of_getElem? found, rfl⟩)
  obtain ⟨call, made, rfl⟩ := List.mem_map.mp member
  rintro rfl
  exact (asked_worded call made).value key (set_stored stores)

/-- What the server replies to shells is understood. -/
theorem shell_legible (bounded : Bounded start) (some : ∀ key, start key ≠ some [])
    (stored : Stored represents start server)
    (serving : ∀ client, ∃ served, Serving False (requestsOf (lines client)) [] server client served)
    (here : Serving False (requestsOf (lines client)) [] server client served) : ∀ entry ∈ served, Legible entry := by
  intro entry member
  refine ⟨served_answerable bounded stored here entry member, fun call same empty => ?_⟩
  obtain ⟨request, answer⟩ := entry
  obtain rfl : request = .call call := same
  cases call with
  | get key =>
      rcases answer with _ | ⟨size, text⟩
      · exact empty
      · obtain ⟨small, none⟩ : key.length ≤ maxStrLen ∧ size = 0 := empty
        obtain ⟨place, found⟩ := List.getElem?_of_mem member
        have performed := served_performed here found (if_neg (Nat.not_lt.mpr small))
        have logged : (.get key maxStrLen, Option.some (size, text)) ∈ storeLog server.trace :=
          List.mem_map.mpr ⟨_, performed, rfl⟩
        obtain ⟨value, filled, same⟩ := @answered_values (fun value => value ≠ []) start _
          (fun key value bound same => some key (same ▸ bound)) stored.answered
          (fun key value => shell_stores_some serving) _ _ _ logged
        exact filled (List.length_eq_zero_iff.mp (same.symm.trans none))
  | set key value => exact empty
  | del key => exact empty
  | close => exact empty

/-- Every shell comes to its end, has sent its requests, each when the calls before it had returned, and has
printed the answers of one map, on which the calls of all shells act in one order. -/
theorem shells_served (faithful : Faithful represents backend) (bounded : Bounded start)
    (filled : ∀ key, start key ≠ some []) (related : represents start store) (codes : Client → Int)
    {inputs : Client → Bytes} (hears : ∀ client, heard (inputs client) = some (lines client)) {network : Network}
    (calm : network.Calm) (whole : network.Whole)
    (run : EndlessRun (Turn (Paced (Returned network fun client => asked (lines client))) backend)
      (Server.started store codes fun client => (requestsOf (lines client)).map Request.bytes))
    (fair : FairToClients run) (client : Client) (early : Nat) :
    ∃ time, early ≤ time ∧ (run.state time).unsent client = [] ∧
      ∃ answers : List StoreAnswer, answers.length = (asked (lines client)).length ∧
        Answered start (storeLog (run.state time).trace) ∧
        operationsOf client (run.state time).trace = performedBy ((requestsOf (lines client)).zip answers) ∧
        ∀ shell : ShellState Socket, shell.reader.input = inputs client →
          shell.client = ⟨[], repliedTo client (run.state time).trace⟩ →
          (shellMain (socketClient network) shell).map transcript =
            some ((printed (lines client) (List.zipWith truth (asked (lines client)) answers)).2,
              shell.output ++ (printed (lines client) (List.zipWith truth (asked (lines client)) answers)).1,
              ⟨streamOf (requestsOf (lines client)), []⟩) := by
  have fits := fun call member => (@asked_worded (lines client) call member).fits
  have full : ∀ request ∈ requestsOf (lines client), ¬request.LastEmpty := by
    intro request member
    obtain ⟨call, made, rfl⟩ := List.mem_map.mp member
    exact (asked_worded call made).last
  have served : ∀ time, Disciplined (run.state time) ∧ Stored represents start (run.state time) ∧
      ∀ client, ∃ served, Serving False (requestsOf (lines client)) [] (run.state time) client served :=
    paced_served faithful bounded related shell_fits
  obtain ⟨sent, late, all⟩ := sends_all faithful bounded related shell_fits fair client asked_closes full
    (fun time answers caught stored => by
      have legible := shell_legible bounded filled stored (served time).2.2 caught.serving
      have told := @calls_answered network ((asked (lines client)).take _) answers [] calm whole
        (fun call member => fits call (List.mem_of_mem_take member)) legible (caught.all.trans List.map_take.symm)
      rw [Returned, caught.replied, told]
      rfl) early
  have fed : ¬EndsEmpty (requestsOf (lines client)) := fun ⟨request, last, empty⟩ =>
    full request (List.mem_of_getLast? last) empty
  obtain ⟨time, later, stored, _, performed, serving, done⟩ := client_done faithful bounded related shell_fits
    (fun _ => unsent_stream rfl) paced_liberal (fun _ _ paced => paced.1) run fair.1 client asked_closes fed sent all
  have legible := shell_legible bounded filled stored (served time).2.2 serving
  have whole' : (requestsOf (lines client)).zip (performed.map Prod.snd) = performed := by
    rw [← done.all, List.zip_map']
    exact List.map_id performed
  have stays := run_keeps run (fun server => server.unsent client = []) all
    fun time _ sent => sent_taken (take_taken (run.steps time).2) sent
  refine ⟨time, late.trans later, stays time later, performed.map Prod.snd, ?_, stored.answered, ?_,
    fun shell typed connected => ?_⟩
  · have same := congrArg List.length done.all
    simp only [List.length_map, requestsOf] at same ⊢
    exact same
  · rw [whole']
    exact done.performed
  · rw [shell_interprets, typed, hears client, Option.bind_some, interpret_reports, connected, done.replied,
      bind_ran (calls_answered calm whole fits legible done.all)]
    rfl

end Shells

def updateLine : Bytes := ascii "set k " ++ [1]

def typedUpdate : Bytes := updateLine ++ [10] ++ (ascii "exit" ++ [10])

def openNetwork : Network := ⟨fun _ => false, fun _ => none, fun _ => [], false⟩

/-- The exit request is sent, read and acknowledged, and then the shell closes its side. -/
def takesLeave : List (Choice Unit Bindings) := [.send (), .move () (.receive 4), .move () .go, .close ()]

abbrev pace (calls : List DriverCall) : Choice Unit Bindings → Server Unit Bindings → Prop :=
  Paced (Returned openNetwork fun _ => calls)

def hasExited : Routine → Bool
  | .exited => true
  | _ => false

theorem has_exited {routine : Routine} (exited : hasExited routine = true) : routine = .exited := by
  cases routine <;> first | rfl | cases exited

/-- The thread of the only client has left its loop, and the client has closed its side when its calls had
returned. -/
def hasLeft (calls : List DriverCall) (server : Server Unit Bindings) : Bool :=
  decide (server.unsent () = []) && hasExited (server.threads ()).routine && (server.threads ()).closed &&
    decide (Returned openNetwork (fun _ => calls) () (server.threads ()).requests (repliedTo () server.trace))

theorem shell_run : ∃ (server : Server Unit Bindings)
    (run : EndlessRun (Turn (pace [.set [107] [1], .close]) mapStore)
      (Server.started noBindings (fun _ => 0) fun _ => [update, .call .close].map Request.bytes)) (steps : Nat),
    FairToClients run ∧
      (updating [update, .call .close]).run (pace [.set [107] [1], .close]) mapStore (served ++ takesLeave) =
        some server ∧ ∀ time, steps ≤ time → run.state time = server := by
  have whole : ((updating [update, .call .close]).run (pace [.set [107] [1], .close]) mapStore
      (served ++ takesLeave)).any (hasLeft [.set [107] [1], .close]) = true := by decide +kernel
  obtain ⟨server, ran, left⟩ := (Option.any_eq_true _ _).mp whole
  simp only [hasLeft, Bool.and_eq_true, decide_eq_true_eq] at left
  obtain ⟨⟨⟨sent, exited⟩, closed⟩, returned⟩ := left
  have stays : Turn (pace [.set [107] [1], .close]) mapStore (.close ()) server server :=
    ⟨⟨⟨trivial, trivial⟩, returned⟩, closed_again sent closed⟩
  obtain ⟨run, steps, ends⟩ := endless_run (run_steps ran) stays
  refine ⟨server, run, steps, ⟨fun client able => ?_, fun client able => ?_⟩, ran, ends⟩
  · obtain ⟨time, later, able⟩ := able steps
    rw [ends time later] at able
    exact absurd able (exited_unable (has_exited exited))
  · obtain ⟨time, later, _, able⟩ := able steps
    rw [ends time later] at able
    simp only [Server.take, sent] at able
    cases able

/-- The shell stores a value and takes its leave. -/
theorem shells_served_update : ∃ server : Server Unit Bindings,
    (updating [update, .call .close]).run (pace [.set [107] [1], .close]) mapStore (served ++ takesLeave) =
      some server ∧
    ∀ shell : ShellState Socket, shell.reader.input = typedUpdate →
      shell.client = ⟨[], repliedTo () server.trace⟩ →
        (shellMain (socketClient openNetwork) shell).map transcript =
          some (.left, shell.output ++ ascii "myjql> OK\nmyjql> bye~\n", ⟨streamOf [update, .call .close], []⟩) := by
  have hears : ∀ _ : Unit, heard typedUpdate = some [updateLine, ascii "exit"] := fun _ => by decide
  have same : asked [updateLine, ascii "exit"] = [.set [107] [1], .close] := by decide
  have sent : requestsOf [updateLine, ascii "exit"] = [update, .call .close] := by rw [requestsOf, same]; rfl
  have runs := shell_run
  rw [← same, ← sent] at runs
  obtain ⟨server, run, steps, fair, ran, ends⟩ := runs
  obtain ⟨time, later, _, answers, length, _, _, shown⟩ := shells_served map_store_faithful nothing_bounded
    (fun key => by simp [noBindings]) rfl (fun _ => 0) hears (fun _ => rfl) (fun _ => rfl) run fair () steps
  rw [ends time later] at shown
  rw [same] at length ran shown
  rw [sent] at ran shown
  obtain ⟨first, second, rfl⟩ := List.length_eq_two.mp length
  exact ⟨server, ran, shown⟩

end MyJQL.ShellService
