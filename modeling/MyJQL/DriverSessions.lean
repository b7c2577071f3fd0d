import MyJQL.DriverCalls
import MyJQL.Linearization

/-!
# Clients of a server that stops

What a client is told when its connection ends anywhere in the replies, by an error of a socket or because
the server stops. Every call whose reply arrived is told the truth. The calls behind them are told what the
last sizes that they sent look like: a `set` of one byte is reported as done, whether or not it was.
-/

namespace MyJQL.DriverSessions

open MyJQL.StateProgram
open MyJQL.KeyValueStore
open MyJQL.ServerModel
open MyJQL.ServerProtocol
open MyJQL.ServerSystem
open MyJQL.ServerThreads
open MyJQL.ThreadSafety
open MyJQL.RequestService
open MyJQL.ClientService
open MyJQL.Linearization
open MyJQL.DriverCalls

set_option autoImplicit false

/-- The reports of one call after the other. An exception does not keep the caller from the next one. -/
def session (network : Network) : List DriverCall → Bytes → Option (List Report)
  | [], _ => some []
  | call :: calls, stream => do
      let (report, _, rest) ← (conversation call).run network 0 stream
      let reports ← session network calls rest
      some (report :: reports)

def silence : DriverCall → Report
  | .get key => getReport key.length []
  | .set _ value => .outcome (setOutcome value.length)
  | .del key => .outcome (delOutcome key.length)
  | .close => .outcome .done

/-- A call that returns although nothing of its reply arrived. -/
def Deceived : DriverCall → Report → Prop
  | .get key, report => key = [] ∧ report = .outcome .missing
  | .set _ value, report => value.length = 1 ∧ report = .outcome .done
  | .del key, report => key.length = 1 ∧ report = .outcome .done
  | .close, report => report = .outcome .done

section Silence

variable {network : Network} {call : DriverCall} {turn : Nat} {report : Report}

theorem silence_deceives : (silence call).Returns ↔ Deceived call (silence call) := by
  cases call with
  | get key =>
      have stays : overwritten 1 [] = 1 := overwritten_nothing (by decide) (by decide)
      rw [silence, Deceived, ← List.length_eq_zero_iff, getReport, stays]
      rcases Nat.eq_zero_or_pos key.length with zero | some
      · rw [zero]
        exact iff_of_true rfl ⟨rfl, rfl⟩
      · rw [if_neg (by omega)]
        split_ifs <;> simp_all [Report.Returns, Report.what]
  | set key value =>
      rw [silence, Deceived, set_outcome_returns]
      constructor
      · intro one
        exact ⟨by omega, by rw [one]; rfl⟩
      · exact fun told => by omega
  | del key =>
      rw [silence, Deceived, del_outcome_returns]
      constructor
      · intro one
        exact ⟨by omega, by rw [one]; rfl⟩
      · exact fun told => by omega
  | close => exact iff_of_true rfl rfl

theorem silent_reports (settled : network.Settled) (fits : DriverCall.Fits call) (goesOn : call ≠ .close) :
    Reports network (conversation call) turn [] (silence call) [] := by
  cases call with
  | get key =>
      have fits' : key.length ≤ 2 ^ 31 - 2 := fits
      obtain ⟨reports, _⟩ := @get_short network turn [] key settled fits (by decide)
      rw [overwritten_nothing (by omega) (by omega)] at reports
      exact reports
  | set key value =>
      have fits' : value.length ≤ 2 ^ 31 - 2 := fits.2
      have reports := @set_reports network turn key value settled.whole fits [] (settled_gives settled _ _)
      rw [overwritten_nothing (by omega) (by omega)] at reports
      exact reports
  | del key =>
      have fits' : key.length ≤ 2 ^ 31 - 2 := fits
      have reports := @del_reports network turn key settled.whole fits [] (settled_gives settled _ _)
      rw [overwritten_nothing (by omega) (by omega)] at reports
      exact reports
  | close => exact absurd rfl goesOn

theorem reports_calm {conversation : Conversation} {stream rest : Bytes} (calm : network.Calm)
    (reports : Reports network conversation turn stream report rest) :
    ∃ sent, conversation.run network turn stream = some (report, sent, rest) := by
  rcases reports with ran | ⟨_, _, _, _, faulty⟩
  · exact ran
  · exact absurd calm faulty

end Silence

/-- A reply that was cut behind the lowest byte of the length of a value. -/
def Shortened (answer : StoreAnswer) : DriverCall → Report → Prop
  | .get key, report => key.length ≤ maxStrLen ∧ report = .outcome (.found []) ∧
      ∃ value, answer = some (value.length, value) ∧ value.length % 256 = 0 ∧ cString value ≠ []
  | _, _ => False

/-- What a client knows when its call at a place returns: what the server replied, or something that only looks
like it. -/
structure Told (served : List Served) (stream : Bytes) (index : Nat) (call : DriverCall) (report : Report) : Prop where
  returned : report.Returns →
    (∃ answer, served[index]? = some (.call call, answer) ∧
      (report = .outcome (DriverCall.outcome call answer) ∨ Shortened answer call report)) ∨
    (stream <+: repliesTo (served.take index) ∧ Deceived call report)
  silent : stream <+: repliesTo (served.take index) → report = silence call
  whole : repliesTo (served.take (index + 1)) <+: stream → ∀ answer, served[index]? = some (.call call, answer) →
    report = .outcome (DriverCall.outcome call answer)

section Session

variable {network : Network} {calls : List DriverCall} {served : List Served} {stream : Bytes} {index : Nat}
  {call : DriverCall} {report : Report} {answer : StoreAnswer}

/-- The answer to a call that was not passed to the store does not matter. -/
def Answerable (entry : Served) : Prop := Sensible entry.2 ∨ entry.1.storeCall = none

theorem refused_reply (refused : DriverCall.storeCall call = none) (answer : StoreAnswer) :
    callReply call answer = callReply call none ∧ DriverCall.outcome call answer = DriverCall.outcome call none := by
  cases call with
  | get key =>
      have long : key.length > maxStrLen := by
        by_contra short
        rw [DriverCall.storeCall, if_neg short] at refused
        cases refused
      cases answer <;> simp [callReply, DriverCall.outcome, long]
  | set key value => exact ⟨rfl, rfl⟩
  | del key => exact ⟨rfl, rfl⟩
  | close => exact ⟨rfl, rfl⟩

theorem call_reply_some (answer : StoreAnswer) : callReply call answer ≠ [] := by
  have four : ∀ code : Int, intBytes code ≠ [] := fun code => List.ne_nil_of_length_pos (by simp)
  cases call with
  | get key =>
      cases answer <;>
      · rw [callReply]
        split_ifs <;> simp [four]
  | set key value =>
      rw [callReply]
      split_ifs <;> exact four _
  | del key =>
      rw [callReply]
      split_ifs <;> exact four _
  | close => exact four 1

theorem sensible_none : Sensible none := fun _ _ same => nomatch same

theorem answered_whole {rest : Bytes} (whole : network.Whole) (calm : network.Calm) (fits : DriverCall.Fits call)
    (answerable : Answerable (.call call, answer))
    (gives : network.ends = true ∨ rest ≠ [] ∨ ¬EmptyValue call answer) :
    ∃ sent, (conversation call).run network 0 (callReply call answer ++ rest) =
      some (.outcome (DriverCall.outcome call answer), sent, rest) := by
  rcases answerable with sensible | refused
  · exact whole_reply_ran calm whole fits sensible rest gives
  · obtain ⟨reply, outcome⟩ := refused_reply refused answer
    have never : ¬EmptyValue call none := by cases call <;> exact id
    rw [reply, outcome]
    exact whole_reply_ran calm whole fits sensible_none rest (.inr (.inr never))

theorem misleading_shortened (begun : stream ≠ []) (misleading : Misleading answer stream call) :
    Shortened answer call (misled stream call) := by
  cases call with
  | get key =>
      rcases misleading with ⟨nothing, _⟩ | ⟨_, small, value⟩
      · exact absurd nothing begun
      · exact ⟨small, if_neg begun, value⟩
  | set key value => exact absurd misleading.1 begun
  | del key => exact misleading
  | close => exact misleading

theorem answered_cut (settled : network.Settled) (fits : DriverCall.Fits call) (goesOn : call ≠ .close)
    (answerable : Answerable (.call call, answer)) (cut : stream <+: callReply call answer)
    (short : stream ≠ callReply call answer) (begun : stream ≠ []) :
    ∃ report, Reports network (conversation call) 0 stream report [] ∧
      (report.Returns → report = .outcome (DriverCall.outcome call answer) ∨ Shortened answer call report) := by
  rcases answerable with sensible | refused
  · obtain ⟨report, reports, judged⟩ := @reply_cut network 0 stream call answer settled fits goesOn sensible cut short
    refine ⟨report, reports, fun returns => (judged.right returns).imp id fun misleading => ?_⟩
    rw [(judged.wrong misleading).1]
    exact misleading_shortened begun misleading
  · obtain ⟨reply, outcome⟩ := refused_reply refused answer
    rw [reply] at cut short
    rw [outcome]
    obtain ⟨report, reports, judged⟩ :=
      @reply_cut network 0 stream call none settled fits goesOn sensible_none cut short
    refine ⟨report, reports, fun returns => .inl ((judged.right returns).resolve_right fun misleading => ?_)⟩
    have shortened := misleading_shortened begun misleading
    cases call with
    | get key =>
        obtain ⟨_, _, _, some, _⟩ := shortened
        cases some
    | set key value => exact shortened
    | del key => exact shortened
    | close => exact shortened

theorem told_behind {entry : Served} {rest : Bytes} (told : Told served rest index call report)
    (left : rest = [] ∧ stream <+: entry.1.reply entry.2 ∧ stream ≠ entry.1.reply entry.2 ∨
      stream = entry.1.reply entry.2 ++ rest) :
    Told (entry :: served) stream (index + 1) call report := by
  have replies : ∀ count, repliesTo ((entry :: served).take (count + 1)) =
      entry.1.reply entry.2 ++ repliesTo (served.take count) := fun _ => rfl
  refine ⟨fun returns => ?_, fun arrived => ?_, fun whole => ?_⟩
  · rcases told.returned returns with truth | ⟨arrived, deceived⟩
    · exact .inl truth
    · refine .inr ⟨?_, deceived⟩
      rw [replies]
      rcases left with ⟨_, part, _⟩ | rfl
      · exact part.trans (List.prefix_append _ _)
      · exact (List.prefix_append_right_inj _).mpr arrived
  · apply told.silent
    rcases left with ⟨nothing, _⟩ | rfl
    · rw [nothing]
      exact List.nil_prefix
    · exact (List.prefix_append_right_inj _).mp arrived
  · rw [replies] at whole
    apply told.whole
    rcases left with ⟨_, part, short⟩ | rfl
    · exact absurd (part.eq_of_length_le ((List.prefix_append _ _).trans whole).length_le) short
    · exact (List.prefix_append_right_inj _).mp whole

theorem session_step {rest sent : Bytes} {reports : List Report}
    (ran : (conversation call).run network 0 stream = some (report, sent, rest))
    (others : session network calls rest = some reports) :
    session network (call :: calls) stream = some (report :: reports) := by
  rw [session, ran, Option.bind_eq_bind, Option.bind_some]
  change (session network calls rest).bind _ = _
  rw [others, Option.bind_some]

theorem told_first {entry : Served} (same : entry.1 = .call call)
    (silent : stream = [] → report = silence call)
    (judged : stream ≠ [] → report.Returns →
      report = .outcome (DriverCall.outcome call entry.2) ∨ Shortened entry.2 call report)
    (whole : entry.1.reply entry.2 <+: stream → report = .outcome (DriverCall.outcome call entry.2)) :
    Told (entry :: served) stream 0 call report := by
  refine ⟨fun returns => ?_, fun arrived => silent (List.prefix_nil.mp arrived), fun arrived answer found => ?_⟩
  · by_cases nothing : stream = []
    · have told := silent nothing
      rw [told] at returns ⊢
      exact .inr ⟨by rw [nothing]; exact List.nil_prefix, silence_deceives.mp returns⟩
    · exact .inl ⟨entry.2, by rw [← same]; rfl, judged nothing returns⟩
  · cases found
    refine whole ?_
    rwa [List.take_succ_cons, List.take_zero, repliesTo, List.flatMap_singleton] at arrived

/-- Every call is told about, whatever was told to the ones before it and whatever is sent behind them. -/
theorem session_told {last : List Request} (settled : network.Settled) (calm : network.Calm)
    (fits : ∀ call ∈ calls, DriverCall.Fits call ∧ call ≠ .close) (answerable : ∀ entry ∈ served, Answerable entry)
    (first : served.map Prod.fst <+: calls.map .call ++ last) (arrived : stream <+: repliesTo served) :
    ∃ reports, session network calls stream = some reports ∧ reports.length = calls.length ∧
      ∀ index call report, calls[index]? = some call → reports[index]? = some report →
        Told served stream index call report := by
  induction calls generalizing served stream with
  | nil => exact ⟨[], rfl, rfl, fun index call report found => by simp at found⟩
  | cons call calls ih =>
      obtain ⟨fit, goesOn⟩ := fits call List.mem_cons_self
      have others := fun other member => fits other (List.mem_cons_of_mem call member)
      cases served with
      | nil =>
          have nothing : stream = [] := List.prefix_nil.mp arrived
          subst nothing
          obtain ⟨reports, ran, length, told⟩ := @ih [] [] others (by simp) List.nil_prefix List.nil_prefix
          obtain ⟨_, quiet⟩ := reports_calm calm (silent_reports settled fit goesOn)
          refine ⟨silence call :: reports, session_step quiet ran, by simp [length], ?_⟩
          intro index other report found reported
          cases index with
          | zero =>
              cases found
              cases reported
              refine ⟨fun returns => .inr ⟨List.nil_prefix, silence_deceives.mp returns⟩, fun _ => rfl, ?_⟩
              exact fun _ answer impossible => nomatch impossible
          | succ index =>
              obtain ⟨returned, silent, _⟩ := told index other report found reported
              refine ⟨fun returns => ?_, fun _ => silent List.nil_prefix, fun _ _ impossible => nomatch impossible⟩
              rcases returned returns with ⟨_, impossible, _⟩ | deceived
              · cases impossible
              · exact .inr ⟨List.nil_prefix, deceived.2⟩
      | cons entry served =>
          have front : (entry :: served).map Prod.fst <+: .call call :: (calls.map .call ++ last) := first
          obtain ⟨same, behind⟩ := List.cons_prefix_cons.mp front
          have answerable' : Answerable (.call call, entry.2) := by
            rw [← same]
            exact answerable entry List.mem_cons_self
          have later := fun other member => answerable other (List.mem_cons_of_mem entry member)
          have reply : entry.1.reply entry.2 = callReply call entry.2 := by rw [same]; rfl
          have arrived : stream <+: callReply call entry.2 ++ repliesTo served := reply ▸ arrived
          -- The first reply has arrived, or it ends the stream.
          rcases Nat.lt_or_ge stream.length (callReply call entry.2).length with fewer | all
          · have cut := List.prefix_of_prefix_length_le arrived (List.prefix_append _ _) fewer.le
            have short : stream ≠ callReply call entry.2 := fun whole => by
              rw [whole] at fewer
              exact lt_irrefl _ fewer
            have unreplied : ¬entry.1.reply entry.2 <+: stream := fun whole => by
              rw [reply] at whole
              exact absurd whole.length_le (Nat.not_le.mpr fewer)
            obtain ⟨reports, ran, length, told⟩ := @ih served [] others later behind List.nil_prefix
            obtain ⟨report, reported, judged⟩ : ∃ report, Reports network (conversation call) 0 stream report [] ∧
                Told (entry :: served) stream 0 call report := by
              by_cases nothing : stream = []
              · refine ⟨silence call, by rw [nothing]; exact silent_reports settled fit goesOn, ?_⟩
                exact told_first same (fun _ => rfl) (absurd nothing) fun whole => absurd whole unreplied
              · obtain ⟨report, reported, judged⟩ := answered_cut settled fit goesOn answerable' cut short nothing
                exact ⟨report, reported, told_first same (fun none => absurd none nothing) (fun _ => judged)
                  fun whole => absurd whole unreplied⟩
            obtain ⟨_, reported⟩ := reports_calm calm reported
            refine ⟨report :: reports, session_step reported ran, by simp [length], ?_⟩
            intro index other told' found said
            cases index with
            | zero =>
                cases found
                cases said
                exact judged
            | succ index =>
                exact told_behind (told index other told' found said) (.inl ⟨rfl, reply ▸ cut, reply ▸ short⟩)
          · obtain ⟨rest, rfl⟩ := List.prefix_of_prefix_length_le (List.prefix_append _ _) arrived all
            have more := (List.prefix_append_right_inj _).mp arrived
            obtain ⟨reports, ran, length, told⟩ := ih others later behind more
            obtain ⟨_, first⟩ := @answered_whole network call entry.2 rest settled.whole calm fit answerable'
              (.inl settled.ends)
            refine ⟨_ :: reports, session_step first ran, by simp [length], ?_⟩
            intro index other told' found said
            cases index with
            | zero =>
                cases found
                cases said
                refine told_first same (fun nothing => ?_) (fun _ _ => .inl rfl) fun _ => rfl
                exact absurd (List.append_eq_nil_iff.mp nothing).1 (call_reply_some _)
            | succ index =>
                exact told_behind (told index other told' found said) (.inr (by rw [reply]))

end Session

theorem answered_sensible {bindings : Bindings} {log : List (StoreCall × StoreAnswer)} (bounded : Bounded bindings)
    (answered : Answered bindings log) (accepted : ∀ call ∈ log.map Prod.fst, Accepted call) :
    ∀ entry ∈ log, Sensible entry.2 := by
  induction log generalizing bindings with
  | nil => simp
  | cons entry log ih =>
      obtain ⟨call, answer⟩ := entry
      obtain ⟨rfl, later⟩ := answered
      obtain ⟨driverCall, asked⟩ := accepted call List.mem_cons_self
      intro other member
      rcases List.mem_cons.mp member with rfl | behind
      · exact accepted_sensible asked bounded
      · exact ih (accepted_bounded asked bounded) later
          (fun storeCall inside => accepted storeCall (List.mem_cons_of_mem _ inside)) other behind

section Runs

variable {Client Store : Type} [DecidableEq Client] {represents : Bindings → Store → Prop}
  {backend : StoreCall → Program Store StoreAnswer} {start : Bindings} {server : Server Client Store}
  {calls : Client → List DriverCall} {store : Store} {codes : Client → Int} {streams : Client → List Bytes}
  {client : Client} {failing : Prop} {requests : List Request} {served : List Served} {index : Nat} {call : DriverCall}

theorem served_answerable (bounded : Bounded start) (stored : Stored represents start server)
    (serving : Serving failing requests [] server client served) :
    ∀ entry ∈ served, Answerable entry := by
  rintro ⟨request, answer⟩ member
  cases asked : request.storeCall with
  | none => exact .inr asked
  | some storeCall =>
      obtain ⟨place, found⟩ := List.getElem?_of_mem member
      have performed : (place, storeCall, answer) ∈ performedBy served :=
        performed_by_member.mpr ⟨request, found, asked⟩
      rw [← serving.performed] at performed
      have logged : (storeCall, answer) ∈ storeLog server.trace :=
        List.mem_map.mpr ⟨_, operations_of_member.mp performed, rfl⟩
      exact .inl (answered_sensible bounded stored.answered stored.accepted _ logged)

theorem served_performed (serving : Serving failing requests [] server client served)
    {answer : StoreAnswer} (found : served[index]? = some (.call call, answer)) {storeCall : StoreCall}
    (asked : DriverCall.storeCall call = some storeCall) :
    (client, index, storeCall, answer) ∈ operations server.trace := by
  apply operations_of_member.mp
  rw [serving.performed]
  exact performed_by_member.mpr ⟨_, found, asked⟩

theorem client_told {calls : List DriverCall} {last : List Request} (bounded : Bounded start)
    (stored : Stored represents start server)
    (serving : Serving failing (calls.map .call ++ last) [] server client served)
    (fits : ∀ call ∈ calls, DriverCall.Fits call ∧ call ≠ .close) {network : Network} (settled : network.Settled)
    (calm : network.Calm) {stream : Bytes} (arrived : stream <+: repliedTo client server.trace) :
    ∃ reports, session network calls stream = some reports ∧ reports.length = calls.length ∧
      ∀ index call report, calls[index]? = some call → reports[index]? = some report →
        Told served stream index call report ∧
        (report.Returns → Deceived call report ∨ ∃ answer,
          (∀ storeCall, DriverCall.storeCall call = some storeCall →
            (client, index, storeCall, answer) ∈ operations server.trace) ∧
          (report = .outcome (DriverCall.outcome call answer) ∨ Shortened answer call report)) := by
  have told := serving_told serving
  obtain ⟨reports, ran, length, each⟩ := session_told settled calm fits (served_answerable bounded stored serving)
    (serving_shorter serving) (arrived.trans told)
  refine ⟨reports, ran, length, fun index call report found said => ?_⟩
  have knows := each index call report found said
  refine ⟨knows, fun returns => ?_⟩
  rcases knows.returned returns with ⟨answer, there, truth⟩ | ⟨_, deceived⟩
  · exact .inr ⟨answer, fun storeCall asked => served_performed serving there asked, truth⟩
  · exact .inl deceived

/-- What the client of an ended connection was told: a call that returns was performed and answered so, or it is
a `get` whose value was cut short to nothing; unless no byte of its reply arrived and the last size that it sent
looks like success, as it then always does. -/
theorem reports_of_run (faithful : Faithful represents backend) (bounded : Bounded start)
    (related : represents start store) (codes : Client → Int)
    (fits : ∀ client, ∀ call ∈ calls client, DriverCall.Fits call ∧ call ≠ .close)
    (sent : ∀ client, (streams client).flatten = streamOf ((calls client).map .call))
    (run : Relation.ReflTransGen (Step FullLength backend) (Server.started store codes streams) server)
    {network : Network} (settled : network.Settled) (calm : network.Calm) {stream : Bytes}
    (arrived : stream <+: repliedTo client server.trace) : ∃ served reports,
      served.map Prod.fst <+: (calls client).map .call ∧
      repliedTo client server.trace <+: repliesTo served ∧
      session network (calls client) stream = some reports ∧ reports.length = (calls client).length ∧
      ∀ index call report, (calls client)[index]? = some call → reports[index]? = some report →
        Told served stream index call report ∧
        (report.Returns → Deceived call report ∨ ∃ answer,
          (∀ storeCall, DriverCall.storeCall call = some storeCall →
            (client, index, storeCall, answer) ∈ operations server.trace) ∧
          (report = .outcome (DriverCall.outcome call answer) ∨ Shortened answer call report)) := by
  have requests : ∀ client, ∀ request ∈ (calls client).map Request.call, request.Fits := by
    intro client request member
    obtain ⟨call, made, rfl⟩ := List.mem_map.mp member
    exact (fits client call made).1
  have steady : ∀ (client : Client) (server : Server Client Store), FullLength (.move client .fail) server → True :=
    fun _ _ _ => trivial
  obtain ⟨_, stored, serving⟩ := served_run faithful bounded related requests sent (fun _ _ full => full) steady run
  obtain ⟨served, serving⟩ := serving client
  have whole : Serving True ((calls client).map .call ++ []) [] server client served := by
    rw [List.append_nil]
    exact serving
  obtain ⟨reports, ran, length, each⟩ := client_told bounded stored whole (fits client) settled calm arrived
  exact ⟨served, reports, serving_shorter serving, serving_told serving, ran, length, each⟩

end Runs

set_option maxRecDepth 16000 in
/-- What one client has stored is what the other one is told. -/
theorem reports_of_run_two_clients : ∃ (server : Server Bool Bindings) (network : Network) (answer : StoreAnswer),
    twoClients.run FullLength mapStore (stores ++ looks) = some server ∧
      session network (storeAndLook false) (repliedTo false server.trace) = some [.outcome (.found [1])] ∧
      (false, 0, .get [107] maxStrLen, answer) ∈ operations server.trace ∧
      DriverCall.outcome (.get [107]) answer = .found [1] := by
  obtain ⟨server, ran, said⟩ : ∃ server, twoClients.run FullLength mapStore (stores ++ looks) = some server ∧
      session ⟨fun _ => false, fun _ => none, fun _ => [], true⟩ (storeAndLook false) (repliedTo false server.trace) =
        some [.outcome (.found [1])] := ⟨_, rfl, rfl⟩
  have fits : ∀ client, ∀ call ∈ storeAndLook client, DriverCall.Fits call ∧ call ≠ .close := by
    rintro (_ | _) <;> simp [storeAndLook, DriverCall.Fits]
  let network : Network := ⟨fun _ => false, fun _ => none, fun _ => [], true⟩
  have calm : network.Calm := fun _ => rfl
  have settled : network.Settled := ⟨fun _ => rfl, rfl⟩
  obtain ⟨served, reports, _, _, again, _, told⟩ := reports_of_run map_store_faithful nothing_bounded rfl
    (fun _ => 0) fits (fun client => by cases client <;> rfl) (run_steps ran) settled calm
    (List.prefix_refl (repliedTo false server.trace))
  obtain rfl := Option.some.inj (said.symm.trans again)
  rcases (told 0 (.get [107]) _ rfl rfl).2 rfl with ⟨impossible, _⟩ | ⟨answer, performed, truth⟩
  · cases impossible
  · rcases truth with same | ⟨_, impossible, _⟩
    · exact ⟨server, _, answer, ran, said, performed _ rfl, (Report.outcome.inj same).symm⟩
    · cases impossible

end MyJQL.DriverSessions
