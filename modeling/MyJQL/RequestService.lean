import MyJQL.ThreadSafety

/-!
# One request after the other

When every `recv` returns what it was asked for, one turn of a thread is one request: it is received to
its last byte, whatever `code` and the new buffers held before, its operation is called for once, and its
reply is sent. So the calls to the store for one connection are the requests that were sent on it.
-/

namespace MyJQL.RequestService

open MyJQL.ByteStreams
open MyJQL.StateProgram
open MyJQL.KeyValueStore
open MyJQL.ServerModel
open MyJQL.ServerProtocol
open MyJQL.ServerSystem
open MyJQL.ServerThreads
open MyJQL.ThreadSafety

set_option autoImplicit false

/-- The bytes that a call is answered with. -/
def callReply : DriverCall → StoreAnswer → Bytes
  | .get key, answer =>
      if key.length > maxStrLen then intBytes 2
      else match answer with
        | none => intBytes 0
        | some (size, value) => intBytes 1 ++ (intBytes size ++ value)
  | .set key value, _ =>
      if key.length > maxStrLen then intBytes 2
      else if value.length > maxStrLen then intBytes 3
      else intBytes 1
  | .del key, _ => if key.length > maxStrLen then intBytes 2 else intBytes 1
  | .close, _ => intBytes 1

/-- What a thread can be sent: a call, or an opcode that it does not know and passes over. -/
inductive Request where
  | call (made : DriverCall)
  | unknown (code : Int)
  deriving DecidableEq

namespace Request

def bytes : Request → Bytes
  | call made => DriverCall.request made
  | unknown code => intBytes code

def Fits : Request → Prop
  | call made => DriverCall.Fits made
  | unknown code => -2 ^ 31 ≤ code ∧ code < 2 ^ 31 ∧ code ∉ [0, 1, 2, 3]

/-- What is received last of a request is a text without bytes. -/
def LastEmpty : Request → Prop
  | call (.get key) | call (.del key) => key = []
  | call (.set _ value) => value = []
  | call .close | unknown _ => False

def storeCall : Request → Option StoreCall
  | call made => DriverCall.storeCall made
  | unknown _ => none

def reply : Request → StoreAnswer → Bytes
  | call made, answer => callReply made answer
  | unknown _, _ => []

def Rests (request : Request) (routine : Routine) : Prop :=
  if request = .call .close then routine = .exited else ∃ code, routine = .again code

end Request

/-- The thread receives exactly these bytes, in whole pieces, and comes to a routine of the goal, whatever
is in the buffers it allocates. Only where the last piece is empty a `recv` can find all of them taken. -/
inductive Takes (lastEmpty : Prop) (goal : Routine → Prop) : Routine → Bytes → Prop
  | here {routine : Routine} (reached : goal routine) : Takes lastEmpty goal routine []
  | recv {buffer first bytes : Bytes} {count : Int} {next : Bytes → Routine} (asks : sizeT count = first.length)
      (room : first.length ≤ buffer.length) (waits : first ++ bytes = [] → lastEmpty)
      (behind : Takes lastEmpty goal (next (first ++ buffer.drop first.length)) bytes) :
      Takes lastEmpty goal (.recv buffer count next) (first ++ bytes)
  | malloc {length : Int} {bytes : Bytes} {next : Option Bytes → Routine} (allocable : Allocable length)
      (behind : ∀ fresh : Bytes, fresh.length = length.toNat + 1 → Takes lastEmpty goal (next (some fresh)) bytes) :
      Takes lastEmpty goal (.malloc length next) bytes
  | terminate {buffer bytes : Bytes} {index : Int} {next : Bytes → Routine}
      (inside : 0 ≤ index ∧ index.toNat < buffer.length)
      (behind : Takes lastEmpty goal (next (buffer.set index.toNat 0)) bytes) :
      Takes lastEmpty goal (.terminate buffer index next) bytes

/-- The thread sends exactly these bytes and comes to a routine of the goal. -/
inductive Speaks (goal : Routine → Prop) : Routine → Bytes → Prop
  | here {routine : Routine} (reached : goal routine) : Speaks goal routine []
  | send {buffer first bytes : Bytes} {count : Int} {next : Routine} (whole : bufferPrefix buffer count = some first)
      (behind : Speaks goal next bytes) : Speaks goal (.send buffer count next) (first ++ bytes)
  | terminate {buffer bytes : Bytes} {index : Int} {next : Bytes → Routine}
      (inside : 0 ≤ index ∧ index.toNat < buffer.length)
      (behind : Speaks goal (next (buffer.set index.toNat 0)) bytes) : Speaks goal (.terminate buffer index next) bytes

/-- The thread is about to ask the store, and then it sends what belongs to the answer. -/
structure Asks (call : StoreCall) (reply : StoreAnswer → Bytes) (goal : Routine → Prop) (raw : RawCall)
    (next : StoreAnswer → Routine) : Prop where
  within : raw.storeCall = some call
  answers : ∀ answer, Sensible answer → ∃ rest, next answer = .leave rest ∧ Speaks goal rest (reply answer)

/-- Where a thread stands when it has received a request: it replies, or it asks the store first. -/
inductive Request.Decided (request : Request) : Routine → Prop
  | refused {routine : Routine} (unasked : request.storeCall = none)
      (speaks : Speaks request.Rests routine (request.reply none)) : Request.Decided request routine
  | accepted {call : StoreCall} {raw : RawCall} {next : StoreAnswer → Routine} (asked : request.storeCall = some call)
      (asks : Asks call request.reply request.Rests raw next) : Request.Decided request (.enter (.perform raw next))

section Pieces

variable {lastEmpty : Prop} {goal : Routine → Prop} {code value : Int} {bytes text : Bytes}

theorem int_bytes_some (value : Int) (bytes : Bytes) : intBytes value ++ bytes ≠ [] := by
  refine List.append_ne_nil_of_left_ne_nil (List.ne_nil_of_length_pos ?_) _
  rw [int_bytes_length]
  decide

theorem takes_code {next : Int → Routine} (lower : -2 ^ 31 ≤ value) (upper : value < 2 ^ 31)
    (behind : Takes lastEmpty goal (next value) bytes) :
    Takes lastEmpty goal (recvCode code next) (intBytes value ++ bytes) := by
  refine .recv ?_ ?_ (fun none => absurd none (int_bytes_some _ _)) ?_
  · rw [int_bytes_length]
    decide
  · rw [int_bytes_length, int_bytes_length]
  · rw [List.drop_of_length_le (by rw [int_bytes_length, int_bytes_length]), List.append_nil,
      int_of_bytes_int_bytes lower upper]
    exact behind

/-- The buffer holds the text, and a zero behind it. -/
theorem takes_buffer {next : Bytes → Routine} (small : text.length ≤ 2 ^ 31 - 2)
    (waits : text ++ bytes = [] → lastEmpty) (behind : Takes lastEmpty goal (next (text ++ [0])) bytes) :
    Takes lastEmpty goal (recvBuffer text.length next) (text ++ bytes) := by
  refine .malloc ⟨by omega, by omega⟩ fun fresh size => .recv ?_ (by omega) waits (.terminate ?_ ?_)
  · rw [size_t_small (by omega) (by omega), Int.toNat_natCast]
  · rw [List.length_append, List.length_drop]
    omega
  · obtain ⟨last, left⟩ : ∃ last, fresh.drop text.length = [last] := by
      apply List.length_eq_one_iff.mp
      rw [List.length_drop]
      omega
    rw [left, Int.toNat_natCast, List.set_append_right _ _ (le_refl _), Nat.sub_self, List.set_cons_zero]
    exact behind

theorem speaks_code {next : Routine} (behind : Speaks goal next bytes) :
    Speaks goal (sendCode code next) (intBytes code ++ bytes) := by
  refine .send ?_ behind
  rw [bufferPrefix, if_pos (by rw [int_bytes_length]; decide)]
  rw [List.take_of_length_le (by rw [int_bytes_length]; decide)]

theorem speaks_status {next : Routine} (reached : goal next) : Speaks goal (sendCode code next) (intBytes code) := by
  rw [← List.append_nil (intBytes code)]
  exact speaks_code (.here reached)

end Pieces

section OneTurn

variable {key value : Bytes} {code : Int}

theorem buffer_prefix_append (text more : Bytes) : bufferPrefix (text ++ more) text.length = some text := by
  rw [bufferPrefix, if_pos ⟨by omega, by rw [Int.toNat_natCast, List.length_append]; omega⟩, Int.toNat_natCast,
    List.take_left]

theorem rests_again {request : Request} (goesOn : request ≠ .call .close) (code : Int) :
    request.Rests (.again code) := by
  rw [Request.Rests, if_neg goesOn]
  exact ⟨code, rfl⟩

theorem reply_get_speaks {buffer : Bytes} {answer : StoreAnswer} (short : ¬key.length > maxStrLen)
    (size : buffer.length = maxStrLen + 1) (sensible : Sensible answer) :
    Speaks (Request.call (.get key)).Rests (replyGet buffer answer) (callReply (.get key) answer) := by
  cases answer with
  | none =>
      rw [callReply, if_neg short]
      exact speaks_status (rests_again (by simp) 0)
  | some found =>
      obtain ⟨length, written⟩ := found
      obtain ⟨rfl, least⟩ := sensible length written rfl
      have small : written.length ≤ 1024 := least
      have room : buffer.length = 1025 := size
      have exact : valueLenOf (some (written.length, written)) = written.length := as_int_small (by omega)
      rw [callReply, if_neg short, replyGet, exact, if_neg (by omega)]
      have ends : 0 ≤ (written.length : Int) ∧ (written.length : Int).toNat <
          (filled buffer (some (written.length, written))).length := by
        rw [filled, List.length_append, List.length_drop]
        omega
      apply speaks_code
      apply speaks_code
      have value : Speaks (Request.call (.get key)).Rests (.send (filled buffer (some (written.length, written)))
          written.length (.terminate (filled buffer (some (written.length, written))) written.length fun _ =>
            .again written.length)) (written ++ []) :=
        .send (buffer_prefix_append written _) (.terminate ends (.here (rests_again (by simp) _)))
      rwa [List.append_nil] at value

theorem get_taken (fits : key.length ≤ 2 ^ 31 - 2) (code : Int) :
    Takes (key = []) (Request.call (.get key)).Decided (instanceThread code) (Request.call (.get key)).bytes := by
  rw [Request.bytes, DriverCall.request, instanceThread]
  apply takes_code (by decide) (by decide)
  rw [if_pos rfl, serveGet]
  apply takes_code (by omega) (by omega)
  apply takes_buffer fits (by simp)
  split_ifs with long
  · have long : key.length > maxStrLen := Int.ofNat_lt.mp long
    refine .here (.refused (if_pos long) ?_)
    rw [Request.reply, callReply, if_pos long]
    exact speaks_status (rests_again (by simp) 2)
  · have short : ¬key.length > maxStrLen := fun more => long (Int.ofNat_lt.mpr more)
    refine .malloc (by decide) fun buffer size => .here (.accepted (if_neg short) ⟨?_, fun answer sensible => ?_⟩)
    · have room : bufferPrefix buffer maxStrLen = some (buffer.take maxStrLen) :=
        if_pos ⟨by decide, by rw [size]; decide⟩
      have whole : (buffer.take maxStrLen).length = maxStrLen := by
        rw [List.length_take, size]
        decide
      rw [RawCall.storeCall, buffer_prefix_append, Option.getD_some, room]
      simp only [Option.bind_eq_bind, Option.bind_some, whole]
    · exact ⟨_, rfl, reply_get_speaks short size sensible⟩

theorem set_taken (keyFits : key.length ≤ 2 ^ 31 - 2) (valueFits : value.length ≤ 2 ^ 31 - 2) (code : Int) :
    Takes (value = []) (Request.call (.set key value)).Decided (instanceThread code)
      (Request.call (.set key value)).bytes := by
  rw [Request.bytes, DriverCall.request, instanceThread]
  apply takes_code (by decide) (by decide)
  rw [if_neg (by decide), if_pos rfl, serveSet]
  apply takes_code (by omega) (by omega)
  apply takes_buffer keyFits fun none => absurd (List.append_eq_nil_iff.mp none).2 (int_bytes_some _ _)
  apply takes_code (by omega) (by omega)
  apply takes_buffer valueFits (by simp)
  split_ifs with long valueLong
  · have long : key.length > maxStrLen := Int.ofNat_lt.mp long
    refine .here (.refused (if_pos long) ?_)
    rw [Request.reply, callReply, if_pos long]
    exact speaks_status (rests_again (by simp) 2)
  · have short : ¬key.length > maxStrLen := fun more => long (Int.ofNat_lt.mpr more)
    have valueLong : value.length > maxStrLen := Int.ofNat_lt.mp valueLong
    refine .here (.refused ?_ ?_)
    · rw [Request.storeCall, DriverCall.storeCall, if_neg short, if_pos valueLong]
    · rw [Request.reply, callReply, if_neg short, if_pos valueLong]
      exact speaks_status (rests_again (by simp) 3)
  · have short : ¬key.length > maxStrLen := fun more => long (Int.ofNat_lt.mpr more)
    have valueShort : ¬value.length > maxStrLen := fun more => valueLong (Int.ofNat_lt.mpr more)
    have asked : (Request.call (.set key value)).storeCall = some (.set key value) := by
      rw [Request.storeCall, DriverCall.storeCall, if_neg short, if_neg valueShort]
    refine .here (.accepted asked ⟨?_, fun answer _ => ⟨_, rfl, ?_⟩⟩)
    · rw [RawCall.storeCall, buffer_prefix_append, buffer_prefix_append]
      rfl
    · rw [Request.reply, callReply, if_neg short, if_neg valueShort]
      exact speaks_status (rests_again (by simp) 1)

theorem del_taken (fits : key.length ≤ 2 ^ 31 - 2) (code : Int) :
    Takes (key = []) (Request.call (.del key)).Decided (instanceThread code) (Request.call (.del key)).bytes := by
  rw [Request.bytes, DriverCall.request, instanceThread]
  apply takes_code (by decide) (by decide)
  rw [if_neg (by decide), if_neg (by decide), if_pos rfl, serveDel]
  apply takes_code (by omega) (by omega)
  apply takes_buffer fits (by simp)
  split_ifs with long
  · have long : key.length > maxStrLen := Int.ofNat_lt.mp long
    refine .here (.refused (if_pos long) ?_)
    rw [Request.reply, callReply, if_pos long]
    exact speaks_status (rests_again (by simp) 2)
  · have short : ¬key.length > maxStrLen := fun more => long (Int.ofNat_lt.mpr more)
    refine .here (.accepted (if_neg short) ⟨?_, fun answer _ => ⟨_, rfl, ?_⟩⟩)
    · rw [RawCall.storeCall, buffer_prefix_append]
      rfl
    · rw [Request.reply, callReply, if_neg short]
      exact speaks_status (rests_again (by simp) 1)

theorem request_taken {request : Request} (fits : request.Fits) (code : Int) :
    Takes request.LastEmpty request.Decided (instanceThread code) request.bytes := by
  cases request with
  | call made =>
      cases made with
      | get key => exact get_taken fits code
      | set key value => exact set_taken fits.1 fits.2 code
      | del key => exact del_taken fits code
      | close =>
          rw [Request.bytes, DriverCall.request, instanceThread]
          apply takes_code (by decide) (by decide)
          rw [if_neg (by decide), if_neg (by decide), if_neg (by decide), if_pos rfl]
          refine .here (.refused rfl (speaks_status ?_))
          rw [Request.Rests, if_pos rfl]
  | unknown other =>
      obtain ⟨lower, upper, other⟩ := fits
      simp only [List.mem_cons, List.not_mem_nil, or_false, not_or] at other
      obtain ⟨notGet, notSet, notDel, notExit⟩ := other
      rw [Request.bytes, ← List.append_nil (intBytes _), instanceThread]
      apply takes_code lower upper
      rw [if_neg notGet, if_neg notSet, if_neg notDel, if_neg notExit]
      exact .here (.refused rfl (.here (rests_again (by simp) _)))

end OneTurn

section Moves

variable {thread after : Thread} {move : Move} {sent : Option Bytes} {lastEmpty : Prop} {goal : Routine → Prop}
  {rest more behind : Bytes}

def Failed (move : Move) (thread after : Thread) (sent : Option Bytes) : Prop :=
  move = .fail ∧ after = { thread with routine := .exited } ∧ sent = none

theorem moved_recv {buffer : Bytes} {count : Int} {next : Bytes → Routine} (moved : Moved thread move after sent)
    (here : thread.routine = .recv buffer count next) : Failed move thread after sent ∨
    ∃ size, move = .receive size ∧ thread.delivers size ∧ sent = none ∧ after = { thread with
      routine := received buffer (thread.incoming.take size) next
      incoming := thread.incoming.drop size } := by
  cases moved with
  | receive there delivers =>
      rw [here] at there
      cases there
      exact .inr ⟨_, rfl, delivers, rfl, rfl⟩
  | fail _ => exact .inl ⟨rfl, rfl, rfl⟩
  | ended there _ | fault there _ | allocate there _ | null there _ | again there | terminate there _
  | overrun there _ | send there _ | overread there _ =>
      rw [here] at there
      cases there

theorem moved_malloc {length : Int} {next : Option Bytes → Routine} (moved : Moved thread move after sent)
    (here : thread.routine = .malloc length next) (allocable : Allocable length) :
    ∃ fresh : Bytes, fresh.length = length.toNat + 1 ∧ sent = none ∧
      after = { thread with routine := next (some fresh) } := by
  have buffer := allocated_allocable allocable
  cases moved with
  | allocate there size =>
      rw [here] at there
      cases there
      rw [buffer, Option.some_inj] at size
      exact ⟨_, size.symm, rfl, rfl⟩
  | null there beyond =>
      rw [here] at there
      cases there
      rw [buffer] at beyond
      cases beyond
  | fail there =>
      rw [here] at there
      cases there
  | receive there _ | ended there _ | fault there _ | again there | terminate there _ | overrun there _
  | send there _ | overread there _ =>
      rw [here] at there
      cases there

theorem moved_terminate {buffer : Bytes} {index : Int} {next : Bytes → Routine} (moved : Moved thread move after sent)
    (here : thread.routine = .terminate buffer index next) (inside : 0 ≤ index ∧ index.toNat < buffer.length) :
    sent = none ∧ after = { thread with routine := next (buffer.set index.toNat 0) } := by
  cases moved with
  | terminate there _ =>
      rw [here] at there
      cases there
      exact ⟨rfl, rfl⟩
  | overrun there outside =>
      rw [here] at there
      cases there
      exact absurd inside outside
  | fail there =>
      rw [here] at there
      cases there
  | receive there _ | ended there _ | fault there _ | allocate there _ | null there _ | again there | send there _
  | overread there _ =>
      rw [here] at there
      cases there

theorem moved_send {buffer bytes : Bytes} {count : Int} {next : Routine} (moved : Moved thread move after sent)
    (here : thread.routine = .send buffer count next) (whole : bufferPrefix buffer count = some bytes) :
    Failed move thread after sent ∨ (sent = some bytes ∧ after = { thread with routine := next }) := by
  cases moved with
  | send there other =>
      rw [here] at there
      cases there
      rw [whole] at other
      cases other
      exact .inr ⟨rfl, rfl⟩
  | overread there beyond =>
      rw [here] at there
      cases there
      rw [whole] at beyond
      cases beyond
  | fail _ => exact .inl ⟨rfl, rfl, rfl⟩
  | receive there _ | ended there _ | fault there _ | allocate there _ | null there _ | again there
  | terminate there _ | overrun there _ =>
      rw [here] at there
      cases there

theorem moved_again {code : Int} (moved : Moved thread move after sent) (here : thread.routine = .again code) :
    sent = none ∧ after = { thread with routine := instanceThread code, turn := thread.turn + 1 } := by
  cases moved with
  | again there =>
      rw [here] at there
      cases there
      exact ⟨rfl, rfl⟩
  | fail there =>
      rw [here] at there
      cases there
  | receive there _ | ended there _ | fault there _ | allocate there _ | null there _ | terminate there _
  | overrun there _ | send there _ | overread there _ =>
      rw [here] at there
      cases there

theorem moved_nowhere (moved : Moved thread move after sent)
    (here : thread.routine = .exited ∨ (∃ next, thread.routine = .enter next) ∨
      (∃ call next, thread.routine = .perform call next) ∨ (∃ call next, thread.routine = .running call next) ∨
      ∃ next, thread.routine = .leave next) : False := by
  cases moved with
  | fail there =>
      rcases here with here | ⟨_, here⟩ | ⟨_, _, here⟩ | ⟨_, _, here⟩ | ⟨_, here⟩
      all_goals
        rw [here] at there
        cases there
  | receive there _ | ended there _ | fault there _ | allocate there _ | null there _ | again there
  | terminate there _ | overrun there _ | send there _ | overread there _ =>
      rw [there] at here
      simp at here

theorem takes_moved (takes : Takes lastEmpty goal thread.routine rest)
    (ahead : thread.incoming ++ more = rest ++ behind)
    (moved : Moved thread move after sent) (full : ∀ count, move = .receive count → count = thread.asked) :
    (goal thread.routine ∧ rest = []) ∨ Failed move thread after sent ∨
      ∃ left, Takes lastEmpty goal after.routine left ∧ after.incoming ++ more = left ++ behind ∧ left <:+ rest ∧
        sent = none ∧ after.turn = thread.turn := by
  generalize here : thread.routine = routine at takes
  cases takes with
  | here reached => exact .inl ⟨reached, rfl⟩
  | @recv buffer first bytes count next asks room _ onward =>
      rcases moved_recv moved here with failed | ⟨size, rfl, delivers, rfl, rfl⟩
      · exact .inr (.inl failed)
      · have whole : size = first.length := by
          rw [full size rfl, asked_of_recv here, asks]
        obtain ⟨length, _⟩ := delivers_length delivers
        have split : thread.incoming.take size ++ (thread.incoming.drop size ++ more) = first ++ (bytes ++ behind) := by
          rw [← List.append_assoc, List.take_append_drop, ahead, List.append_assoc]
        obtain ⟨arrived, left⟩ := List.append_inj split (length.trans whole)
        refine .inr (.inr ⟨bytes, ?_, left, List.suffix_append _ _, rfl, rfl⟩)
        simp only [arrived, received, List.take_of_length_le room]
        exact onward
  | malloc allocable onward =>
      obtain ⟨fresh, size, rfl, rfl⟩ := moved_malloc moved here allocable
      exact .inr (.inr ⟨rest, onward fresh size, ahead, List.suffix_refl _, rfl, rfl⟩)
  | terminate inside onward =>
      obtain ⟨rfl, rfl⟩ := moved_terminate moved here inside
      exact .inr (.inr ⟨rest, onward, ahead, List.suffix_refl _, rfl, rfl⟩)

theorem speaks_moved (speaks : Speaks goal thread.routine rest) (moved : Moved thread move after sent) :
    (goal thread.routine ∧ rest = []) ∨ Failed move thread after sent ∨
      ∃ left, Speaks goal after.routine left ∧ rest = sent.getD [] ++ left ∧ after.incoming = thread.incoming ∧
        after.turn = thread.turn := by
  generalize here : thread.routine = routine at speaks
  cases speaks with
  | here reached => exact .inl ⟨reached, rfl⟩
  | send whole onward =>
      rcases moved_send moved here whole with failed | ⟨rfl, rfl⟩
      · exact .inr (.inl failed)
      · exact .inr (.inr ⟨_, onward, rfl, rfl, rfl⟩)
  | terminate inside onward =>
      obtain ⟨rfl, rfl⟩ := moved_terminate moved here inside
      exact .inr (.inr ⟨rest, onward, rfl, rfl, rfl⟩)

end Moves

/-- A request with what the store answered; a request that was refused has no answer. -/
abbrev Served := Request × StoreAnswer

def performedBy (served : List Served) : List (Nat × StoreCall × StoreAnswer) :=
  served.zipIdx.filterMap fun entry => entry.1.1.storeCall.map fun call => (entry.2, call, entry.1.2)

def repliesTo (served : List Served) : Bytes := served.flatMap fun entry => entry.1.reply entry.2

def streamOf (requests : List Request) : Bytes := requests.flatMap Request.bytes

theorem performed_by_append (served : List Served) (request : Request) (answer : StoreAnswer) :
    performedBy (served ++ [(request, answer)]) =
      performedBy served ++ (request.storeCall.map fun call => (served.length, call, answer)).toList := by
  rw [performedBy, List.zipIdx_append, List.filterMap_append]
  cases asked : request.storeCall <;> simp [performedBy, asked]

theorem replies_to_append (served : List Served) (request : Request) (answer : StoreAnswer) :
    repliesTo (served ++ [(request, answer)]) = repliesTo served ++ request.reply answer := by
  simp [repliesTo]

/-- How far a thread is with the requests of its client: it waits for more, it receives a request, it asks
the store, it replies, or a socket has failed. What lies ahead is what it has not received, and what was
said is all that it has sent. -/
inductive Stage (failing : Prop) (requests : List Request) (tail ahead : Bytes) (turn : Nat) (routine : Routine)
    (served : List Served) (said : Bytes) : Prop
  | awaiting (code : Int) (here : routine = instanceThread code) (all : requests = served.map Prod.fst)
      (goesOn : requests.getLast? ≠ some (.call .close)) (place : turn = served.length) (nothing : ahead = [])
      (told : said = repliesTo served)
  | reading (request : Request) (back : List Request) (rest : Bytes)
      (split : requests = served.map Prod.fst ++ request :: back) (place : turn = served.length)
      (takes : Takes request.LastEmpty request.Decided routine rest) (part : rest <:+ request.bytes)
      (left : ahead = rest ++ (streamOf back ++ tail)) (told : said = repliesTo served)
  | asking (request : Request) (back : List Request) (call : StoreCall) (raw : RawCall)
      (next : StoreAnswer → Routine) (split : requests = served.map Prod.fst ++ request :: back)
      (place : turn = served.length) (here : routine = .perform raw next ∨ routine = .running call next)
      (asked : request.storeCall = some call) (asks : Asks call request.reply request.Rests raw next)
      (left : ahead = streamOf back ++ tail) (told : said = repliesTo served)
  | replying (front : List Served) (request : Request) (answer : StoreAnswer) (back : List Request)
      (rest : Routine) (unsaid : Bytes) (split : requests = served.map Prod.fst ++ back)
      (last : served = front ++ [(request, answer)]) (place : turn = front.length)
      (here : routine = .leave rest ∨ routine = rest) (speaks : Speaks request.Rests rest unsaid)
      (left : ahead = streamOf back ++ tail) (told : said ++ unsaid = repliesTo served)
  | ended (cause : failing) (here : routine = .exited) (split : served.map Prod.fst <+: requests)
      (taken : ∃ read, streamOf requests ++ tail = streamOf (served.map Prod.fst) ++ (read ++ ahead))
      (told : said <+: repliesTo served)

section Stages

variable {failing : Prop} {requests : List Request} {tail more said : Bytes} {served : List Served}
  {thread after : Thread} {move : Move} {sent : Option Bytes}

/-- After a move: the same operations, and what was sent belongs to a request that was served. -/
def GoesOn (failing : Prop) (requests : List Request) (tail more said : Bytes) (served : List Served)
    (thread after : Thread) (sent : Option Bytes) : Prop :=
  ∃ further, Stage failing requests tail (after.incoming ++ more) after.turn after.routine further
      (said ++ sent.getD []) ∧
    performedBy further = performedBy served ∧ (sent ≠ none → thread.turn < further.length) ∧
    served.length ≤ further.length

theorem stream_of_append (front back : List Request) : streamOf (front ++ back) = streamOf front ++ streamOf back :=
  List.flatMap_append

/-- What the thread has taken begins with the requests that it has served. -/
theorem stage_taken {ahead : Bytes} {turn : Nat} {routine : Routine}
    (ends : tail = [] ∨ requests.getLast? = some (.call .close))
    (stage : Stage failing requests tail ahead turn routine served said) :
    ∃ read, streamOf requests ++ tail = streamOf (served.map Prod.fst) ++ (read ++ ahead) := by
  cases stage with
  | awaiting code here all goesOn place nothing told =>
      refine ⟨[], ?_⟩
      rw [← all, nothing, ends.resolve_right goesOn]
      rfl
  | reading request back rest split place takes part left told =>
      obtain ⟨read, whole⟩ := part
      refine ⟨read, ?_⟩
      rw [split, left, stream_of_append, streamOf, streamOf, List.flatMap_cons, ← whole]
      simp [streamOf]
  | asking request back call raw next split place here asked asks left told =>
      refine ⟨request.bytes, ?_⟩
      rw [split, left, stream_of_append, streamOf, streamOf, List.flatMap_cons]
      simp [streamOf]
  | replying front request answer back rest unsaid split last place here speaks left told =>
      refine ⟨[], ?_⟩
      rw [split, left, stream_of_append]
      simp
  | ended cause here split taken told => exact taken

theorem goes_on_failed (steady : move = .fail → failing) (failed : Failed move thread after sent)
    (split : served.map Prod.fst <+: requests)
    (taken : ∃ read, streamOf requests ++ tail =
      streamOf (served.map Prod.fst) ++ (read ++ (thread.incoming ++ more))) (told : said <+: repliesTo served) :
    GoesOn failing requests tail more said served thread after sent := by
  obtain ⟨fails, rfl, rfl⟩ := failed
  refine ⟨served, .ended (steady fails) rfl split taken ?_, rfl, fun some => absurd rfl some, le_refl _⟩
  rwa [Option.getD_none, List.append_nil]

theorem stage_begins (fits : ∀ request ∈ requests, request.Fits) {back : List Request} {ahead : Bytes} {code : Int}
    (ends : tail = [] ∨ requests.getLast? = some (.call .close)) (split : requests = served.map Prod.fst ++ back)
    (left : ahead = streamOf back ++ tail) (goesOn : back = [] → requests.getLast? ≠ some (.call .close)) :
    Stage failing requests tail ahead served.length (instanceThread code) served (repliesTo served) := by
  cases back with
  | nil =>
      rw [ends.resolve_right (goesOn rfl)] at left
      exact .awaiting code rfl (split.trans (List.append_nil _)) (goesOn rfl) rfl left rfl
  | cons request back =>
      have takes := fun member => request_taken (fits request member) code
      refine .reading request back request.bytes split rfl (takes ?_) (List.suffix_refl _) ?_ rfl
      · rw [split]
        exact List.mem_append_right _ List.mem_cons_self
      · rw [left, streamOf, List.flatMap_cons, List.append_assoc]
        rfl

theorem replying_moved (fits : ∀ request ∈ requests, request.Fits)
    (ends : tail = [] ∨ requests.getLast? = some (.call .close)) {front : List Served} {request : Request}
    {answer : StoreAnswer} {back : List Request} {unsaid : Bytes} (split : requests = served.map Prod.fst ++ back)
    (last : served = front ++ [(request, answer)]) (place : thread.turn = front.length)
    (speaks : Speaks request.Rests thread.routine unsaid) (left : thread.incoming ++ more = streamOf back ++ tail)
    (told : said ++ unsaid = repliesTo served) (moved : Moved thread move after sent)
    (steady : move = .fail → failing) : GoesOn failing requests tail more said served thread after sent := by
  have place' : thread.turn < served.length := by
    rw [last, place, List.length_append]
    exact Nat.lt_succ_self _
  rcases speaks_moved speaks moved with ⟨rests, rfl⟩ | failed | ⟨onward, speaks', split', incoming, turn⟩
  · rw [List.append_nil] at told
    rw [Request.Rests] at rests
    split_ifs at rests with closes
    · exact absurd (.inl rests) (moved_nowhere moved)
    · obtain ⟨code, here⟩ := rests
      obtain ⟨rfl, rfl⟩ := moved_again moved here
      refine ⟨served, ?_, rfl, fun some => absurd rfl some, le_refl _⟩
      have count : thread.turn + 1 = served.length := by
        rw [last, place, List.length_append]
        rfl
      simp only [count, Option.getD_none, List.append_nil, told]
      refine stage_begins fits ends split left fun none => ?_
      rw [split, none, last, List.append_nil, List.map_append, List.map_cons, List.map_nil, List.getLast?_concat, ne_eq,
        Option.some.injEq]
      exact closes
  · refine goes_on_failed steady failed ⟨back, split.symm⟩ ⟨[], ?_⟩ ⟨unsaid, told⟩
    rw [split, left, stream_of_append, List.nil_append, List.append_assoc]
  · refine ⟨served, .replying front request answer back after.routine onward split last (turn.trans place) (.inr rfl)
      speaks' ?_ ?_, rfl, fun _ => place', le_refl _⟩
    · rw [incoming]
      exact left
    · rw [← told, split', List.append_assoc]

theorem stage_moved (fits : ∀ request ∈ requests, request.Fits)
    (ends : tail = [] ∨ requests.getLast? = some (.call .close))
    (stage : Stage failing requests tail (thread.incoming ++ more) thread.turn thread.routine served said)
    (moved : Moved thread move after sent) (full : ∀ count, move = .receive count → count = thread.asked)
    (steady : move = .fail → failing) : GoesOn failing requests tail more said served thread after sent := by
  have taken := stage_taken ends stage
  cases stage with
  | awaiting code here all _ place nothing told =>
      rcases moved_recv moved here with failed | ⟨size, rfl, delivers, rfl, rfl⟩
      · exact goes_on_failed steady failed ⟨[], by rw [all, List.append_nil]⟩ taken ⟨[], by rw [told, List.append_nil]⟩
      · have asked := full size rfl
        rw [asked_of_recv here, show sizeT intSize = 4 from rfl] at asked
        have arrived := delivers.2.1
        rw [(List.append_eq_nil_iff.mp nothing).1, List.length_nil] at arrived
        omega
  | reading request back rest split place takes part left told =>
      rcases takes_moved takes left moved full with
        ⟨decided, rfl⟩ | failed | ⟨onward, takes', left', shorter, rfl, turn⟩
      · generalize here : thread.routine = routine at decided
        cases decided with
        | refused unasked speaks =>
            have split' : requests = (served ++ [(request, none)]).map Prod.fst ++ back := by
              rw [split, List.map_append, List.append_assoc]
              rfl
            have told' : said ++ request.reply none = repliesTo (served ++ [(request, none)]) := by
              rw [replies_to_append, told]
            rw [← here] at speaks
            obtain ⟨further, stage, performed, place', grows⟩ :=
              replying_moved fits ends split' rfl place speaks left told' moved steady
            refine ⟨further, stage, performed.trans ?_, place', ?_⟩
            · rw [performed_by_append, unasked, Option.map_none, Option.toList_none, List.append_nil]
            · rw [List.length_append] at grows
              omega
        | accepted asked asks => exact absurd (.inr (.inl ⟨_, here⟩)) (moved_nowhere moved)
      · exact goes_on_failed steady failed ⟨request :: back, split.symm⟩ taken ⟨[], by rw [told, List.append_nil]⟩
      · refine ⟨served, .reading request back onward split (turn.trans place) takes' (shorter.trans part) left' ?_, rfl,
          fun some => absurd rfl some, le_refl _⟩
        rwa [Option.getD_none, List.append_nil]
  | asking request back call raw next split place here asked asks left told =>
      rcases here with here | here
      · exact absurd (.inr (.inr (.inl ⟨_, _, here⟩))) (moved_nowhere moved)
      · exact absurd (.inr (.inr (.inr (.inl ⟨_, _, here⟩)))) (moved_nowhere moved)
  | replying front request answer back rest unsaid split last place here speaks left told =>
      rcases here with here | here
      · exact absurd (.inr (.inr (.inr (.inr ⟨_, here⟩)))) (moved_nowhere moved)
      · rw [← here] at speaks
        exact replying_moved fits ends split last place speaks left told moved steady
  | ended _ here split _ told => exact absurd (.inl here) (moved_nowhere moved)

end Stages

section CriticalSection

variable {failing : Prop} {requests : List Request} {tail ahead said : Bytes} {served : List Served} {turn : Nat}

theorem rests_shape {request : Request} {routine : Routine} (rests : request.Rests routine) :
    routine = .exited ∨ ∃ code, routine = .again code := by
  rw [Request.Rests] at rests
  split_ifs at rests
  · exact .inl rests
  · exact .inr rests

/-- A routine of the critical section, or the door to it. -/
def Guarded (routine : Routine) : Prop :=
  (∃ next, routine = .enter next) ∨ (∃ call next, routine = .perform call next) ∨
    (∃ call next, routine = .running call next) ∨ ∃ next, routine = .leave next

theorem speaks_unguarded {request : Request} {routine : Routine} {bytes : Bytes}
    (speaks : Speaks request.Rests routine bytes) : ¬Guarded routine := by
  cases speaks with
  | here rests => rcases rests_shape rests with rfl | ⟨_, rfl⟩ <;> simp [Guarded]
  | send _ _ | terminate _ _ => simp [Guarded]

theorem takes_guarded {request : Request} {routine : Routine} {bytes : Bytes}
    (takes : Takes request.LastEmpty request.Decided routine bytes) (guarded : Guarded routine) :
    ∃ call raw next, routine = .enter (.perform raw next) ∧ bytes = [] ∧ request.storeCall = some call ∧
      Asks call request.reply request.Rests raw next := by
  cases takes with
  | here decided =>
      cases decided with
      | refused unasked speaks => exact absurd guarded (speaks_unguarded speaks)
      | accepted asked asks => exact ⟨_, _, _, rfl, rfl, asked, asks⟩
  | recv _ _ _ _ | malloc _ _ | terminate _ _ => simp [Guarded] at guarded

/-- Around the critical section a thread has received a request that it accepts, or it has performed the
operation of one. -/
theorem stage_guarded {routine : Routine} (stage : Stage failing requests tail ahead turn routine served said)
    (guarded : Guarded routine) :
    (∃ request back call raw next, requests = served.map Prod.fst ++ request :: back ∧ turn = served.length ∧
      (routine = .enter (.perform raw next) ∨ routine = .perform raw next ∨ routine = .running call next) ∧
      request.storeCall = some call ∧ Asks call request.reply request.Rests raw next ∧
      ahead = streamOf back ++ tail ∧ said = repliesTo served) ∨
    ∃ rest, routine = .leave rest ∧ Stage failing requests tail ahead turn rest served said := by
  cases stage with
  | awaiting code same all _ place nothing told =>
      rw [same] at guarded
      simp [Guarded, instanceThread, recvCode] at guarded
  | reading request back rest split place takes part left told =>
      obtain ⟨call, raw, next, same, rfl, asked, asks⟩ := takes_guarded takes guarded
      exact .inl ⟨request, back, call, raw, next, split, place, .inl same, asked, asks, left, told⟩
  | asking request back call raw next split place here asked asks left told =>
      exact .inl ⟨request, back, call, raw, next, split, place, .inr here, asked, asks, left, told⟩
  | replying front request answer back rest unsaid split last place shape speaks left told =>
      rcases shape with shape | shape
      · exact .inr ⟨rest, shape, .replying front request answer back rest unsaid split last place (.inr rfl) speaks
          left told⟩
      · rw [← shape] at speaks
        exact absurd guarded (speaks_unguarded speaks)
  | ended _ same split _ told =>
      rw [same] at guarded
      simp [Guarded] at guarded

theorem stage_enters {next : Routine} (stage : Stage failing requests tail ahead turn (.enter next) served said) :
    Stage failing requests tail ahead turn next served said := by
  rcases stage_guarded stage (.inl ⟨next, rfl⟩) with
    ⟨request, back, call, raw, more, split, place, here, asked, asks, left, told⟩ | ⟨_, here, _⟩
  · rcases here with here | here | here
    · cases here
      exact .asking request back call raw more split place (.inl rfl) asked asks left told
    · cases here
    · cases here
  · cases here

theorem stage_performs {raw : RawCall} {call : StoreCall} {next : StoreAnswer → Routine}
    (stage : Stage failing requests tail ahead turn (.perform raw next) served said)
    (within : raw.storeCall = some call) :
    Stage failing requests tail ahead turn (.running call next) served said := by
  rcases stage_guarded stage (.inr (.inl ⟨raw, next, rfl⟩)) with
    ⟨request, back, call, raw, more, split, place, here, asked, asks, left, told⟩ | ⟨_, here, _⟩
  · rcases here with here | here | here
    · cases here
    · cases here
      rw [asks.within] at within
      cases within
      exact .asking request back call raw next split place (.inr rfl) asked asks left told
    · cases here
  · cases here

theorem stage_answered {call : StoreCall} {next : StoreAnswer → Routine} {answer : StoreAnswer}
    (stage : Stage failing requests tail ahead turn (.running call next) served said) (sensible : Sensible answer) :
    ∃ request, request.storeCall = some call ∧ turn = served.length ∧
      Stage failing requests tail ahead turn (next answer) (served ++ [(request, answer)]) said := by
  rcases stage_guarded stage (.inr (.inr (.inl ⟨call, next, rfl⟩))) with
    ⟨request, back, call, raw, more, split, place, here, asked, asks, left, told⟩ | ⟨_, here, _⟩
  · rcases here with here | here | here
    · cases here
    · cases here
    · cases here
      obtain ⟨rest, shape, speaks⟩ := asks.answers answer sensible
      refine ⟨request, asked, place,
        .replying served request answer back rest _ ?_ rfl place (.inl shape) speaks left ?_⟩
      · rw [split, List.map_append, List.append_assoc]
        rfl
      · rw [told, replies_to_append]
  · cases here

theorem stage_leaves {next : Routine} (stage : Stage failing requests tail ahead turn (.leave next) served said) :
    Stage failing requests tail ahead turn next served said := by
  rcases stage_guarded stage (.inr (.inr (.inr ⟨next, rfl⟩))) with
    ⟨_, _, _, _, _, _, _, here, _⟩ | ⟨_, here, further⟩
  · rcases here with here | here | here <;> cases here
  · cases here
    exact further

end CriticalSection

end MyJQL.RequestService
