import PgRedisProxy.Reply.RedisReqvConverter

/-!
# Replies on the wire

An `Outcome` is what a command came to. `Outcome.send` is its way to the client:
the result that a `process_*` function sets for it, turned into a reply by
`define_type_req`. `answers_read_back`, the main result, says that a client reads
exactly the outcomes from what is sent for them, one reply after the other.
-/

namespace PgRedisProxy

open CLang Resp

/-- `process_set` behind `req_set`. -/
def answerSet (res : ReqResult) (pgAnswer : Answer) : Int × Answer :=
  if res = .errReq then (-1, pgAnswer)
  else (0, ⟨some (Block.ofBytes ([0] ++ ascii "OK" ++ [0])), 4⟩)

/-- `process_del` behind its loop. -/
def answerDel (rc : Int) (successfulDeletions : Nat) (pgAnswer : Answer) : Int × Answer :=
  if rc = -1 then (-1, pgAnswer)
  else
    let num := decimal successfulDeletions
    (0, ⟨some (Block.ofBytes (2 :: num)), num.length + 1⟩)

/-- `process_ping` -/
def answerPing : Int × Answer :=
  (0, ⟨some (Block.ofBytes ([0] ++ ascii "PONG" ++ [0])), 6⟩)

/-- What a command came to. -/
inductive Outcome where
  | value (bytes : List UInt8)
  | missing
  | deleted (n : Nat)
  | stored
  | pong
  | invalid (type : ErrorType)
  deriving DecidableEq

namespace Outcome

/-- The result that a `process_*` function sets. A value comes with its terminator, and its length
counts it. -/
def process : Outcome → Option (Int × Answer)
  | .value bytes => answerGet .ok (some (Block.ofBytes (bytes ++ [0]))) (bytes.length + 1) .null
  | .missing => answerGet .non none 0 .null
  | .deleted n => some (answerDel 0 n .null)
  | .stored => some (answerSet .ok .null)
  | .pong => some answerPing
  | .invalid type => answerError type

/-- What is sent to the client. -/
def send (o : Outcome) : Option (Int × Answer) := do
  let (rc, pgAnswer) ← o.process
  if rc = -1 then some (-1, .null) else defineTypeReq pgAnswer .null

/-- The reply that the client is to read. -/
def reply : Outcome → Reply
  | .value bytes => .bulk bytes
  | .missing => .nil
  | .deleted n => .int n
  | .stored => .simple (ascii "OK")
  | .pong => .simple (ascii "PONG")
  | .invalid type => .error type.message

/-- Values are not empty, and the sizes fit an `int`. -/
def Sized : Outcome → Prop
  | .value bytes => bytes ≠ [] ∧ (Reply.bulk bytes).encode.length < 2 ^ 31
  | .deleted n => n < 2 ^ 31
  | _ => True

instance : (o : Outcome) → Decidable o.Sized
  | .value _ => inferInstanceAs (Decidable (_ ∧ _))
  | .missing => inferInstanceAs (Decidable True)
  | .deleted n => inferInstanceAs (Decidable (n < 2 ^ 31))
  | .stored => inferInstanceAs (Decidable True)
  | .pong => inferInstanceAs (Decidable True)
  | .invalid _ => inferInstanceAs (Decidable True)

/-- The result stands for the reply. -/
theorem process_eq (o : Outcome) : ∃ rest, o.process = some (0, .of rest o.reply) := by
  cases o with
  | value bytes => exact ⟨[], answerGet_ok bytes .null⟩
  | missing => exact ⟨[], rfl⟩
  | deleted n => exact ⟨[], rfl⟩
  | stored => exact ⟨[], rfl⟩
  | pong => exact ⟨[], rfl⟩
  | invalid type => exact answerError_eq type

/-- What is sent is the reply. -/
theorem send_eq {o : Outcome} (ho : o.Sized) : o.send = some (0, .bytes o.reply.encode) := by
  obtain ⟨rest, hprocess⟩ := o.process_eq
  have hshown : shown o.reply = o.reply := by
    cases o with
    | value bytes =>
        obtain ⟨c, bytes, rfl⟩ := List.exists_cons_of_ne_nil ho.1
        rfl
    | missing => rfl
    | deleted n => rfl
    | stored => rfl
    | pong => rfl
    | invalid type => rfl
  have hdefine := defineTypeReq_of rest o.reply .null
  rw [hshown] at hdefine
  rw [send, hprocess]
  exact hdefine

theorem reply_readable (o : Outcome) : o.reply.Readable := by
  cases o with
  | value bytes => trivial
  | missing => trivial
  | deleted n => trivial
  | stored => exact (by decide : 13 ∉ ascii "OK")
  | pong => exact (by decide : 13 ∉ ascii "PONG")
  | invalid type =>
      cases type with
      | commandNotFound => exact (by decide : 13 ∉ ascii "unknown command")
      | wrongArgumentsCount => exact (by decide : 13 ∉ ascii "syntax error")

/-- The length of a reply fits an `int`. -/
theorem length_encode_lt {o : Outcome} (ho : o.Sized) : o.reply.encode.length < 2 ^ 31 := by
  cases o with
  | value bytes => exact ho.2
  | missing => decide
  | deleted n =>
      have hdigits : (decimal n).length ≤ 10 := length_decimal_le (lt_trans ho (by decide))
      simp only [reply, Reply.encode, List.length_append]
      show 1 + (decimal n).length + 2 < 2 ^ 31
      omega
  | stored => decide
  | pong => decide
  | invalid type => cases type <;> decide

end Outcome

/-! ## Where outcomes come from -/

/-- A value that `req_get` reports comes with its length, terminator included. -/
theorem reqGet_ok {flt : Faults} {p : Proxy} {key : CString}
    (hok : (reqGet flt p key).1.res = .ok) :
    ∃ value, (reqGet flt p key).1 = ⟨.ok, some value, value.strlen + 1⟩ := by
  have hdb : (reqGet flt p key).1 = getValue flt.sql p.db key →
      ∃ value, (reqGet flt p key).1 = ⟨.ok, some value, value.strlen + 1⟩ := by
    intro hreply
    rw [hreply] at hok ⊢
    rcases getValue_cases flt.sql p.db key with ⟨-, hget⟩ | ⟨-, hget⟩ | ⟨value, -, hget⟩
    · rw [hget] at hok
      cases hok
    · rw [hget] at hok
      cases hok
    · exact ⟨value, hget⟩
  rcases reqGet_cases flt p key with ⟨-, hget⟩ | ⟨-, ⟨value, -, hget⟩ | ⟨-, hget⟩ |
    ⟨-, ⟨-, hget⟩ | ⟨value, -, -, hget⟩ | ⟨-, hget⟩⟩⟩
  · exact hdb (by rw [hget])
  · exact ⟨value, by rw [hget]⟩
  · rw [hget] at hok
    cases hok
  · exact hdb (by rw [hget])
  · exact hdb (by rw [hget])
  · exact hdb (by rw [hget])

section Produced

variable {flt : Faults} {p p' : Proxy} {pgAnswer answer : Answer}

theorem processGet_outcome {key : CString}
    (hprocess : processGet flt p key pgAnswer = some (0, answer, p')) :
    ∃ o : Outcome, o.process = some (0, answer) := by
  rw [processGet_eq_answerGet, Option.map_eq_some_iff] at hprocess
  obtain ⟨⟨rc, answer'⟩, hanswer, heq⟩ := hprocess
  cases heq
  cases hres : (reqGet flt p key).1.res with
  | errReq =>
      rw [hres] at hanswer
      cases hanswer
  | non =>
      rw [hres] at hanswer
      cases hanswer
      exact ⟨.missing, rfl⟩
  | ok =>
      obtain ⟨value, hvalue⟩ := reqGet_ok hres
      rw [hvalue] at hanswer
      have hok : some (0, Answer.of [] (.bulk value.bytes)) = some ((0 : Int), answer) :=
        (answerGet_ok value.bytes pgAnswer).symm.trans hanswer
      exact ⟨.value value.bytes, (answerGet_ok value.bytes .null).trans hok⟩

theorem processSet_outcome {key value : CString}
    (hprocess : processSet flt p key value pgAnswer = some (0, answer, p')) :
    ∃ o : Outcome, o.process = some (0, answer) := by
  simp only [processSet, Option.bind_eq_bind, Option.bind_eq_some_iff] at hprocess
  obtain ⟨⟨res, p₁⟩, -, hanswer⟩ := hprocess
  dsimp only at hanswer
  split at hanswer
  · cases hanswer
  · cases hanswer
    exact ⟨.stored, rfl⟩

theorem processDel_outcome {keys : List CString}
    (hprocess : processDel flt p keys pgAnswer = some (0, answer, p')) :
    ∃ o : Outcome, o.process = some (0, answer) := by
  simp only [processDel, Option.bind_eq_bind, Option.bind_eq_some_iff] at hprocess
  obtain ⟨⟨rc, n, p₁⟩, -, hanswer⟩ := hprocess
  dsimp only at hanswer
  split at hanswer
  · cases hanswer
  · cases hanswer
    exact ⟨.deleted n, rfl⟩

theorem processError_outcome {type : ErrorType}
    (hprocess : processError p type = some (0, answer, p')) :
    ∃ o : Outcome, o.process = some (0, answer) := by
  rw [processError_eq_answerError, Option.map_eq_some_iff] at hprocess
  obtain ⟨⟨rc, answer'⟩, hanswer, heq⟩ := hprocess
  cases heq
  exact ⟨.invalid type, hanswer⟩

/-- Every result that a command other than `COMMAND` sets is that of an outcome, whatever fails on
the way to it. -/
theorem processRedisToPostgres_outcome {name : CString} {args : List CString}
    (hname : (toBigCase name).bytes ≠ ascii "COMMAND")
    (hprocess : processRedisToPostgres flt p (name :: args) pgAnswer = some (0, answer, p')) :
    ∃ o : Outcome, o.process = some (0, answer) := by
  unfold processRedisToPostgres at hprocess
  dsimp only at hprocess
  split at hprocess
  · split at hprocess
    · exact processError_outcome hprocess
    · exact processGet_outcome hprocess
  · split at hprocess
    · split at hprocess
      · exact processSet_outcome hprocess
      · exact processError_outcome hprocess
    · split at hprocess
      · split at hprocess
        · exact processError_outcome hprocess
        · exact processDel_outcome hprocess
      · split at hprocess
        · cases hprocess
          exact ⟨.pong, rfl⟩
        · exact processError_outcome hprocess

end Produced

/-! ## The result -/

/-- Every result that a command other than `COMMAND` sets is that of an outcome. What is sent for
some outcomes lies in buffers of exactly its size, which fits an `int`, with every copy inside them,
and a client reads the outcomes from it: the bytes of the values, the counts, the missing values,
the simple strings, and the error messages, in order. -/
theorem answers_read_back {outcomes : List Outcome} (hsized : ∀ o ∈ outcomes, o.Sized) :
    (∃ answers : List (List UInt8),
      outcomes.mapM Outcome.send = some (answers.map fun bytes => (0, .bytes bytes)) ∧
      (∀ bytes ∈ answers, wrap32 bytes.length = bytes.length) ∧
      readReplies answers.flatten = some (outcomes.map Outcome.reply)) ∧
    ∀ (flt : Faults) (p p' : Proxy) (name : CString) (args : List CString)
      (pgAnswer answer : Answer), (toBigCase name).bytes ≠ ascii "COMMAND" →
      processRedisToPostgres flt p (name :: args) pgAnswer = some (0, answer, p') →
        ∃ o : Outcome, o.process = some (0, answer) := by
  refine ⟨⟨outcomes.map fun o => o.reply.encode, ?_, ?_, ?_⟩,
    fun flt p p' name args pgAnswer answer hname => processRedisToPostgres_outcome hname⟩
  · induction outcomes with
    | nil => rfl
    | cons o outcomes ih =>
        have hsend := Outcome.send_eq (hsized o List.mem_cons_self)
        have hrest := ih fun o' ho' => hsized o' (List.mem_cons_of_mem o ho')
        simp only [List.mapM_cons, hsend, hrest, Option.bind_eq_bind, Option.bind_some,
          List.map_cons]
        rfl
  · intro bytes hbytes
    obtain ⟨o, ho, rfl⟩ := List.mem_map.mp hbytes
    have hlt := Outcome.length_encode_lt (hsized o ho)
    exact wrap32_of_range (by omega) (by omega)
  · have hreadable : ∀ reply ∈ outcomes.map Outcome.reply, reply.Readable := by
      intro reply hreply
      obtain ⟨o, -, rfl⟩ := List.mem_map.mp hreply
      exact o.reply_readable
    have hread := readReplies_encode hreadable
    rwa [List.flatMap_map, List.flatMap_def] at hread

/-- A value that looks like the end of one reply and the beginning of another. -/
theorem answers_read_back_nested :
    ∃ answers : List (List UInt8),
      [Outcome.value ([13, 10] ++ ascii "+OK" ++ [13, 10]), .missing, .deleted 12, .stored, .pong,
        .invalid .commandNotFound].mapM Outcome.send =
          some (answers.map fun bytes => (0, .bytes bytes)) ∧
      (∀ bytes ∈ answers, wrap32 bytes.length = bytes.length) ∧
      readReplies answers.flatten = some
        [.bulk ([13, 10] ++ ascii "+OK" ++ [13, 10]), .nil, .int 12, .simple (ascii "OK"),
          .simple (ascii "PONG"), .error (ascii "unknown command")] :=
  (@answers_read_back [.value ([13, 10] ++ ascii "+OK" ++ [13, 10]), .missing, .deleted 12, .stored,
    .pong, .invalid .commandNotFound] (by decide)).1

end PgRedisProxy
