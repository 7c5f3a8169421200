import PgRedisProxy.Reply.PostgresReqvConverter
import PgRedisProxy.Store.Tiers

/-!
# From Redis commands to results (`redis_reqv_converter`)

`processRedisToPostgres` looks at the command name, in any letter case, and at the
number of arguments, and lets one of the `process…` functions set the result. Only
`COMMAND` leaves it as it was. Allocations succeed here. `Tiers.serve` is the reply each
command asks for, in terms of the three maps, and `processRedisToPostgres_refines` relates the two.
-/

namespace PgRedisProxy

open CLang Resp

/-- `MAX_ERROR_SIZE` -/
def maxErrorSize : Nat := 256

/-- `enum ErrorType` -/
inductive ErrorType where
  | commandNotFound
  | wrongArgumentsCount
  deriving DecidableEq

/-- `error_message` in `process_error` -/
def ErrorType.message : ErrorType → List UInt8
  | .commandNotFound => ascii "unknown command"
  | .wrongArgumentsCount => ascii "syntax error"

/-- `process_get` -/
def processGet (flt : Faults) (p : Proxy) (key : CString) (pgAnswer : Answer) :
    Option (Int × Answer × Proxy) :=
  let (r, p) := reqGet flt p key
  if r.res = .non then
    some (0, ⟨some (Block.ofBytes [3]), 1⟩, p)
  else if r.res = .errReq then some (-1, pgAnswer, p)
  else do
    let value ← r.value
    let sizePgAnswer := r.length + 1
    let answer ← (Block.alloc sizePgAnswer).write? 0 (Block.ofBytes [3])
    let answer ← Block.copy? answer 1 (Block.ofBytes value.buffer) 0 r.length
    some (0, ⟨some answer, sizePgAnswer⟩, p)

/-- `process_set` -/
def processSet (flt : Faults) (p : Proxy) (key value : CString) (pgAnswer : Answer) :
    Option (Int × Answer × Proxy) := do
  let (res, p) ← reqSet flt p key value
  if res = .errReq then some (-1, pgAnswer, p)
  else some (0, ⟨some (Block.ofBytes ([0] ++ ascii "OK" ++ [0])), 4⟩, p)

/-- The loop of `process_del` over the keys, with `successful_deletions`. -/
def delKeys (flt : Faults) (p : Proxy) (successfulDeletions : Nat) :
    List CString → Option (Int × Nat × Proxy)
  | [] => some (0, successfulDeletions, p)
  | key :: keys => do
      let (res, p) ← reqDel flt p key
      if res = .errReq then some (-1, successfulDeletions, p)
      else delKeys flt p (if res = .ok then successfulDeletions + 1 else successfulDeletions) keys

/-- `process_del` -/
def processDel (flt : Faults) (p : Proxy) (keys : List CString) (pgAnswer : Answer) :
    Option (Int × Answer × Proxy) := do
  let (rc, successfulDeletions, p) ← delKeys flt p 0 keys
  if rc = -1 then some (-1, pgAnswer, p)
  else
    let num := decimal successfulDeletions
    some (0, ⟨some (Block.ofBytes (2 :: num)), num.length + 1⟩, p)

/-- `process_ping` -/
def processPing (p : Proxy) : Option (Int × Answer × Proxy) :=
  some (0, ⟨some (Block.ofBytes ([0] ++ ascii "PONG" ++ [0])), 6⟩, p)

/-- `process_error`. The buffer is larger than the message, and its rest is indeterminate. -/
def processError (p : Proxy) (type : ErrorType) : Option (Int × Answer × Proxy) := do
  let answer ← (Block.alloc maxErrorSize).write? 0 (Block.ofBytes (1 :: type.message))
  some (0, ⟨some answer, 1 + type.message.length⟩, p)

/-- The upper case of an ASCII letter. -/
def upper (c : UInt8) : UInt8 :=
  if 97 ≤ c && c ≤ 122 then c - 32 else c

theorem upper_ne_zero {c : UInt8} (h : c ≠ 0) : upper c ≠ 0 := by
  unfold upper
  split
  · rename_i hletter
    rw [Bool.and_eq_true, decide_eq_true_iff, decide_eq_true_iff] at hletter
    have hlo : 97 ≤ c.toNat := hletter.1
    have hhi : c.toNat ≤ 122 := hletter.2
    intro hzero
    have hsub := congrArg UInt8.toNat hzero
    simp only [UInt8.toNat_sub, UInt8.toNat_ofNat] at hsub
    omega
  · exact h

/-- `to_big_case` -/
def toBigCase (s : CString) : CString where
  bytes := s.bytes.map upper
  noNul := by
    intro h
    obtain ⟨c, hc, hzero⟩ := List.mem_map.mp h
    have hne : c ≠ 0 := by
      rintro rfl
      exact s.noNul hc
    exact upper_ne_zero hne hzero

/-- `process_redis_to_postgres`: the return code, `pg_answer`, and the store. -/
def processRedisToPostgres (flt : Faults) (p : Proxy) (commandArgv : List CString)
    (pgAnswer : Answer) : Option (Int × Answer × Proxy) :=
  match commandArgv with
  | [] => some (-1, pgAnswer, p)
  | name :: args =>
      let command := (toBigCase name).bytes
      if command = ascii "GET" then
        match args with
        | [] => processError p .wrongArgumentsCount
        | key :: _ => processGet flt p key pgAnswer
      else if command = ascii "SET" then
        match args with
        | [key, value] => processSet flt p key value pgAnswer
        | _ => processError p .wrongArgumentsCount
      else if command = ascii "DEL" then
        if args = [] then processError p .wrongArgumentsCount
        else processDel flt p args pgAnswer
      else if command = ascii "COMMAND" then some (0, pgAnswer, p)
      else if command = ascii "PING" then processPing p
      else processError p .commandNotFound

/-! ## The replies in terms of the three maps -/

/-- The reply to a GET. -/
def GetReply.toReply (r : GetReply) : Reply :=
  match r.value with
  | some value => .bulk value.bytes
  | none => .nil

/-- The number of successful deletions of a list of keys. -/
def Tiers.delAll (r : DumpStatus) (t : Tiers) : List CString → Nat × Tiers
  | [] => (0, t)
  | key :: keys =>
      let (res, t) := t.del r key
      let (n, t) := Tiers.delAll r t keys
      ((if res = .ok then 1 else 0) + n, t)

/-- A request as the command it is. -/
inductive Command where
  | get (key : CString)
  | set (key value : CString)
  | del (keys : List CString)
  | command
  | ping
  | invalid (type : ErrorType)

/-- The command that a request asks for. -/
def Command.of (name : CString) (args : List CString) : Command :=
  let command := (toBigCase name).bytes
  if command = ascii "GET" then
    match args with
    | [] => .invalid .wrongArgumentsCount
    | key :: _ => .get key
  else if command = ascii "SET" then
    match args with
    | [key, value] => .set key value
    | _ => .invalid .wrongArgumentsCount
  else if command = ascii "DEL" then
    if args = [] then .invalid .wrongArgumentsCount else .del args
  else if command = ascii "COMMAND" then .command
  else if command = ascii "PING" then .ping
  else .invalid .commandNotFound

/-- The `process…` function of a command. -/
def Command.process (flt : Faults) (p : Proxy) (pgAnswer : Answer) :
    Command → Option (Int × Answer × Proxy)
  | .get key => processGet flt p key pgAnswer
  | .set key value => processSet flt p key value pgAnswer
  | .del keys => processDel flt p keys pgAnswer
  | .command => some (0, pgAnswer, p)
  | .ping => processPing p
  | .invalid type => processError p type

/-- The name and the number of arguments choose the function. -/
theorem processRedisToPostgres_eq_process (flt : Faults) (p : Proxy) (name : CString)
    (args : List CString) (pgAnswer : Answer) :
    processRedisToPostgres flt p (name :: args) pgAnswer =
      (Command.of name args).process flt p pgAnswer := by
  -- both sides test the names in the same order
  unfold processRedisToPostgres Command.of
  by_cases hget : (toBigCase name).bytes = ascii "GET"
  · simp only [hget, if_true]
    cases args <;> rfl
  simp only [hget, if_false]
  by_cases hset : (toBigCase name).bytes = ascii "SET"
  · simp only [hset, if_true]
    rcases args with _ | ⟨key, _ | ⟨value, _ | ⟨extra, args⟩⟩⟩ <;> rfl
  simp only [hset, if_false]
  by_cases hdel : (toBigCase name).bytes = ascii "DEL"
  · simp only [hdel, if_true]
    by_cases hargs : args = [] <;> simp [hargs, Command.process]
  simp only [hdel, if_false]
  by_cases hcommand : (toBigCase name).bytes = ascii "COMMAND"
  · simp [hcommand, Command.process]
  simp only [hcommand, if_false]
  by_cases hping : (toBigCase name).bytes = ascii "PING" <;> simp [hping, Command.process]

theorem Command.of_eq_command_iff (name : CString) (args : List CString) :
    Command.of name args = .command ↔ (toBigCase name).bytes = ascii "COMMAND" := by
  have hget : ascii "GET" ≠ ascii "COMMAND" := by decide
  have hset : ascii "SET" ≠ ascii "COMMAND" := by decide
  have hdel : ascii "DEL" ≠ ascii "COMMAND" := by decide
  unfold Command.of
  by_cases h₁ : (toBigCase name).bytes = ascii "GET"
  · simp only [h₁, if_true, hget, iff_false]
    cases args <;> simp
  simp only [h₁, if_false]
  by_cases h₂ : (toBigCase name).bytes = ascii "SET"
  · simp only [h₂, if_true, hset, iff_false]
    rcases args with _ | ⟨key, _ | ⟨value, _ | ⟨extra, args⟩⟩⟩ <;> simp
  simp only [h₂, if_false]
  by_cases h₃ : (toBigCase name).bytes = ascii "DEL"
  · simp only [h₃, if_true, hdel, iff_false]
    by_cases hargs : args = [] <;> simp [hargs]
  simp only [h₃, if_false]
  by_cases h₄ : (toBigCase name).bytes = ascii "COMMAND"
  · simp [h₄]
  simp only [h₄, if_false, iff_false]
  by_cases h₅ : (toBigCase name).bytes = ascii "PING" <;> simp [h₅]

/-- The reply to a command, and what it does to the maps. `COMMAND` has no reply of its own. -/
def Tiers.serve (r : DumpStatus) (t : Tiers) : Command → Option (Reply × Tiers)
  | .get key => some ((t.get r key).1.toReply, (t.get r key).2)
  | .set key value => some (.simple (ascii "OK"), t.set r key value)
  | .del keys => some (.int (t.delAll r keys).1, (t.delAll r keys).2)
  | .command => none
  | .ping => some (.simple (ascii "PONG"), t)
  | .invalid type => some (.error type.message, t)

theorem Proxy.Refines.refl {p : Proxy} (hp : p.Inv) : p.Refines p p.tiers :=
  ⟨hp, rfl, rfl⟩

theorem Proxy.Refines.trans {p p₁ p₂ : Proxy} {t₁ t₂ : Tiers} (h₁ : p.Refines p₁ t₁)
    (h₂ : p₁.Refines p₂ t₂) : p.Refines p₂ t₂ :=
  ⟨h₂.inv, h₂.cachingRegime_eq.trans h₁.cachingRegime_eq, h₂.tiers_eq⟩

/-- A reply of `get_value` or of the cache is either a value with its length or `NON`. -/
theorem Tiers.get_reply (r : DumpStatus) (t : Tiers) (key : CString) :
    (∃ value, (t.get r key).1 = .of (some value)) ∨
      (t.get r key).1.res = .non ∧ (t.get r key).1.value = none := by
  have hstored : (∃ value, GetReply.of (stored t.db key) = .of (some value)) ∨
      (GetReply.of (stored t.db key)).res = .non ∧
        (GetReply.of (stored t.db key)).value = none := by
    cases stored t.db key with
    | none => exact .inr ⟨rfl, rfl⟩
    | some value => exact .inl ⟨value, rfl⟩
  unfold Tiers.get
  split
  · cases t.cache key with
    | none => exact hstored
    | some entry =>
        cases entry with
        | none => exact .inr ⟨rfl, rfl⟩
        | some value => exact .inl ⟨value, rfl⟩
  · exact hstored

theorem Tiers.del_ne_errReq (r : DumpStatus) (t : Tiers) (key : CString) :
    (t.del r key).1 ≠ .errReq := by
  have hbelow : (t.delBelow key).1 ≠ .errReq := by
    unfold delBelow
    split <;> exact deleted_ne_errReq _
  unfold del
  split
  · cases r with
    | noCache => exact deleted_ne_errReq _
    | getCache => exact deleted_ne_errReq _
    | onlyCache => exact hbelow
    | defferDump => exact hbelow
  · exact deleted_ne_errReq _

/-! ## Results -/

/-- `process_get` behind `req_get`, which returned `res` and set `value` and `length_value`. -/
def answerGet (res : ReqResult) (value : Option Block) (lengthValue : Nat) (pgAnswer : Answer) :
    Option (Int × Answer) :=
  if res = .non then some (0, ⟨some (Block.ofBytes [3]), 1⟩)
  else if res = .errReq then some (-1, pgAnswer)
  else do
    let value ← value
    let sizePgAnswer := lengthValue + 1
    let answer ← (Block.alloc sizePgAnswer).write? 0 (Block.ofBytes [3])
    let answer ← Block.copy? answer 1 value 0 lengthValue
    some (0, ⟨some answer, sizePgAnswer⟩)

theorem processGet_eq_answerGet (flt : Faults) (p : Proxy) (key : CString) (pgAnswer : Answer) :
    processGet flt p key pgAnswer =
      (answerGet (reqGet flt p key).1.res
        ((reqGet flt p key).1.value.map fun value => Block.ofBytes value.buffer)
        (reqGet flt p key).1.length pgAnswer).map fun (rc, answer) =>
          (rc, answer, (reqGet flt p key).2) := by
  unfold processGet answerGet
  generalize reqGet flt p key = result
  obtain ⟨⟨res, value, length⟩, p'⟩ := result
  cases res with
  | non => rfl
  | errReq => rfl
  | ok =>
      cases value with
      | none => rfl
      | some value =>
          simp only [reduceCtorEq, if_false, Option.bind_eq_bind, Option.bind_some, Option.map_some,
            Option.map_bind, Function.comp_def]

/-- A value whose length counts its terminator becomes the result for a bulk string, whatever bytes
it has. -/
theorem answerGet_ok (bytes : List UInt8) (pgAnswer : Answer) :
    answerGet .ok (some (Block.ofBytes (bytes ++ [0]))) (bytes.length + 1) pgAnswer =
      some (0, .of [] (.bulk bytes)) := by
  obtain ⟨b₁, hcode, hb₁⟩ := (Block.holds_alloc (bytes.length + 1 + 1)).write 0 [3] rfl (by simp)
  obtain ⟨b₂, hvalue, hb₂⟩ := hb₁.write 1 (bytes ++ [0]) rfl (by simp)
  have hfull : b₂ = Block.ofBytes (3 :: bytes ++ [0]) := by
    apply Block.Holds.eq_ofBytes
    simpa using hb₂
  have hread := Block.read_all_ofBytes (bytes ++ [0])
  rw [List.length_append, List.length_singleton] at hread
  have hcopy : Block.copy? b₁ 1 (Block.ofBytes (bytes ++ [0])) 0 (bytes.length + 1 : Nat) =
      some b₂ := by
    rw [Block.copy?, if_neg (by omega), Int.toNat_natCast, hread, hvalue]
  simp only [answerGet, reduceCtorEq, if_false, Option.bind_eq_bind, Option.bind_some, hcode, hcopy,
    hfull]
  rfl

/-- `process_error` -/
def answerError (type : ErrorType) : Option (Int × Answer) := do
  let answer ← (Block.alloc maxErrorSize).write? 0 (Block.ofBytes (1 :: type.message))
  some (0, ⟨some answer, 1 + type.message.length⟩)

theorem processError_eq_answerError (p : Proxy) (type : ErrorType) :
    processError p type = (answerError type).map fun (rc, answer) => (rc, answer, p) := by
  unfold processError answerError
  cases (Block.alloc maxErrorSize).write? 0 (Block.ofBytes (1 :: type.message)) with
  | none => rfl
  | some answer => rfl

theorem answerError_eq (type : ErrorType) :
    ∃ rest, answerError type = some (0, .of rest (.error type.message)) := by
  have hroom : (1 :: type.message).length ≤ maxErrorSize := by
    cases type <;> decide
  obtain ⟨b, hwrite, rest, rfl, -⟩ :=
    (Block.holds_alloc maxErrorSize).write 0 (1 :: type.message) rfl hroom
  refine ⟨rest, ?_⟩
  simp only [answerError, hwrite, Option.bind_eq_bind, Option.bind_some, Answer.of,
    List.nil_append, Option.some.injEq, Prod.mk.injEq, Answer.mk.injEq, true_and]
  omega

section Refinement

variable {p : Proxy} (hp : p.Inv)
include hp

theorem processGet_refines (key : CString) :
    ∃ p', (∀ pgAnswer, processGet .none p key pgAnswer =
        some (0, .of [] (p.tiers.get p.cachingRegime key).1.toReply, p')) ∧
      p.Refines p' (p.tiers.get p.cachingRegime key).2 := by
  obtain ⟨hreply, hrefines⟩ := reqGet_refines hp key
  refine ⟨_, ?_, hrefines⟩
  intro pgAnswer
  rw [processGet_eq_answerGet, hreply]
  rcases Tiers.get_reply p.cachingRegime p.tiers key with ⟨value, hvalue⟩ | ⟨hres, hvalue⟩
  · have hok := answerGet_ok value.bytes pgAnswer
    rw [hvalue]
    show (answerGet .ok (some (Block.ofBytes (value.bytes ++ [0]))) (value.bytes.length + 1)
      pgAnswer).map _ = _
    rw [hok]
    rfl
  · rw [hres, hvalue, GetReply.toReply, hvalue]
    rfl

theorem processSet_refines (key value : CString) :
    ∃ p', (∀ pgAnswer, processSet .none p key value pgAnswer =
        some (0, .of [] (.simple (ascii "OK")), p')) ∧
      p.Refines p' (p.tiers.set p.cachingRegime key value) := by
  obtain ⟨p', hset, hrefines⟩ := reqSet_refines hp key value
  refine ⟨p', ?_, hrefines⟩
  simp [processSet, hset, Answer.of, ascii]

theorem delKeys_refines (keys : List CString) (n : Nat) :
    ∃ p', delKeys .none p n keys = some (0, n + (p.tiers.delAll p.cachingRegime keys).1, p') ∧
      p.Refines p' (p.tiers.delAll p.cachingRegime keys).2 := by
  induction keys generalizing p n with
  | nil => exact ⟨p, rfl, .refl hp⟩
  | cons key keys ih =>
      obtain ⟨p₁, hdel, hrefines₁⟩ := reqDel_refines hp key
      have hres : (p.tiers.del p.cachingRegime key).1 ≠ .errReq :=
        Tiers.del_ne_errReq p.cachingRegime p.tiers key
      obtain ⟨p₂, hkeys, hrefines₂⟩ := ih hrefines₁.inv
        (if (p.tiers.del p.cachingRegime key).1 = .ok then n + 1 else n)
      rw [hrefines₁.cachingRegime_eq, hrefines₁.tiers_eq] at hkeys hrefines₂
      refine ⟨p₂, ?_, hrefines₁.trans hrefines₂⟩
      simp only [delKeys, hdel, Option.bind_eq_bind, Option.bind_some, hres, if_false, hkeys,
        Tiers.delAll, Option.some.injEq, Prod.mk.injEq, true_and, and_true]
      split <;> omega

theorem processDel_refines (keys : List CString) :
    ∃ p', (∀ pgAnswer, processDel .none p keys pgAnswer =
        some (0, .of [] (.int (p.tiers.delAll p.cachingRegime keys).1), p')) ∧
      p.Refines p' (p.tiers.delAll p.cachingRegime keys).2 := by
  obtain ⟨p', hkeys, hrefines⟩ := delKeys_refines hp keys 0
  refine ⟨p', ?_, hrefines⟩
  simp [processDel, hkeys, Answer.of]

omit hp in
theorem processError_eq (type : ErrorType) :
    ∃ rest, processError p type = some (0, .of rest (.error type.message), p) := by
  obtain ⟨rest, herror⟩ := answerError_eq type
  exact ⟨rest, by rw [processError_eq_answerError, herror]; rfl⟩

/-- Every command but `COMMAND` sets the result that stands for its own reply, whatever
`pg_answer` was before. -/
theorem processRedisToPostgres_refines (name : CString) (args : List CString) {reply : Reply}
    {t : Tiers} (hserve : p.tiers.serve p.cachingRegime (.of name args) = some (reply, t)) :
    ∃ rest p', (∀ pgAnswer, processRedisToPostgres .none p (name :: args) pgAnswer =
        some (0, .of rest reply, p')) ∧ p.Refines p' t := by
  simp only [processRedisToPostgres_eq_process]
  cases hcommand : Command.of name args with
  | get key =>
      rw [hcommand] at hserve
      cases hserve
      exact ⟨[], processGet_refines hp key⟩
  | set key value =>
      rw [hcommand] at hserve
      cases hserve
      exact ⟨[], processSet_refines hp key value⟩
  | del keys =>
      rw [hcommand] at hserve
      cases hserve
      exact ⟨[], processDel_refines hp keys⟩
  | command =>
      -- a `COMMAND` asks for no reply
      rw [hcommand] at hserve
      cases hserve
  | ping =>
      rw [hcommand] at hserve
      cases hserve
      exact ⟨[], p, by simp [Command.process, processPing, Answer.of, ascii], .refl hp⟩
  | invalid type =>
      rw [hcommand] at hserve
      obtain ⟨rest, hrest⟩ := @processError_eq p type
      cases hserve
      exact ⟨rest, p, fun _ => hrest, .refl hp⟩

omit hp in
/-- `COMMAND` leaves `pg_answer` as it was. -/
theorem processRedisToPostgres_command {name : CString}
    (hcommand : (toBigCase name).bytes = ascii "COMMAND") (args : List CString)
    (pgAnswer : Answer) :
    processRedisToPostgres .none p (name :: args) pgAnswer = some (0, pgAnswer, p) := by
  rw [processRedisToPostgres_eq_process, (Command.of_eq_command_iff name args).mpr hcommand,
    Command.process]

end Refinement

/-- `COMMAND` is the only command without a reply. -/
theorem Tiers.serve_eq_none_iff (r : DumpStatus) (t : Tiers) (name : CString)
    (args : List CString) :
    t.serve r (.of name args) = none ↔ (toBigCase name).bytes = ascii "COMMAND" := by
  rw [← Command.of_eq_command_iff name args]
  cases Command.of name args <;> simp [Tiers.serve]

end PgRedisProxy
