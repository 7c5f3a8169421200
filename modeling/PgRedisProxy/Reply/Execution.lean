import PgRedisProxy.Reply.RedisReqvConverter
import PgRedisProxy.Store.Intended

/-!
# Commands whose statements may fail

`processRedisToPostgresOn` is `process_redis_to_postgres` over a database whose statements
may fail, with the sizes of a result as `int`s. `Proxy.serveOn` is the reply a command gets
from the state it meets, and `Order.process_eq_serveOn` relates the two.
`Proxy.Succeeds` says of that state when there is a reply, and `Order.process_intended`
that the command does what `processRedisToPostgres` says where the statements have the
effects they are meant to have.
-/

namespace PgRedisProxy

open CLang KeyValue Resp

/-- `process_get` behind `req_get`. The sizes are `int`s. -/
def answerGetOn (r : GetReply) (pgAnswer : Answer) : Option (Int × Answer) :=
  if r.res = .non then some (0, ⟨some (Block.ofBytes [3]), 1⟩)
  else if r.res = .errReq then some (-1, pgAnswer)
  else do
    let value ← r.value
    let lengthValue := wrap32 r.length
    let sizePgAnswer := wrap32 (lengthValue + 1)
    let answer ← Block.malloc sizePgAnswer
    let answer ← answer.write? 0 (Block.ofBytes [3])
    let answer ← Block.copy? answer 1 (Block.ofBytes value.buffer) 0 lengthValue
    some (0, ⟨some answer, sizePgAnswer⟩)

/-- `process_get` -/
def processGetOn (D : Database) (p : Proxy) (key : Argument) (pgAnswer : Answer) :
    Option (Int × Answer × Proxy) := do
  let (r, p) ← reqGetOn D p key
  let (rc, answer) ← answerGetOn r pgAnswer
  some (rc, answer, p)

/-- `process_set` -/
def processSetOn (D : Database) (p : Proxy) (key : Argument) (value : CString)
    (pgAnswer : Answer) : Option (Int × Answer × Proxy) := do
  let (res, p) ← reqSetOn D p key value
  if res = .errReq then some (-1, pgAnswer, p)
  else some (0, ⟨some (Block.ofBytes ([0] ++ ascii "OK" ++ [0])), 4⟩, p)

/-- The loop of `process_del` over the keys. -/
def delKeysOn (D : Database) (p : Proxy) (successfulDeletions : Nat) :
    List Argument → Option (Int × Nat × Proxy)
  | [] => some (0, successfulDeletions, p)
  | key :: keys => do
      let (res, p) ← reqDelOn D p key
      if res = .errReq then some (-1, successfulDeletions, p)
      else
        delKeysOn D p (if res = .ok then successfulDeletions + 1 else successfulDeletions) keys

/-- `process_del` -/
def processDelOn (D : Database) (p : Proxy) (keys : List Argument) (pgAnswer : Answer) :
    Option (Int × Answer × Proxy) := do
  let (rc, successfulDeletions, p) ← delKeysOn D p 0 keys
  if rc = -1 then some (-1, pgAnswer, p)
  else
    let num := decimal successfulDeletions
    some (0, ⟨some (Block.ofBytes (2 :: num)), num.length + 1⟩, p)

/-- `process_redis_to_postgres` -/
def processRedisToPostgresOn (D : Database) (p : Proxy) (commandArgv : List Argument)
    (pgAnswer : Answer) : Option (Int × Answer × Proxy) :=
  match commandArgv with
  | [] => some (-1, pgAnswer, p)
  | name :: args =>
      let command := (toBigCase name.text).bytes
      if command = ascii "GET" then
        match args with
        | [] => processError p .wrongArgumentsCount
        | key :: _ => processGetOn D p key pgAnswer
      else if command = ascii "SET" then
        match args with
        | [key, value] => processSetOn D p key value.text pgAnswer
        | _ => processError p .wrongArgumentsCount
      else if command = ascii "DEL" then
        if args = [] then processError p .wrongArgumentsCount
        else processDelOn D p args pgAnswer
      else if command = ascii "COMMAND" then some (0, pgAnswer, p)
      else if command = ascii "PING" then processPing p
      else processError p .commandNotFound

/-! ## The replies -/

/-- A request as the command it is, whose keys come with the memory behind them. -/
inductive Order where
  | get (key : Argument)
  | set (key : Argument) (value : CString)
  | del (keys : List Argument)
  | command
  | ping
  | invalid (type : ErrorType)

/-- The command that a request asks for. -/
def Order.of (name : Argument) (args : List Argument) : Order :=
  let command := (toBigCase name.text).bytes
  if command = ascii "GET" then
    match args with
    | [] => .invalid .wrongArgumentsCount
    | key :: _ => .get key
  else if command = ascii "SET" then
    match args with
    | [key, value] => .set key value.text
    | _ => .invalid .wrongArgumentsCount
  else if command = ascii "DEL" then
    if args = [] then .invalid .wrongArgumentsCount else .del args
  else if command = ascii "COMMAND" then .command
  else if command = ascii "PING" then .ping
  else .invalid .commandNotFound

/-- The command without the memory behind its keys. -/
def Order.toCommand : Order → Command
  | .get key => .get key.text
  | .set key value => .set key.text value
  | .del keys => .del (keys.map Argument.text)
  | .command => .command
  | .ping => .ping
  | .invalid type => .invalid type

theorem Order.toCommand_of (name : Argument) (args : List Argument) :
    (Order.of name args).toCommand = Command.of name.text (args.map Argument.text) := by
  -- both sides test the names in the same order
  unfold Order.of Command.of
  by_cases hget : (toBigCase name.text).bytes = ascii "GET"
  · simp only [hget, if_true]
    cases args <;> rfl
  simp only [hget, if_false]
  by_cases hset : (toBigCase name.text).bytes = ascii "SET"
  · simp only [hset, if_true]
    rcases args with _ | ⟨key, _ | ⟨value, _ | ⟨extra, args⟩⟩⟩ <;> rfl
  simp only [hset, if_false]
  by_cases hdel : (toBigCase name.text).bytes = ascii "DEL"
  · simp only [hdel, if_true]
    by_cases hargs : args = [] <;> simp [hargs, Order.toCommand]
  simp only [hdel, if_false]
  by_cases hcommand : (toBigCase name.text).bytes = ascii "COMMAND"
  · simp [hcommand, Order.toCommand]
  simp only [hcommand, if_false]
  by_cases hping : (toBigCase name.text).bytes = ascii "PING" <;> simp [hping, Order.toCommand]

theorem Order.toCommand_eq_command_iff {order : Order} :
    order.toCommand = .command ↔ order = .command := by
  cases order <;> simp [Order.toCommand]

theorem Order.of_eq_command_iff (name : Argument) (args : List Argument) :
    Order.of name args = .command ↔ (toBigCase name.text).bytes = ascii "COMMAND" := by
  rw [← Order.toCommand_eq_command_iff, Order.toCommand_of, Command.of_eq_command_iff]

/-- The `process…` function of a command. -/
def Order.process (D : Database) (p : Proxy) (pgAnswer : Answer) :
    Order → Option (Int × Answer × Proxy)
  | .get key => processGetOn D p key pgAnswer
  | .set key value => processSetOn D p key value pgAnswer
  | .del keys => processDelOn D p keys pgAnswer
  | .command => some (0, pgAnswer, p)
  | .ping => processPing p
  | .invalid type => processError p type

/-- The name and the number of arguments choose the function. -/
theorem processRedisToPostgresOn_eq_process (D : Database) (p : Proxy) (name : Argument)
    (args : List Argument) (pgAnswer : Answer) :
    processRedisToPostgresOn D p (name :: args) pgAnswer =
      (Order.of name args).process D p pgAnswer := by
  unfold processRedisToPostgresOn Order.of
  by_cases hget : (toBigCase name.text).bytes = ascii "GET"
  · simp only [hget, if_true]
    cases args <;> rfl
  simp only [hget, if_false]
  by_cases hset : (toBigCase name.text).bytes = ascii "SET"
  · simp only [hset, if_true]
    rcases args with _ | ⟨key, _ | ⟨value, _ | ⟨extra, args⟩⟩⟩ <;> rfl
  simp only [hset, if_false]
  by_cases hdel : (toBigCase name.text).bytes = ascii "DEL"
  · simp only [hdel, if_true]
    by_cases hargs : args = [] <;> simp [hargs, Order.process]
  simp only [hdel, if_false]
  by_cases hcommand : (toBigCase name.text).bytes = ascii "COMMAND"
  · simp [hcommand, Order.process]
  simp only [hcommand, if_false]
  by_cases hping : (toBigCase name.text).bytes = ascii "PING" <;> simp [hping, Order.process]

/-- The keys of a DEL, one after the other, with the number of those that were there. -/
def Proxy.delAllOn (D : Database) (p : Proxy) : List Argument → Option (Nat × Proxy)
  | [] => some (0, p)
  | key :: keys => do
      let (res, p) ← reqDelOn D p key
      let (n, p) ← p.delAllOn D keys
      some ((if res = .ok then 1 else 0) + n, p)

instance (r : GetReply) : Decidable r.FitsInt :=
  inferInstanceAs (Decidable (∀ value ∈ r.value, _))

/-- The reply to a command, and the state behind it. `COMMAND` has no reply of its own. -/
def Proxy.serveOn (D : Database) (p : Proxy) : Order → Option (Reply × Proxy)
  | .get key => do
      let (r, p) ← reqGetOn D p key
      if r.FitsInt then some (r.toReply, p) else none
  | .set key value => (reqSetOn D p key value).map fun a => (.simple (ascii "OK"), a.2)
  | .del keys => (p.delAllOn D keys).map fun a => (.int a.1, a.2)
  | .command => none
  | .ping => some (.simple (ascii "PONG"), p)
  | .invalid type => some (.error type.message, p)

/-- Each key of a DEL, in the state it meets, can be deleted. -/
def Proxy.DelAllSucceeds (D : Database) (p : Proxy) : List Argument → Prop
  | [] => True
  | key :: keys =>
      p.DelSucceeds D key ∧ ∀ a ∈ reqDelOn D p key, a.2.DelAllSucceeds D keys

/-- What a command sends can be formatted and executed, and what it writes to the cache stays inside
the cell. -/
def Proxy.Succeeds (D : Database) (p : Proxy) : Order → Prop
  | .get key => p.GetSucceeds D key
  | .set key value => p.SetSucceeds D key value
  | .del keys => p.DelAllSucceeds D keys
  | .command => True
  | .ping => True
  | .invalid _ => True

/-- A known reply whose size is an `int` becomes the result for it. -/
theorem answerGetOn_eq {r : GetReply} (hr : r.Known) (pgAnswer : Answer) :
    answerGetOn r pgAnswer = if r.FitsInt then some (0, .of [] r.toReply) else none := by
  rcases hr with ⟨value, rfl, hreceived⟩ | ⟨hres, hvalue⟩
  · by_cases hfits : value.strlen + 2 < 2 ^ 31
    · have hlength : wrap32 ((value.strlen + 1 : Nat) : Int) = (value.strlen + 1 : Nat) :=
        wrap32_of_range (by omega) (by omega)
      have hsize :
          wrap32 (((value.strlen + 1 : Nat) : Int) + 1) = (value.strlen + 1 + 1 : Nat) := by
        rw [wrap32_of_range (by omega) (by omega)]
        rfl
      have hok := answerGet_ok value.bytes pgAnswer
      have hmalloc : Block.malloc (value.strlen + 1 + 1 : Nat) =
          some (.alloc (value.strlen + 1 + 1)) := rfl
      have hfitsInt : (GetReply.of (some value)).FitsInt := by
        simpa [GetReply.of, GetReply.FitsInt] using hfits
      rw [if_pos hfitsInt]
      simp only [answerGetOn, GetReply.of, reduceCtorEq, if_false, Option.bind_eq_bind,
        Option.bind_some, hlength, hsize, hmalloc]
      simp only [answerGet, reduceCtorEq, if_false, Option.bind_eq_bind, Option.bind_some] at hok
      exact hok
    · have hlarge : ¬ (GetReply.of (some value)).FitsInt := by
        simpa [GetReply.of, GetReply.FitsInt] using hfits
      -- one of the two sizes wraps, and so there is no buffer
      have hmalloc :
          Block.malloc (wrap32 (wrap32 ((value.strlen + 1 : Nat) : Int) + 1)) = none := by
        have hlength : value.strlen = 2 ^ 31 - 2 ∨ value.strlen = 2 ^ 31 - 1 := by omega
        rcases hlength with hlength | hlength <;> rw [hlength] <;> decide
      rw [if_neg hlarge]
      simp only [answerGetOn, GetReply.of, reduceCtorEq, if_false, Option.bind_eq_bind,
        Option.bind_some, hmalloc, Option.bind_none]
  · have hfits : r.FitsInt := by simp [GetReply.FitsInt, hvalue]
    simp [answerGetOn, hres, hfits, GetReply.toReply, hvalue, Answer.of]

section Serve

variable {D : Database} {p p' : Proxy} (hp : p.Inv) {order : Order}
include hp

/-- The loop of a DEL counts the keys that were there. -/
theorem delKeysOn_eq (keys : List Argument) (n : Nat) :
    delKeysOn D p n keys = (p.delAllOn D keys).map fun a => (0, n + a.1, a.2) := by
  induction keys generalizing p n with
  | nil => rfl
  | cons key keys ih =>
      simp only [delKeysOn, Proxy.delAllOn, Option.bind_eq_bind]
      cases hdel : reqDelOn D p key with
      | none => rfl
      | some a =>
          obtain ⟨hkeeps, present, hres⟩ := reqDelOn_keeps hp hdel
          have hne : a.1 ≠ .errReq := by
            rw [hres]
            exact Tiers.deleted_ne_errReq present
          simp only [Option.bind_some, hne, if_false, ih hkeeps.inv]
          cases a.2.delAllOn D keys with
          | none => rfl
          | some b =>
              simp only [Option.map_some, Option.bind_some, Option.some.injEq, Prod.mk.injEq,
                true_and, and_true]
              split <;> omega

/-- Every command but `COMMAND` sets the result for its own reply, whatever `pg_answer` was
before. -/
theorem Order.process_eq_serveOn (horder : order ≠ .command) :
    ∃ rest, ∀ pgAnswer, order.process D p pgAnswer =
      (p.serveOn D order).map fun a => (0, .of rest a.1, a.2) := by
  cases order with
  | get key =>
      refine ⟨[], fun pgAnswer => ?_⟩
      simp only [Order.process, processGetOn, Proxy.serveOn, Option.bind_eq_bind]
      cases hget : reqGetOn D p key with
      | none => rfl
      | some a =>
          obtain ⟨-, hknown⟩ := reqGetOn_keeps hp hget
          simp only [Option.bind_some, answerGetOn_eq hknown]
          split <;> rfl
  | set key value =>
      refine ⟨[], fun pgAnswer => ?_⟩
      simp only [Order.process, processSetOn, Proxy.serveOn, Option.bind_eq_bind]
      cases hset : reqSetOn D p key value with
      | none => rfl
      | some a =>
          obtain ⟨-, hres⟩ := reqSetOn_keeps hp hset
          simp [hres, Answer.of, ascii]
  | del keys =>
      refine ⟨[], fun pgAnswer => ?_⟩
      simp only [Order.process, processDelOn, Proxy.serveOn, delKeysOn_eq hp]
      cases p.delAllOn D keys with
      | none => rfl
      | some a => simp [Answer.of]
  | command => exact absurd rfl horder
  | ping =>
      refine ⟨[], fun pgAnswer => ?_⟩
      simp [Order.process, processPing, Proxy.serveOn, Answer.of, ascii]
  | invalid type =>
      obtain ⟨rest, hrest⟩ := @processError_eq p type
      exact ⟨rest, fun pgAnswer => hrest⟩

/-- A DEL leaves a log in order. -/
theorem delAllOn_keeps {keys : List Argument} {n : Nat}
    (hdel : p.delAllOn D keys = some (n, p')) : p.Keeps p' := by
  induction keys generalizing p n with
  | nil =>
      cases hdel
      exact ⟨hp, rfl⟩
  | cons key keys ih =>
      simp only [Proxy.delAllOn, Option.bind_eq_bind, Option.bind_eq_some_iff, Prod.exists] at hdel
      obtain ⟨res, p₁, hkey, m, p₂, hkeys, heq⟩ := hdel
      cases heq
      obtain ⟨hkeeps, -⟩ := reqDelOn_keeps hp hkey
      have hrest := ih hkeeps.inv hkeys
      exact ⟨hrest.inv, hrest.cachingRegime_eq.trans hkeeps.cachingRegime_eq⟩

/-- A command that is served leaves a log in order. -/
theorem serveOn_keeps {reply : Reply} (hserve : p.serveOn D order = some (reply, p')) :
    p.Keeps p' := by
  cases order with
  | get key =>
      simp only [Proxy.serveOn, Option.bind_eq_bind, Option.bind_eq_some_iff, Prod.exists] at hserve
      obtain ⟨r, p₁, hget, heq⟩ := hserve
      split at heq
      · cases heq
        exact (reqGetOn_keeps hp hget).1
      · cases heq
  | set key value =>
      obtain ⟨a, hset, heq⟩ := Option.map_eq_some_iff.mp hserve
      cases heq
      exact (reqSetOn_keeps hp hset).1
  | del keys =>
      obtain ⟨a, hdel, heq⟩ := Option.map_eq_some_iff.mp hserve
      cases heq
      exact delAllOn_keeps hp hdel
  | command => cases hserve
  | ping =>
      cases hserve
      exact ⟨hp, rfl⟩
  | invalid type =>
      cases hserve
      exact ⟨hp, rfl⟩

theorem delAllOn_isSome_iff (keys : List Argument) :
    (p.delAllOn D keys).isSome ↔ p.DelAllSucceeds D keys := by
  induction keys generalizing p with
  | nil => simp [Proxy.delAllOn, Proxy.DelAllSucceeds]
  | cons key keys ih =>
      simp only [Proxy.delAllOn, Proxy.DelAllSucceeds, Option.bind_eq_bind,
        ← reqDelOn_isSome_iff hp]
      cases hdel : reqDelOn D p key with
      | none => simp
      | some a =>
          have hrest := ih (reqDelOn_keeps hp hdel).1.inv
          simp only [Option.bind_some, Option.isSome_some, true_and, Option.mem_def,
            Option.some_inj, forall_eq', ← hrest]
          cases a.2.delAllOn D keys <;> rfl

/-- When a command is served. -/
theorem serveOn_isSome_iff :
    (p.serveOn D order).isSome ↔ order ≠ .command ∧ p.Succeeds D order := by
  cases order with
  | get key =>
      simp only [Proxy.serveOn, Proxy.Succeeds, ← reqGetOn_fitsInt_iff, Option.bind_eq_bind]
      cases reqGetOn D p key with
      | none => simp
      | some a =>
          simp only [Option.bind_some, Option.mem_def, Option.some_inj, exists_eq_left', ne_eq,
            reduceCtorEq, not_false_eq_true, true_and]
          split <;> simp [*]
  | set key value => simp [Proxy.serveOn, Proxy.Succeeds, reqSetOn_isSome_iff hp]
  | del keys => simp [Proxy.serveOn, Proxy.Succeeds, delAllOn_isSome_iff hp]
  | command => simp [Proxy.serveOn]
  | ping => simp [Proxy.serveOn, Proxy.Succeeds]
  | invalid type => simp [Proxy.serveOn, Proxy.Succeeds]

end Serve

/-! ## Statements with the effects meant -/

/-- The store events of a command. -/
def Command.events : Command → List Event
  | .get key => [.get key]
  | .set key value => [.set key value]
  | .del keys => keys.map .del
  | .command | .ping | .invalid _ => []

/-- The size of the result is an `int`. -/
def Command.ResultFits (p : Proxy) : Command → Prop
  | .get key => (reqGet .none p key).1.FitsInt
  | .set _ _ | .del _ | .command | .ping | .invalid _ => True

instance (p : Proxy) : DecidablePred (Command.ResultFits p)
  | .get key => inferInstanceAs (Decidable (reqGet .none p key).1.FitsInt)
  | .set _ _ | .del _ | .command | .ping | .invalid _ => .isTrue trivial

section Intended

variable {D : Database} {Q : CString → Prop} (hD : D.Intends Q) {p : Proxy} (hp : p.Inv)
include hD hp

theorem processGetOn_intended {key : Argument} (hkey : (Event.get key.text).Sendable Q)
    (pgAnswer : Answer) :
    processGetOn D p key pgAnswer =
      if (reqGet .none p key.text).1.FitsInt then processGet .none p key.text pgAnswer
      else none := by
  have hget := reqGetOn_intended hD hkey (p := p)
  rw [processGet_eq_answerGet]
  unfold processGetOn
  by_cases hreceived : (reqGet .none p key.text).1.Received
  · rw [if_pos hreceived] at hget
    have hkeeps : p.Keeps (reqGet .none p key.text).2 ∧ (reqGet .none p key.text).1.Known :=
      reqGetOn_keeps hp hget
    rw [hget]
    simp only [Option.bind_eq_bind, Option.bind_some, answerGetOn_eq hkeeps.2]
    split
    · rcases hkeeps.2 with ⟨value, hvalue, -⟩ | ⟨hres, hvalue⟩
      · have hok : answerGet .ok (some (Block.ofBytes value.buffer)) (value.strlen + 1) pgAnswer =
            some (0, .of [] (.bulk value.bytes)) := answerGet_ok value.bytes pgAnswer
        simp [hvalue, GetReply.of, GetReply.toReply, hok]
      · simp [hres, hvalue, answerGet, GetReply.toReply, Answer.of]
    · rfl
  · have hlarge : ¬ (reqGet .none p key.text).1.FitsInt := by
      intro hfits
      refine hreceived fun value hvalue => ?_
      have hlength := hfits value hvalue
      omega
    rw [hget, if_neg hreceived, if_neg hlarge]
    rfl

theorem delKeysOn_intended {keys : List Argument} (hwaits : p.Waits Q)
    (hkeys : ∀ key ∈ keys, (Event.del key.text).Sendable Q) (n : Nat) :
    delKeysOn D p n keys = delKeys .none p n (keys.map Argument.text) := by
  induction keys generalizing p n with
  | nil => rfl
  | cons key keys ih =>
      obtain ⟨p', hdel, hrefines⟩ := reqDel_refines hp key.text
      have hkey := hkeys key List.mem_cons_self
      have hwaits' : p'.Waits Q :=
        @Proxy.Waits.after Q p p' hwaits [.del key.text] (by simpa using hkey) hrefines
      simp only [delKeysOn, delKeys, List.map_cons, reqDelOn_intended hD hp hwaits hkey, hdel,
        Option.bind_eq_bind, Option.bind_some]
      split
      · rfl
      · exact ih hrefines.inv hwaits'
          (fun key' hkey' => hkeys key' (List.mem_cons_of_mem _ hkey')) _

/-- A command does what it is meant to, if its result has an `int` as its size. -/
theorem Order.process_intended {order : Order} (hwaits : p.Waits Q)
    (hevents : ∀ e ∈ order.toCommand.events, e.Sendable Q) (pgAnswer : Answer) :
    order.process D p pgAnswer =
      if order.toCommand.ResultFits p then order.toCommand.process .none p pgAnswer else none := by
  cases order with
  | get key =>
      have hget : (Event.get key.text).Sendable Q := by
        simpa [toCommand, Command.events] using hevents
      exact processGetOn_intended hD hp hget pgAnswer
  | set key value =>
      have hset : (Event.set key.text value).Sendable Q := by
        simpa [toCommand, Command.events] using hevents
      rw [if_pos (show (toCommand (.set key value)).ResultFits p from trivial)]
      simp only [process, toCommand, Command.process, processSetOn, processSet,
        reqSetOn_intended hD hp hwaits hset]
  | del keys =>
      have hkeys : ∀ key ∈ keys, (Event.del key.text).Sendable Q := by
        simpa [toCommand, Command.events] using hevents
      rw [if_pos (show (toCommand (.del keys)).ResultFits p from trivial)]
      simp only [process, toCommand, Command.process, processDelOn, processDel,
        delKeysOn_intended hD hp hwaits hkeys]
  | command => rfl
  | ping => rfl
  | invalid type => rfl

end Intended

end PgRedisProxy
