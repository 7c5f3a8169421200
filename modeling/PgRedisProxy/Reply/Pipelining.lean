import PgRedisProxy.Reply.RedisReqvConverter
import PgRedisProxy.Socket.Decoding

/-!
# One request, one reply (the loop body of `on_read_cb`)

The locals `pg_answer` and `rd_answer` live as long as one read event, and each request
of the event finds what the one before it left in them. `Service.serve` processes one
command and queues its reply, and `serviceHandler` does so for a complete request. Here
every statement succeeds; `workerHandler` of `Server.Worker` is the handling over a
database whose statements may fail, and a failure is the end of the worker there.
-/

namespace PgRedisProxy

open CLang Resp

/-- The locals of `on_read_cb`, the store, and the replies queued in this read event. -/
structure Service where
  pgAnswer : Answer
  rdAnswer : Answer
  proxy : Proxy
  replies : List Answer

/-- One command: process it, turn its result into a reply, and queue the reply. The flag is false
when `on_read_cb` returns after an error. -/
def Service.serve (s : Service) (commandArgv : List CString) : Option (Bool × Service) := do
  let (rc, pgAnswer, proxy) ← processRedisToPostgres .none s.proxy commandArgv s.pgAnswer
  let s := { s with pgAnswer := pgAnswer, proxy := proxy }
  if rc = -1 then some (false, s)
  else do
    let (rc, rdAnswer) ← defineTypeReq s.pgAnswer s.rdAnswer
    let s := { s with rdAnswer := rdAnswer }
    if rc = -1 then some (false, s)
    else some (true, { s with replies := s.replies ++ [rdAnswer] })

/-- A command: its name and its arguments. -/
abbrev Call := CString × List CString

/-- `command_argv`, with at least the name. -/
def Call.argv (c : Call) : List CString :=
  c.1 :: c.2

/-- The name is `COMMAND` in some letter case. -/
def Call.IsCommand (c : Call) : Prop :=
  (toBigCase c.1).bytes = ascii "COMMAND"

instance (c : Call) : Decidable c.IsCommand :=
  inferInstanceAs (Decidable (_ = _))

/-- A command other than `COMMAND` queues its own reply, whatever the locals held before. -/
theorem serve_own {p : Proxy} (hp : p.Inv) {c : Call} (hc : ¬ c.IsCommand) :
    ∃ reply t p', p.tiers.serve p.cachingRegime (.of c.1 c.2) = some (reply, t) ∧
      p.Refines p' t ∧
      ∃ rest, ∀ (pgAnswer rdAnswer : Answer) (replies : List Answer),
        Service.serve ⟨pgAnswer, rdAnswer, p, replies⟩ c.argv =
          some (true, ⟨.of rest reply, .bytes (shown reply).encode, p',
            replies ++ [.bytes (shown reply).encode]⟩) := by
  have hsome := mt (Tiers.serve_eq_none_iff p.cachingRegime p.tiers c.1 c.2).mp hc
  obtain ⟨⟨reply, t⟩, hserve⟩ := Option.ne_none_iff_exists'.mp hsome
  obtain ⟨rest, p', hprocess, hrefines⟩ := processRedisToPostgres_refines hp c.1 c.2 hserve
  refine ⟨reply, t, p', hserve, hrefines, rest, fun pgAnswer rdAnswer replies => ?_⟩
  simp [Service.serve, Call.argv, hprocess, defineTypeReq_of]

/-- The C string an argument is read as: its bytes before the first NUL. -/
def cut (argument : List UInt8) : CString where
  bytes := argument.takeWhile (· != 0)
  noNul := by
    intro hzero
    have hall := List.all_eq_true.mp (List.all_takeWhile (p := (· != 0)) (l := argument)) 0 hzero
    simp at hall

/-- What `on_read_cb` does with a complete request: an argument that is not set or not terminated
cannot be read, and after an error the worker does not come back. -/
def serviceHandler : Handler (Answer × Answer) (Proxy × List Answer) where
  fresh := (.null, .null)
  serve := fun (pgAnswer, rdAnswer) (p, replies) d => do
    let commandArgv ← d.argv.mapM fun slot => slot.bind Block.cstr
    let (goOn, s) ← Service.serve ⟨pgAnswer, rdAnswer, p, replies⟩ commandArgv
    if goOn then some ((s.pgAnswer, s.rdAnswer), (s.proxy, s.replies)) else none

/-- The command of a request. -/
def commandOf (name : List UInt8) (args : List (List UInt8)) : Call :=
  (cut name, args.map cut)

/-- The request is a `COMMAND`, in some letter case. -/
def IsCommand : Request → Prop
  | [] => False
  | name :: args => (commandOf name args).IsCommand

instance : DecidablePred IsCommand
  | [] => isFalse id
  | name :: args => inferInstanceAs (Decidable (commandOf name args).IsCommand)

/-- A terminated argument begins with the string it is read as. -/
theorem exists_cut_append (argument : List UInt8) :
    ∃ rest, argument ++ [0] = (cut argument).buffer ++ rest := by
  induction argument with
  | nil => exact ⟨[], rfl⟩
  | cons c argument ih =>
      by_cases hc : c = 0
      · exact ⟨argument ++ [0], by simp [cut, CString.buffer, hc]⟩
      · obtain ⟨rest, hrest⟩ := ih
        refine ⟨rest, ?_⟩
        simp only [cut, CString.buffer] at hrest
        simp [cut, CString.buffer, hc, hrest]

/-- An argument is read up to its first NUL. -/
theorem cstr_argSlot (argument : List UInt8) :
    (argSlot argument).bind Block.cstr = some (cut argument) := by
  obtain ⟨rest, hrest⟩ := exists_cut_append argument
  rw [argSlot, hrest, Block.ofBytes_append]
  exact Block.cstr_buffer _ _

theorem mapM_argSlot (args : List (List UInt8)) :
    ((args.map argSlot).mapM fun slot => slot.bind Block.cstr) = some (args.map cut) := by
  induction args with
  | nil => rfl
  | cons argument args ih => simp [cstr_argSlot, ih]

/-- The command of a request is served. -/
theorem serviceHandler_deliver (pgAnswer rdAnswer : Answer) (p : Proxy) (replies : List Answer)
    (name : List UInt8) (args : List (List UInt8)) :
    serviceHandler.serve (pgAnswer, rdAnswer) (p, replies) (deliver (name :: args)) =
      (Service.serve ⟨pgAnswer, rdAnswer, p, replies⟩ (commandOf name args).argv).bind fun next =>
        if next.1 then some ((next.2.pgAnswer, next.2.rdAnswer), (next.2.proxy, next.2.replies))
        else none := by
  have hargv := mapM_argSlot (name :: args)
  simp only [serviceHandler, deliver, hargv, Option.bind_eq_bind, Option.bind_some]
  rfl

/-- The worker comes back from the request of such a command. -/
theorem serviceHandler_own {p : Proxy} (hp : p.Inv) {name : List UInt8} {args : List (List UInt8)}
    (hcommand : ¬ (commandOf name args).IsCommand) :
    ∃ reply t p' rest,
      p.tiers.serve p.cachingRegime (.of (cut name) (args.map cut)) = some (reply, t) ∧
      p.Refines p' t ∧
      ∀ (pgAnswer rdAnswer : Answer) (replies : List Answer),
        serviceHandler.serve (pgAnswer, rdAnswer) (p, replies) (deliver (name :: args)) =
          some ((.of rest reply, .bytes (shown reply).encode),
            (p', replies ++ [.bytes (shown reply).encode])) := by
  obtain ⟨reply, t, p', hserve, hrefines, rest, hreply⟩ := serve_own hp hcommand
  refine ⟨reply, t, p', rest, hserve, hrefines, fun pgAnswer rdAnswer replies => ?_⟩
  rw [serviceHandler_deliver, hreply]
  rfl

end PgRedisProxy
