import PgRedisProxy.Base.Parties
import PgRedisProxy.Reply.Pipelining
import PgRedisProxy.Socket.WriteQueue

/-!
# The event loop and its connections (`redis_proxy.c`)

The worker serves many connections on one store. libev runs one callback at a time, so
that what the worker does is an interleaving of callbacks: `on_accept_cb` sets up a
connection, `on_read_cb` and `on_write_cb` serve it, and `on_timer_timeout_cb`
synchronizes the log. `serverRules` is what each of them does, and `Server.run` an
interleaving of them. Requests, syncs, and the bytes received are recorded in the order
they come in. What a disconnect does to memory is the subject of `Socket.Closing`; here
the connection is just gone.
-/

namespace PgRedisProxy

open CLang Parties

/-- What `on_read_cb` copies behind the bytes that wait: `size_rd_answer` bytes of `rd_answer`.
There is none of a size that is no `int`: it would have wrapped to a negative one, and `malloc`
failed. -/
def Answer.rdAnswer? (a : Answer) : Option RdAnswer := do
  let buffer ← a.buffer
  let bytes ← (buffer.read 0 a.size.toNat).mapM id
  if h : bytes.length < 2 ^ 31 then some ⟨bytes, h⟩ else none

/-- What `on_read_cb` does with a complete request on a connection: it serves the command and queues
the reply. -/
def connectionHandler : Handler (Answer × Answer) (Proxy × Output) where
  fresh := (.null, .null)
  serve := fun l (p, o) d => do
    let (l, p, _) ← serviceHandler.serve l (p, []) d
    let rdAnswer ← l.2.rdAnswer?
    let o ← o.step (.reply rdAnswer)
    some (l, (p, o))

/-- What the worker does to the store: it executes a request of a connection, or synchronizes the
log. -/
inductive Entry where
  | request (client : Nat) (d : Delivery)
  | sync
  deriving DecidableEq

/-- What all connections share: the store, with everything done to it so far. -/
structure Shared where
  proxy : Proxy
  history : List Entry

/-- `Tsocket_data`, whether the watcher for writing is started, and the bytes read so far. -/
structure Client where
  readData : TsocketReadData UInt8
  output : Output
  writing : Bool
  received : List UInt8

/-- What `on_accept_cb` allocates for a connection. -/
structure Allocated where
  readData : TsocketReadData UInt8
  length_eq : readData.readBuffer.length = bufferSize

/-- `on_accept_cb`, where `accept` and the allocations succeed. Members it does not set stay what
they were in the memory allocated. -/
def onAcceptCb (g : Allocated) : Client where
  readData :=
    { g.readData with
      parse :=
        { g.readData.parse with
          readStatus := .arrayWait
          argc := -1
          argv := none
          parsing := { g.readData.parse.parsing with parsingStr := none, parsingNum := 0 } }
      curBufferSize := 0
      exitStatus := .notAll }
  output := .start
  writing := false
  received := []

/-- What the event loop reports of a connection: these bytes wait to be read, and none if the client
has disconnected; an error; or it can be written to, and `write` will accept so many bytes. -/
inductive ClientEvent where
  | readable (bytes : List UInt8)
  | failed
  | writable (byteWrite : Nat)

/-- The read event of a connection, with the store that it finds. -/
def Client.conn (c : Client) (p : Proxy) : Conn UInt8 (Proxy × Output) :=
  ⟨c.readData, (p, c.output), [], []⟩

/-- `on_read_cb`, which handles complete requests with `h`. The watcher for writing is started if
bytes wait then. -/
def Client.readBy (h : Handler (Answer × Answer) (Proxy × Output)) (i : Nat) (bytes : List UInt8)
    (x : Shared) (c : Client) : Option (Shared × Member Client) :=
  match onReadCb id h (c.conn x.proxy) bytes with
  | (.finished, conn) =>
      some
        (⟨conn.host.1, x.history ++ conn.delivered.map (.request i)⟩,
          .present
            { readData := conn.readData
              output := conn.host.2
              writing := c.writing || decide (0 < conn.host.2.writeInfo.sizeAnswer)
              received := c.received ++ bytes.take (bufferSize - c.readData.curBufferSize) })
  | (.closed, _) => some (x, .left c)
  | (.stopped, _) => none
  | (.fault, _) => none

/-- `on_read_cb` on a store whose statements succeed. -/
def Client.onReadable (i : Nat) (bytes : List UInt8) (x : Shared) (c : Client) :
    Option (Shared × Member Client) :=
  c.readBy connectionHandler i bytes x

/-- `on_write_cb`, which is called while the watcher for writing is started, and stops it after a
complete write. A negative size is beyond any memory once it is converted to `size_t`. -/
def Client.onWritable (byteWrite : Nat) (c : Client) : Option Client :=
  if c.writing then
    if c.output.writeInfo.sizeAnswer < 0 then none
    else if c.output.Accepts (.writable byteWrite) then do
      let o ← c.output.step (.writable byteWrite)
      some { c with
        output := o
        writing := decide ((byteWrite : Int) ≠ c.output.writeInfo.sizeAnswer) }
    else some c
  else some c

/-- The callbacks of a connection. A connection that fails is `left`, with nothing said of what the
worker does to memory then: `Socket.Closing` has the write behind a `free`, and runs are meant up
to that. -/
def clientAct (i : Nat) : ClientEvent → Shared → Client → Option (Shared × Member Client)
  | .readable bytes, x, c => c.onReadable i bytes x
  | .failed, x, c => some (x, .left c)
  | .writable byteWrite, x, c => (c.onWritable byteWrite).map fun c => (x, .present c)

/-- `on_timer_timeout_cb`. Only under `DEFFER_DUMP` is there a timer. -/
def onTimerTimeoutCb (x : Shared) : Option Shared :=
  if x.proxy.cachingRegime = .defferDump then do
    let (_, p) ← syncWithDb .none x.proxy
    some ⟨p, x.history ++ [.sync]⟩
  else some x

/-- The callbacks of the event loop. Without a result the worker is gone. -/
def serverRules : Rules Nat Allocated ClientEvent Unit Shared Client where
  join := onAcceptCb
  act := clientAct
  change := fun _ => onTimerTimeoutCb

/-- A worker with its connections, each under a number of its own. -/
abbrev Server := System Nat Shared Client

/-- One callback of the event loop. -/
abbrev ServerEvent := Parties.Event Nat Allocated ClientEvent Unit

/-- A worker that starts on a database. -/
def Server.start (r : DumpStatus) (db : Hstore) : Server :=
  ⟨⟨Proxy.start r db, []⟩, fun _ => .absent⟩

/-- Callbacks in any order. -/
def Server.run (r : DumpStatus) (db : Hstore) (events : List ServerEvent) : Option Server :=
  Machine.runFrom serverRules.step (Server.start r db) events

/-! ## Read events -/

section Read

variable {α L H : Type*} {val : α → UInt8} {h : Handler L H} {c c' : Conn α H}

/-- In a loop that returns, the worker has come back from every request it handed over. -/
theorem readLoop_attempt {fuel : Nat} {l : L} (hread : readLoop val h fuel l c = (.finished, c')) :
    ∃ ds l', c'.delivered = c.delivered ++ ds ∧
      h.attempt l c.host ds = (ds, some (l', c'.host)) := by
  induction fuel generalizing l c with
  | zero =>
      cases hread
      exact ⟨[], l, by simp, rfl⟩
  | succ fuel ih =>
      simp only [readLoop] at hread
      split at hread
      · cases hread
      · split at hread
        · cases hread
          exact ⟨[], l, by simp, rfl⟩
        · cases hserve : h.serve l c.host
              (parseCliMes val (resetIfAll c.readData)).1.parse.delivery with
          | none => simp [hserve] at hread
          | some next =>
              simp only [hserve] at hread
              split at hread
              · obtain ⟨ds, l', hdelivered, hattempt⟩ := ih hread
                refine ⟨_ :: ds, l', by rw [hdelivered]; simp; rfl, ?_⟩
                simp only [Handler.attempt, hserve, hattempt]
              · cases hread
                exact ⟨[_], next.1, rfl, by simp only [Handler.attempt, hserve]⟩

/-- In a read event that returns, the worker has come back from every request it handed over, each
served on what the one before it left. -/
theorem onReadCb_attempt {bytes : List α} (hread : onReadCb val h c bytes = (.finished, c')) :
    ∃ ds l', c'.delivered = c.delivered ++ ds ∧
      h.attempt h.fresh c.host ds = (ds, some (l', c'.host)) := by
  unfold onReadCb at hread
  dsimp only at hread
  split at hread
  · cases hread
  · obtain ⟨ds, l', hdelivered, hattempt⟩ := readLoop_attempt hread
    exact ⟨ds, l', hdelivered, hattempt⟩

end Read

/-- What has been executed before a read event stays where it is in the order. -/
theorem Client.readBy_history {h : Handler (Answer × Answer) (Proxy × Output)} {i : Nat}
    {bytes : List UInt8} {x x' : Shared} {c : Client} {m : Member Client}
    (hact : c.readBy h i bytes x = some (x', m)) : x.history <+: x'.history := by
  unfold Client.readBy at hact
  split at hact
  · cases hact
    exact List.prefix_append _ _
  · cases hact
    exact List.prefix_rfl
  · cases hact
  · cases hact

end PgRedisProxy
