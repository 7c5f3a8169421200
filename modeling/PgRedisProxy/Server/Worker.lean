import PgRedisProxy.Reply.Execution
import PgRedisProxy.Server.Serial
import PgRedisProxy.Socket.Moves

/-!
# What the worker comes back from

`workerHandler` is what `on_read_cb` does with a complete request over a database whose
statements may fail. `ComesBack` says of a request and of what it meets that the worker comes
back from it, and `Owned` that it gets a reply of its own and the reply is put behind the
bytes that wait. `requests_delivered_iff` and `replies_alone_iff` are the main results:
requests are decoded in any chunking exactly if it comes back from all but the last, and every
command of a connection gets one reply, its own, exactly if all of them are owned.
-/

namespace PgRedisProxy

open CLang KeyValue Parties Resp

/-- The string at the beginning of a block, with what the block holds behind its terminator. -/
def argumentAt (b : Block) : Option Argument :=
  b.cstr.map fun text => ⟨text, (b.drop (text.strlen + 1)).reduceOption⟩

/-- What `on_read_cb` does with a complete request: it serves the command and queues the reply. An
argument that is not set or not terminated cannot be read, and after an error the worker does not
come back. -/
def workerHandler (D : Database) : Handler (Answer × Answer) (Proxy × Output) where
  fresh := (.null, .null)
  serve := fun (pgAnswer, rdAnswer) (p, o) d => do
    let commandArgv ← d.argv.mapM fun slot => slot.bind argumentAt
    let (rc, pgAnswer, p) ← processRedisToPostgresOn D p commandArgv pgAnswer
    if rc = -1 then none
    else do
      let (rc, rdAnswer) ← defineTypeReq pgAnswer rdAnswer
      if rc = -1 then none
      else do
        let reply ← rdAnswer.rdAnswer?
        let o ← o.step (.reply reply)
        some ((pgAnswer, rdAnswer), (p, o))

/-- The command of a request whose arguments can be read. -/
def Delivery.order? (d : Delivery) : Option Order :=
  match d.argv.mapM fun slot => slot.bind argumentAt with
  | some (name :: args) => some (.of name args)
  | _ => none

/-- The locals of a read event, the store, and the output of the connection. -/
abbrev Situation := (Answer × Answer) × (Proxy × Output)

/-- The worker comes back from a request: a `COMMAND` finds a result of an earlier request of the
read event, another command succeeds with a reply whose size is an `int`, and the size of what waits
is not negative if there is a buffer. -/
def ComesBack (D : Database) (s : Situation) : Move → Prop
  | .event => True
  | .request d =>
      ∃ order ∈ d.order?, (order = .command → s.1.1.buffer ≠ none) ∧
        s.2.1.Succeeds D order ∧
        (∀ a ∈ s.2.1.serveOn D order, (shown a.1).encode.length < 2 ^ 31) ∧
        (s.2.2.writeInfo.answer ≠ none → 0 ≤ s.2.2.writeInfo.sizeAnswer)

/-! ## One request -/

/-- A reply behind what waits, if its size is an `int`. -/
def Output.queue (o : Output) (bytes : List UInt8) : Option Output :=
  if h : bytes.length < 2 ^ 31 then o.step (.reply ⟨bytes, h⟩) else none

theorem rdAnswer?_bind_step (o : Output) (bytes : List UInt8) :
    ((Answer.bytes bytes).rdAnswer?.bind fun reply => o.step (.reply reply)) = o.queue bytes := by
  rw [rdAnswer?_bytes, Output.queue]
  split <;> rfl

/-- A reply can be queued unless the size of what waits is negative. -/
theorem queueReply_isSome_iff {writeInfo : TsocketWriteData} {rdAnswer : RdAnswer} :
    (queueReply writeInfo rdAnswer).isSome ↔
      (writeInfo.answer ≠ none → 0 ≤ writeInfo.sizeAnswer) := by
  obtain ⟨answer, sizeAnswer⟩ := writeInfo
  cases answer with
  | none => simp [queueReply_null]
  | some answer =>
      simp only [ne_eq, reduceCtorEq, not_false_eq_true, true_implies]
      by_cases hneg : sizeAnswer < 0
      · simp [queueReply, hneg]
      · refine iff_of_true ?_ (by omega)
        simp only [queueReply, if_neg hneg]
        cases hrealloc : answer.realloc (sizeAnswer.toNat + rdAnswer.bytes.length) with
        | none => rfl
        | some b =>
            have hlength : b.length = sizeAnswer.toNat + rdAnswer.bytes.length := by
              unfold Block.realloc at hrealloc
              split at hrealloc
              · cases hrealloc
              · cases hrealloc
                exact Block.length_read _ _ _
            have hwrite := @Block.write?_of_le b sizeAnswer.toNat (Block.ofBytes rdAnswer.bytes)
              (by rw [Block.length_ofBytes, hlength])
            simp [hwrite]

theorem queue_isSome_iff {o : Output} {bytes : List UInt8} :
    (o.queue bytes).isSome ↔ bytes.length < 2 ^ 31 ∧
      (o.writeInfo.answer ≠ none → 0 ≤ o.writeInfo.sizeAnswer) := by
  unfold Output.queue
  by_cases hlt : bytes.length < 2 ^ 31
  · rw [dif_pos hlt, ← @queueReply_isSome_iff o.writeInfo ⟨bytes, hlt⟩]
    simp only [Output.step, Option.bind_eq_bind, hlt, true_and]
    cases queueReply o.writeInfo ⟨bytes, hlt⟩ <;> simp
  · rw [dif_neg hlt]
    exact iff_of_false (by simp) fun h => hlt h.1

section Serve

variable {D : Database} {p : Proxy} {o : Output} {l : Answer × Answer} {d : Delivery}
variable {order : Order}

/-- The handling of a request that can be read is that of its command. -/
theorem workerHandler_order (horder : d.order? = some order) :
    (workerHandler D).serve l (p, o) d =
      (order.process D p l.1).bind fun (rc, pgAnswer, p) =>
        if rc = -1 then none
        else (defineTypeReq pgAnswer l.2).bind fun (rc, rdAnswer) =>
          if rc = -1 then none
          else (rdAnswer.rdAnswer?.bind fun reply => o.step (.reply reply)).map fun o =>
            ((pgAnswer, rdAnswer), (p, o)) := by
  unfold Delivery.order? at horder
  split at horder
  · rename_i name args hargv
    cases horder
    simp only [workerHandler, hargv, Option.bind_eq_bind, Option.bind_some,
      processRedisToPostgresOn_eq_process, Function.comp_def, Option.map_eq_bind,
      Option.bind_assoc]
  · cases horder

/-- The worker does not come back from a request that cannot be read. -/
theorem workerHandler_order_none (horder : d.order? = none) :
    (workerHandler D).serve l (p, o) d = none := by
  unfold Delivery.order? at horder
  cases hargv : d.argv.mapM fun slot => slot.bind argumentAt with
  | none => simp [workerHandler, hargv]
  | some argv =>
      cases argv with
      | nil => simp [workerHandler, hargv, processRedisToPostgresOn]
      | cons name args => simp [hargv] at horder

/-- A command other than `COMMAND` has its own reply queued, whatever the locals are. -/
theorem workerHandler_own (hp : p.Inv) (horder : d.order? = some order) (hne : order ≠ .command) :
    ∃ rest, ∀ (l : Answer × Answer) (o : Output), (workerHandler D).serve l (p, o) d =
      (p.serveOn D order).bind fun a => (o.queue (shown a.1).encode).map fun o =>
        ((.of rest a.1, .bytes (shown a.1).encode), (a.2, o)) := by
  obtain ⟨rest, hprocess⟩ := Order.process_eq_serveOn hp hne (D := D)
  refine ⟨rest, fun l o => ?_⟩
  rw [workerHandler_order horder, hprocess]
  cases p.serveOn D order with
  | none => rfl
  | some a => simp [defineTypeReq_of, ← rdAnswer?_bind_step]

/-- A `COMMAND` has the last result of the read event turned into a reply again. -/
theorem workerHandler_command (horder : d.order? = some .command) (o : Output) :
    (∀ rdAnswer, (workerHandler D).serve (.null, rdAnswer) (p, o) d = none) ∧
      ∀ rest reply rdAnswer, (workerHandler D).serve (.of rest reply, rdAnswer) (p, o) d =
        (o.queue (shown reply).encode).map fun o =>
          ((.of rest reply, .bytes (shown reply).encode), (p, o)) := by
  constructor
  · intro rdAnswer
    rw [workerHandler_order horder]
    rfl
  · intro rest reply rdAnswer
    rw [workerHandler_order horder]
    simp [Order.process, defineTypeReq_of, ← rdAnswer?_bind_step]

end Serve

/-! ## Decoding -/

/-- The log is in order, and `pg_answer` holds the result for a reply whose size is an `int`, or
nothing. -/
structure Situation.Inv (s : Situation) : Prop where
  inv : s.2.1.Inv
  result : s.1.1 = .null ∨
    ∃ rest reply, s.1.1 = .of rest reply ∧ (shown reply).encode.length < 2 ^ 31

theorem Answer.of_buffer_ne_none (rest : Block) (reply : Reply) :
    (Answer.of rest reply).buffer ≠ none := by
  cases reply <;> simp [Answer.of]

section Move

variable {D : Database} {s s' : Situation} (hs : s.Inv)
include hs

/-- For one request the condition is exact. -/
theorem comesBack_iff (m : Move) : ComesBack D s m ↔ ((workerHandler D).move s m).isSome := by
  obtain ⟨⟨pgAnswer, rdAnswer⟩, p, o⟩ := s
  cases m with
  | event => simp [ComesBack, Handler.move]
  | request d =>
      simp only [ComesBack, Handler.move]
      cases horder : d.order? with
      | none => simp [workerHandler_order_none horder]
      | some order =>
          simp only [Option.mem_def, Option.some_inj, exists_eq_left']
          by_cases hcommand : order = .command
          · -- what a `COMMAND` needs is a result of an earlier request
            subst hcommand
            obtain ⟨hnull, hrepeat⟩ := workerHandler_command (D := D) (p := p) horder o
            rcases hs.result with hresult | ⟨rest, reply, hresult, hlt⟩
            · obtain rfl : pgAnswer = .null := hresult
              rw [hnull]
              simp [Answer.null]
            · obtain rfl : pgAnswer = .of rest reply := hresult
              have hqueue := @queue_isSome_iff o (shown reply).encode
              simp only [hlt, true_and] at hqueue
              simp [hrepeat, hqueue, Answer.of_buffer_ne_none, Proxy.Succeeds, Proxy.serveOn]
          · obtain ⟨rest, hown⟩ := workerHandler_own (D := D) hs.inv horder hcommand
            have hsucceeds := @serveOn_isSome_iff D p hs.inv order
            rw [hown]
            cases hserve : p.serveOn D order with
            | none =>
                have hfails : ¬ p.Succeeds D order := by simpa [hserve, hcommand] using hsucceeds
                simp [hcommand, hfails]
            | some a =>
                have hdone : p.Succeeds D order := by simpa [hserve, hcommand] using hsucceeds
                have hqueue := @queue_isSome_iff o (shown a.1).encode
                simp [hcommand, hdone, hqueue]

theorem move_inv {m : Move} (hmove : (workerHandler D).move s m = some s') : s'.Inv := by
  obtain ⟨⟨pgAnswer, rdAnswer⟩, p, o⟩ := s
  cases m with
  | event =>
      cases hmove
      exact ⟨hs.inv, .inl rfl⟩
  | request d =>
      have hsize : ∀ {bytes o'}, o.queue bytes = some o' → bytes.length < 2 ^ 31 := by
        intro bytes o' hqueue
        exact (queue_isSome_iff.mp (by rw [hqueue]; rfl)).1
      simp only [Handler.move] at hmove
      cases horder : d.order? with
      | none => simp [workerHandler_order_none horder] at hmove
      | some order =>
          by_cases hcommand : order = .command
          · subst hcommand
            obtain ⟨hnull, hrepeat⟩ := workerHandler_command (D := D) (p := p) horder o
            rcases hs.result with hresult | ⟨rest, reply, hresult, hlt⟩
            · obtain rfl : pgAnswer = .null := hresult
              rw [hnull] at hmove
              cases hmove
            · obtain rfl : pgAnswer = .of rest reply := hresult
              rw [hrepeat, Option.map_eq_some_iff] at hmove
              obtain ⟨o', -, heq⟩ := hmove
              cases heq
              exact ⟨hs.inv, .inr ⟨rest, reply, rfl, hlt⟩⟩
          · obtain ⟨rest, hown⟩ := workerHandler_own (D := D) hs.inv horder hcommand
            rw [hown, Option.bind_eq_some_iff] at hmove
            obtain ⟨⟨reply, p'⟩, hserve, hqueued⟩ := hmove
            obtain ⟨o', hqueue, heq⟩ := Option.map_eq_some_iff.mp hqueued
            cases heq
            exact ⟨(serveOn_keeps hs.inv hserve).inv, .inr ⟨rest, reply, rfl, hsize hqueue⟩⟩

/-- The worker comes back from all requests of a run exactly if each meets the condition in its
state. -/
theorem along_comesBack_iff (moves : List Move) :
    Machine.Along (workerHandler D).move (ComesBack D) s moves ↔
      (Machine.runFrom (workerHandler D).move s moves).isSome := by
  rw [← Machine.along_isSome_iff]
  exact Machine.along_congr (P := fun _ => True) (fun s m s' hs _ _ hmove => move_inv hs hmove)
    (fun s m hs _ => comesBack_iff hs m) (fun _ _ => trivial) hs

end Move

/-- From a connection as it is accepted, and any store whose log is in order, requests are decoded
in any chunking exactly if the worker comes back from each of them but the last, in the state it
meets. -/
theorem requests_delivered_iff {D : Database} {c : Conn UInt8 (Proxy × Output)} (hc : c.Accepted)
    (hp : c.host.1.Inv) {requests : List Request}
    (hrequests : ∀ request ∈ requests, WellFormed request) {events : List (List UInt8)}
    (hreads : Reads events) (hstream : events.flatten = requests.flatMap encodeRequest) :
    Decodes (workerHandler D) c requests events ↔
      Machine.Along (workerHandler D).move (ComesBack D) ((.null, .null), c.host)
        (movesOfStream requests events) := by
  have hs : Situation.Inv ((.null, .null), c.host) := ⟨hp, .inl rfl⟩
  rw [along_comesBack_iff hs, decodes_iff_runFrom hc hrequests hreads hstream]
  rfl

/-- `GET` and `PING` in two reads, the first of which ends inside the key. -/
theorem requests_delivered_get_ping :
    Decodes (workerHandler .intended) (Conn.accept (Proxy.start .noCache fun _ => none, .start))
      [[ascii "GET", ascii "key"], [ascii "PING"]]
      [ascii "*2\r\n$3\r\nGET\r\n$3\r\nk", ascii "ey\r\n*1\r\n$4\r\nPING\r\n"] := by
  have hp := Proxy.start_inv .noCache fun _ => none
  have hc := Conn.accept_accepted (Proxy.start .noCache fun _ => none, Output.start)
  refine (requests_delivered_iff hc hp (by decide) (by unfold Reads; decide)
    (by decide +kernel)).mpr ?_
  exact (along_comesBack_iff ⟨hp, .inl rfl⟩ _).mpr (by decide +kernel)

/-- After `COMMAND` as the first request of a read event nothing is delivered any more. -/
theorem command_ends_worker :
    (readEvents id (workerHandler .intended)
        (Conn.accept (Proxy.start .noCache fun _ => none, .start))
        [ascii "*1\r\n$7\r\nCOMMAND\r\n*1\r\n$4\r\nPING\r\n"]).2.delivered =
        [deliver [ascii "COMMAND"]] ∧
      ¬ Decodes (workerHandler .intended)
        (Conn.accept (Proxy.start .noCache fun _ => none, .start))
        [[ascii "COMMAND"], [ascii "PING"]]
        [ascii "*1\r\n$7\r\nCOMMAND\r\n*1\r\n$4\r\nPING\r\n"] := by
  have hdelivered : (readEvents id (workerHandler .intended)
      (Conn.accept (Proxy.start .noCache fun _ => none, .start))
        [ascii "*1\r\n$7\r\nCOMMAND\r\n*1\r\n$4\r\nPING\r\n"]).2.delivered =
        [deliver [ascii "COMMAND"]] := by
    decide +kernel
  refine ⟨hdelivered, fun hdecodes => ?_⟩
  have hall := hdecodes.delivered
  rw [hdelivered] at hall
  simp at hall

/-! ## Replies -/

/-- What happens to a connection: a move of a read event, `write` accepts some bytes, or the store
is changed from elsewhere. -/
inductive ConnectionMove where
  | read (m : Move)
  | writable (byteWrite : Nat)
  | elsewhere (p : Proxy)

/-- One of them, unless the worker does not come back. Without bytes that wait there is no write. -/
def connectionMove (D : Database) (s : Situation) : ConnectionMove → Option Situation
  | .read m => (workerHandler D).move s m
  | .writable byteWrite =>
      if s.2.2.Accepts (.writable byteWrite) then
        (s.2.2.step (.writable byteWrite)).map fun o => (s.1, (s.2.1, o))
      else some s
  | .elsewhere p => some (s.1, (p, s.2.2))

/-- A read event with some requests, a write, or a change of the store. -/
inductive ConnectionEvent where
  | read (requests : List Request)
  | writable (byteWrite : Nat)
  | elsewhere (p : Proxy)

/-- The moves of a connection. -/
def connectionMoves (events : List ConnectionEvent) : List ConnectionMove :=
  events.flatMap fun
    | .read requests =>
        .read .event :: requests.map fun request => .read (.request (deliver request))
    | .writable byteWrite => [.writable byteWrite]
    | .elsewhere p => [.elsewhere p]

/-- The bytes that wait to be written. -/
def Output.waiting (o : Output) : Block :=
  o.buffer.take o.writeInfo.sizeAnswer.toNat

/-- The bytes of the reply to a request that is the only one of its read event, on a connection with
no output, so that nothing but the request and the store determines them, and the store behind
it. -/
def replyAlone (D : Database) (p : Proxy) (d : Delivery) : Option (List UInt8 × Proxy) :=
  ((workerHandler D).serve (.null, .null) (p, .start) d).map fun next =>
    (next.2.2.produced, next.2.1)

/-- A request is answered with the reply it gets alone, and with nothing else: it is put behind the
bytes that wait. -/
def AnsweredAlone (D : Database) (s : Situation) : ConnectionMove → Prop
  | .read (.request d) =>
      ∃ bytes p', replyAlone D s.2.1 d = some (bytes, p') ∧
        ∃ l' o', (workerHandler D).serve s.1 s.2 d = some (l', (p', o')) ∧
          o'.sent = s.2.2.sent ∧ o'.waiting = s.2.2.waiting ++ Block.ofBytes bytes
  | .read .event | .writable _ | .elsewhere _ => True

/-- A request is one of a command other than `COMMAND` that succeeds, and the size of what waits
with its reply is an `int`. -/
def Owned (D : Database) (s : Situation) : ConnectionMove → Prop
  | .read (.request d) =>
      ∃ order ∈ d.order?, order ≠ .command ∧ s.2.1.Succeeds D order ∧
        ∀ a ∈ s.2.1.serveOn D order,
          s.2.2.writeInfo.sizeAnswer + (shown a.1).encode.length < 2 ^ 31
  | .read .event | .writable _ | .elsewhere _ => True

/-- The size of what waits is a size within the buffer. -/
structure Output.Sized (o : Output) : Prop where
  size_ge : 0 ≤ o.writeInfo.sizeAnswer
  size_lt : o.writeInfo.sizeAnswer < 2 ^ 31
  size_le : o.writeInfo.sizeAnswer.toNat ≤ o.buffer.length

theorem Output.start_sized : Output.start.Sized :=
  ⟨le_rfl, by decide, Nat.zero_le _⟩

section Queue

variable {o o' : Output} {bytes : List UInt8}

/-- A reply alone on a connection. -/
theorem queue_start (hlt : bytes.length < 2 ^ 31) :
    Output.start.queue bytes =
      some ⟨⟨some (Block.ofBytes bytes), bytes.length⟩, [], bytes⟩ := by
  rw [Output.queue, dif_pos hlt, Output.step, Output.start]
  simp [queueReply_null]

/-- A reply is put behind what waits if the size stays an `int`, and otherwise the size is
negative. -/
theorem Output.Sized.queue (ho : o.Sized) (hlt : bytes.length < 2 ^ 31) :
    ∃ o', o.queue bytes = some o' ∧ o'.sent = o.sent ∧
      if o.writeInfo.sizeAnswer + bytes.length < 2 ^ 31 then
        o'.Sized ∧ o'.waiting = o.waiting ++ Block.ofBytes bytes
      else o'.waiting = [] := by
  obtain ⟨⟨answer, sizeAnswer⟩, sent, produced⟩ := o
  obtain ⟨hge, hsize, hle⟩ := ho
  obtain ⟨n, hn⟩ := Int.eq_ofNat_of_zero_le hge
  obtain rfl : sizeAnswer = n := hn
  simp only [Output.queue, dif_pos hlt, Output.step]
  cases answer with
  | none =>
      obtain rfl : n = 0 := Nat.le_zero.mp hle
      rw [queueReply_null]
      refine ⟨_, rfl, rfl, ?_⟩
      have hfits : ((0 : Nat) : Int) + bytes.length < 2 ^ 31 := by omega
      rw [if_pos hfits]
      refine ⟨⟨Int.natCast_nonneg _, by simp only; omega, ?_⟩, ?_⟩
      · simp [Output.buffer]
      · simp [Output.waiting, Output.buffer, List.take_of_length_le]
  | some answer =>
      simp only [Output.buffer, Option.getD_some, Int.toNat_natCast] at hle
      obtain ⟨answer', hqueue, hbuffer⟩ := queueReply_some hle ⟨bytes, hlt⟩
      have hlength : (answer.take n ++ Block.ofBytes bytes).length = n + bytes.length := by
        rw [List.length_append, List.length_take, Nat.min_eq_left hle, Block.length_ofBytes]
      rw [hqueue]
      refine ⟨_, rfl, rfl, ?_⟩
      have hcast : ((n + bytes.length : Nat) : Int) = n + bytes.length := Nat.cast_add _ _
      cases lt_or_ge ((n : Int) + bytes.length) (2 ^ 31) with
      | inl hfits =>
          have hwrap : wrap32 ((n + bytes.length : Nat) : Int) = (n + bytes.length : Nat) := by
            rw [wrap32_of_range] <;> omega
          rw [if_pos hfits]
          simp only [hwrap]
          refine ⟨⟨Int.natCast_nonneg _, by simp only; omega, ?_⟩, ?_⟩
          · simp [Output.buffer, hbuffer, hlength]
          · simp only [Output.waiting, Output.buffer, Option.getD_some, Int.toNat_natCast, hbuffer]
            exact List.take_of_length_le hlength.le
      | inr hover =>
          have hneg : wrap32 ((n + bytes.length : Nat) : Int) < 0 := by
            simp only at hsize
            exact wrap32_neg (by omega) (by omega)
          rw [if_neg hover.not_gt]
          simp only [Output.waiting, Int.toNat_of_nonpos hneg.le, List.take_zero]

/-- A write leaves a size within the buffer. -/
theorem Output.Sized.writable (ho : o.Sized) {byteWrite : Nat}
    (haccepts : o.Accepts (.writable byteWrite)) (hstep : o.step (.writable byteWrite) = some o') :
    o'.Sized := by
  obtain ⟨⟨answer, sizeAnswer⟩, sent, produced⟩ := o
  obtain ⟨hge, hsize, hle⟩ := ho
  obtain ⟨n, hn⟩ := Int.eq_ofNat_of_zero_le hge
  obtain rfl : sizeAnswer = n := hn
  obtain ⟨hpos, hmax⟩ := haccepts
  simp only [Output.buffer, Int.toNat_natCast] at hle hmax hsize
  simp only [Output.step, Option.bind_eq_bind, Option.bind_eq_some_iff] at hstep
  obtain ⟨writeInfo, hwrite, hnext⟩ := hstep
  cases hnext
  by_cases hcomplete : (byteWrite : Int) = n
  · simp only [onWriteCb, if_pos hcomplete, Option.some_inj] at hwrite
    subst hwrite
    exact ⟨le_rfl, by simp, Nat.zero_le _⟩
  · cases answer with
    | none => simp [onWriteCb, hcomplete] at hwrite
    | some answer =>
        rw [Option.getD_some] at hle
        rw [onWriteCb_part hle (by omega)] at hwrite
        split at hwrite
        · cases hwrite
          refine ⟨Int.natCast_nonneg _, by simp only; omega, ?_⟩
          simp only [Output.buffer, Option.getD_some, Int.toNat_natCast, List.length_append,
            List.length_take, List.length_drop]
          omega
        · cases hwrite

end Queue

section Request

variable {D : Database} {p : Proxy} {o : Output} {l : Answer × Answer} {d : Delivery}
variable {order : Order}

/-- Alone, a command other than `COMMAND` is answered with its own reply. -/
theorem replyAlone_own (hp : p.Inv) (horder : d.order? = some order) (hne : order ≠ .command) :
    replyAlone D p d = (p.serveOn D order).bind fun a =>
      if (shown a.1).encode.length < 2 ^ 31 then some ((shown a.1).encode, a.2) else none := by
  obtain ⟨rest, hown⟩ := workerHandler_own hp horder hne (D := D)
  rw [replyAlone, hown, Option.map_bind]
  refine congrArg _ (funext fun a => ?_)
  by_cases hlt : (shown a.1).encode.length < 2 ^ 31
  · simp only [Function.comp_apply, queue_start hlt, if_pos hlt, Option.map_some]
  · simp only [Function.comp_apply, Output.queue, dif_neg hlt, if_neg hlt, Option.map_none]

/-- Alone, a `COMMAND` is not answered, and the worker does not come back. -/
theorem replyAlone_command (horder : d.order? = some .command) : replyAlone D p d = none := by
  rw [replyAlone, (workerHandler_command (D := D) (p := p) horder .start).1]
  rfl

/-- A request is answered with its own reply exactly if it is owned. -/
theorem answeredAlone_iff (hp : p.Inv) (ho : o.Sized) (d : Delivery) :
    AnsweredAlone D (l, (p, o)) (.read (.request d)) ↔
      Owned D (l, (p, o)) (.read (.request d)) := by
  simp only [AnsweredAlone, Owned]
  cases horder : d.order? with
  | none => simp [replyAlone, workerHandler_order_none horder]
  | some order =>
      by_cases hcommand : order = .command
      · subst hcommand
        simp [replyAlone_command horder]
      · obtain ⟨rest, hown⟩ := workerHandler_own hp horder hcommand (D := D)
        have hsucceeds := @serveOn_isSome_iff D p hp order
        rw [replyAlone_own hp horder hcommand, hown]
        cases hserve : p.serveOn D order with
        | none =>
            have hfails : ¬ p.Succeeds D order := by simpa [hserve, hcommand] using hsucceeds
            simp [hfails]
        | some a =>
            have hdone : p.Succeeds D order := by simpa [hserve, hcommand] using hsucceeds
            have hpos : 0 < (shown a.1).encode.length :=
              List.length_pos_of_ne_nil (shown a.1).encode_ne_nil
            have hge := ho.size_ge
            by_cases hlt : (shown a.1).encode.length < 2 ^ 31
            · obtain ⟨o', hqueue, hsent, hwaiting⟩ := ho.queue hlt
              simp only [Option.mem_def, Option.some_inj, exists_eq_left', hcommand, ne_eq,
                not_false_eq_true, true_and, hdone, hserve, Option.bind_some, if_pos hlt,
                forall_eq', hqueue, Option.map_some]
              by_cases hfits : o.writeInfo.sizeAnswer + (shown a.1).encode.length < 2 ^ 31
              · rw [if_pos hfits] at hwaiting
                exact iff_of_true ⟨_, _, rfl, _, _, rfl, hsent, hwaiting.2⟩ hfits
              · -- the size of what waits is negative, and nothing waits
                rw [if_neg hfits] at hwaiting
                refine iff_of_false ?_ hfits
                rintro ⟨bytes, p', halone, l', o'', hserved, -, hbytes⟩
                cases halone
                cases hserved
                have hlength := congrArg List.length (hwaiting.symm.trans hbytes)
                simp only [List.length_nil, List.length_append, Block.length_ofBytes] at hlength
                omega
            · refine iff_of_false ?_ ?_
              · rintro ⟨bytes, p', halone, -⟩
                rw [Option.bind_some, if_neg hlt] at halone
                cases halone
              · rintro ⟨order', horder', -, -, hfits⟩
                cases horder'
                have := hfits a hserve
                omega

/-- A request that is owned leaves the log in order and a size within the buffer. -/
theorem serve_sized (hp : p.Inv) (ho : o.Sized) {s' : Situation}
    (howned : Owned D (l, (p, o)) (.read (.request d)))
    (hserve : (workerHandler D).serve l (p, o) d = some s') : s'.2.1.Inv ∧ s'.2.2.Sized := by
  obtain ⟨order, horder, hne, -, hfits⟩ := howned
  obtain ⟨rest, hown⟩ := workerHandler_own hp horder hne (D := D)
  rw [hown, Option.bind_eq_some_iff] at hserve
  obtain ⟨a, hanswer, hqueued⟩ := hserve
  have hfits : o.writeInfo.sizeAnswer + (shown a.1).encode.length < 2 ^ 31 := hfits a hanswer
  have hge := ho.size_ge
  have hlt : (shown a.1).encode.length < 2 ^ 31 := by omega
  obtain ⟨o', hqueue, -, hsized⟩ := ho.queue hlt
  rw [hqueue] at hqueued
  cases hqueued
  rw [if_pos hfits] at hsized
  exact ⟨(serveOn_keeps hp hanswer).inv, hsized.1⟩

end Request

/-- What happens to a connection keeps the log in order and the size within the buffer, if the
requests are owned. -/
theorem connectionMove_sized {D : Database} {s s' : Situation} {m : ConnectionMove}
    (hs : s.2.1.Inv ∧ s.2.2.Sized) (hother : ∀ p', m = .elsewhere p' → p'.Inv)
    (howned : Owned D s m) (hmove : connectionMove D s m = some s') :
    s'.2.1.Inv ∧ s'.2.2.Sized := by
  obtain ⟨l, p, o⟩ := s
  cases m with
  | read m =>
      cases m with
      | event =>
          cases hmove
          exact hs
      | request d => exact serve_sized hs.1 hs.2 howned hmove
  | writable byteWrite =>
      simp only [connectionMove] at hmove
      split at hmove
      · rename_i haccepts
        obtain ⟨o', hstep, heq⟩ := Option.map_eq_some_iff.mp hmove
        cases heq
        exact ⟨hs.1, hs.2.writable haccepts hstep⟩
      · cases hmove
        exact hs
  | elsewhere p' =>
      cases hmove
      exact ⟨hother p' rfl, hs.2⟩

/-- On a connection that was just accepted, every command is answered with one reply, which it gets
alone as well, exactly if every request is owned in the state it meets. -/
theorem replies_alone_iff {D : Database} {p : Proxy} (hp : p.Inv) {events : List ConnectionEvent}
    (hothers : ∀ p', .elsewhere p' ∈ events → p'.Inv) :
    Machine.Along (connectionMove D) (AnsweredAlone D) ((.null, .null), (p, .start))
        (connectionMoves events) ↔
      Machine.Along (connectionMove D) (Owned D) ((.null, .null), (p, .start))
        (connectionMoves events) := by
  refine Machine.along_congr (I := fun s => s.2.1.Inv ∧ s.2.2.Sized)
    (P := fun m => ∀ p', m = .elsewhere p' → p'.Inv)
    (fun s m s' hs hm howned hmove => connectionMove_sized hs hm howned hmove) ?_ ?_
    ⟨hp, Output.start_sized⟩
  · rintro ⟨l, p, o⟩ m ⟨hp, ho⟩ -
    cases m with
    | read m =>
        cases m with
        | event => exact Iff.rfl
        | request d => exact answeredAlone_iff hp ho d
    | writable | elsewhere => exact Iff.rfl
  · rintro m hm p' rfl
    simp only [connectionMoves, List.mem_flatMap] at hm
    obtain ⟨event, hevent, hmember⟩ := hm
    cases event with
    | read requests => simp at hmember
    | writable => simp at hmember
    | elsewhere q =>
        obtain rfl : p' = q := by simpa using hmember
        exact hothers p' hevent

/-- Two `PING` in one read event, and a write that accepts both replies. -/
theorem replies_alone_ping :
    Machine.Along (connectionMove .intended) (AnsweredAlone .intended)
      ((.null, .null), (Proxy.start .noCache fun _ => none, .start))
      (connectionMoves [.read [[ascii "PING"], [ascii "PING"]], .writable 14]) := by
  refine (replies_alone_iff (Proxy.start_inv .noCache fun _ => none) (by simp)).mpr ?_
  have hsize : ∀ a ∈ (Proxy.start .noCache fun _ => none).serveOn .intended .ping,
      (shown a.1).encode.length = 7 := by
    rintro a ⟨⟩
    decide
  refine ⟨trivial, fun s₁ h₁ => ?_⟩
  cases h₁
  refine ⟨⟨.ping, rfl, nofun, trivial, ?_⟩, fun s₂ h₂ => ?_⟩
  · intro a ha
    rw [hsize a ha]
    decide
  cases h₂
  refine ⟨⟨.ping, rfl, nofun, trivial, ?_⟩, fun s₃ h₃ => ⟨trivial, fun _ _ => trivial⟩⟩
  intro a ha
  rw [hsize a ha]
  decide

/-- `PING` and `command` in one read event are answered with two `+PONG`, and `command` alone is not
answered. -/
theorem command_repeats_reply :
    ((Machine.runFrom (connectionMove .intended)
        ((.null, .null), (Proxy.start .noCache fun _ => none, .start))
        (connectionMoves [.read [[ascii "PING"], [ascii "command"]]])).map
          fun s => s.2.2.waiting) = some (Block.ofBytes (ascii "+PONG\r\n+PONG\r\n")) ∧
      replyAlone .intended (Proxy.start .noCache fun _ => none) (deliver [ascii "command"]) = none ∧
      ¬ Machine.Along (connectionMove .intended) (AnsweredAlone .intended)
        ((.null, .null), (Proxy.start .noCache fun _ => none, .start))
        (connectionMoves [.read [[ascii "PING"], [ascii "command"]]]) := by
  refine ⟨by decide +kernel, rfl, ?_⟩
  rintro ⟨-, hping⟩
  obtain ⟨-, hcommand⟩ := hping _ rfl
  obtain ⟨⟨bytes, p', halone, -⟩, -⟩ := hcommand _ rfl
  exact absurd (halone.symm.trans rfl) (Option.some_ne_none (bytes, p'))

end PgRedisProxy
