import PgRedisProxy.Server.Serial

/-!
# One order for the requests of all connections

What a worker does in any interleaving of its callbacks is what `Serial` does with the
requests in the order they were executed: `run_serializable` is the main result. Each
connection has been given the replies to its own requests and to no others. As long as
its client sends well-formed requests, these are the requests it has completed, whole and
in order, and a request that was executed stays where it is in the order.
-/

namespace PgRedisProxy

open CLang KeyValue Parties Resp

/-- The store is what the requests so far make of the database, one after the other. -/
structure Shared.Executed (r : DumpStatus) (db : Hstore) (x : Shared) (z : Serial Tiers) :
    Prop where
  inv : x.proxy.Inv
  cachingRegime_eq : x.proxy.cachingRegime = r
  run_eq : executeAll r db x.history = some z
  tiers_eq : x.proxy.tiers = z.store

/-- The read event of a connection without the store. -/
def Client.bare (c : Client) : Conn UInt8 Unit :=
  ⟨c.readData, (), [], []⟩

/-- If the client has sent the beginning of some well-formed requests, those it has completed were
handed over, and the connection is to complete the others. -/
def Client.Follows (c : Client) (made : List Delivery) : Prop :=
  ∀ requests : List Request, (∀ request ∈ requests, WellFormed request) →
    c.received <+: requests.flatMap encodeRequest →
      ∃ past rest later, requests = past ++ rest ∧
        requests.flatMap encodeRequest = c.received ++ later ∧ c.bare.Drained ∧
        c.bare.session.Expects rest later ∧ made = past.map deliver

/-- What is known of each connection: the replies produced for it are those to its requests, and its
requests are those its client has completed. -/
def Served (r : DumpStatus) (db : Hstore) (i : Nat) (x : Shared) : Member Client → Prop
  | .absent => requestsOf i x.history = [] ∧ ∀ z, x.Executed r db z → z.repliesTo i = []
  | .present c | .left c => c.Follows (requestsOf i x.history) ∧
      ∀ z, x.Executed r db z → c.output.produced = (z.repliesTo i).flatMap Reply.encode

theorem Served.of_state {r : DumpStatus} {db : Hstore} {i : Nat} {x : Shared} {m : Member Client}
    {c : Client} (h : Served r db i x m) (hc : c ∈ m.state?) : Served r db i x (.present c) := by
  cases m with
  | absent => cases hc
  | present c' | left c' =>
      cases hc
      exact h

/-! ## What a client has sent -/

/-- An accepted connection is to complete everything. -/
theorem onAcceptCb_follows (g : Allocated) : (onAcceptCb g).Follows [] := by
  intro requests hrequests _
  have hstatus : (onAcceptCb g).bare.readData.exitStatus ≠ .err := by simp [Client.bare, onAcceptCb]
  refine ⟨[], requests, requests.flatMap encodeRequest, rfl, rfl, ⟨rfl, g.length_eq, hstatus⟩, ?_,
    rfl⟩
  exact Session.expects_all ⟨rfl, rfl, rfl⟩ hstatus hrequests

/-- The requests that a client has completed are those that were handed over. -/
theorem Client.Follows.made_eq {c : Client} {made : List Delivery} (h : c.Follows made)
    {requests : List Request} (hrequests : ∀ request ∈ requests, WellFormed request)
    (hsent : c.received <+: requests.flatMap encodeRequest) :
    made = (completed requests c.received.length).map deliver := by
  obtain ⟨past, rest, later, rfl, hstream, -, hexpects, rfl⟩ := h requests hrequests hsent
  rw [hexpects.remaining.completed_eq]
  rw [hstream, List.length_append]

/-- Only as many bytes as fit are read. -/
theorem onReadCb_take {α L H : Type*} (val : α → UInt8) (h : Handler L H) (c : Conn α H)
    (bytes : List α) :
    onReadCb val h c (bytes.take (bufferSize - c.readData.curBufferSize)) =
      onReadCb val h c bytes := by
  simp only [onReadCb, List.take_take, min_self]

/-- What a connection is to complete does not depend on the store. -/
theorem Client.expects_conn {c : Client} {rest : List Request} {later : List UInt8}
    (h : c.bare.session.Expects rest later) (p : Proxy) :
    (c.conn p).session.Expects rest later :=
  ⟨h.remaining, h.wellFormed, h.status_ne, h.awaits⟩

/-- A read event that returns hands over the requests that its bytes complete. -/
theorem Client.Follows.read {c : Client} {made : List Delivery} (h : c.Follows made) {p : Proxy}
    {bytes : List UInt8} {conn : Conn UInt8 (Proxy × Output)}
    (hread : onReadCb id connectionHandler (c.conn p) bytes = (.finished, conn)) (writing : Bool) :
    Client.Follows
      { readData := conn.readData
        output := conn.host.2
        writing := writing
        received := c.received ++ bytes.take (bufferSize - c.readData.curBufferSize) }
      (made ++ conn.delivered) := by
  intro requests hrequests hsent
  obtain ⟨past, rest, later, rfl, hstream, hdrained, hexpects, rfl⟩ :=
    h requests hrequests ((List.prefix_append _ _).trans hsent)
  set chunk := bytes.take (bufferSize - c.readData.curBufferSize) with hchunk
  obtain ⟨later', hlater'⟩ := hsent
  obtain rfl : later = chunk ++ later' := by
    rw [hstream, List.append_assoc, List.append_right_inj] at hlater'
    exact hlater'.symm
  have hread' : onReadCb id connectionHandler (c.conn p) chunk = (.finished, conn) :=
    (onReadCb_take id connectionHandler (c.conn p) bytes).trans hread
  have hne : chunk ≠ [] := by
    intro hnil
    rw [hnil] at hread'
    simp [onReadCb] at hread'
  have hlen : chunk.length ≤ bufferSize := by
    rw [hchunk, List.length_take]
    omega
  have hdrained' : (c.conn p).Drained :=
    ⟨hdrained.curBufferSize_eq, hdrained.length_eq, hdrained.status_ne⟩
  obtain ⟨conn', hscan, hsession, hafter, -⟩ :=
    onReadCb_eq_scan id connectionHandler hdrained' hne hlen
  obtain ⟨hexit, rfl⟩ := Prod.mk.inj (hread'.symm.trans hscan)
  obtain ⟨batch, rest', rfl, hlater, hmade, hsome, hnone⟩ :=
    scan_expects connectionHandler connectionHandler.fresh (Client.expects_conn hexpects p)
  rw [← hsession] at hmade hsome
  cases hattempt : connectionHandler.attempt connectionHandler.fresh (c.conn p).session.host
      (batch.map deliver) with
  | mk handed next =>
      rw [hattempt] at hmade hsome hnone
      cases next with
      | none =>
          -- the worker would not have come back
          have hstopped := (hnone rfl).1
          rw [← hexit] at hstopped
          cases hstopped
      | some next =>
          obtain ⟨-, -, hexpects'⟩ := hsome next rfl
          obtain rfl := connectionHandler.attempt_eq_of_some hattempt
          have hdelivered : conn.delivered = batch.map deliver := hmade
          refine ⟨past ++ batch, rest', later', by simp, by rw [hstream, List.append_assoc], ?_, ?_,
            by rw [hdelivered, List.map_append]⟩
          · have hdrained₁ := hafter hexit.symm hexpects'.status_ne
            exact ⟨hdrained₁.curBufferSize_eq, hdrained₁.length_eq, hdrained₁.status_ne⟩
          · exact ⟨hexpects'.remaining, hexpects'.wellFormed, hexpects'.status_ne,
              hexpects'.awaits⟩

/-! ## What a callback does -/

section Callbacks

variable {r : DumpStatus} {db : Hstore} {x x' : Shared} {z z' : Serial Tiers}

/-- The same history has the same execution. -/
theorem Shared.Executed.unique (h : x.Executed r db z) (h' : x.Executed r db z') : z = z' :=
  Option.some.inj (h.run_eq.symm.trans h'.run_eq)

theorem Serial.run_append {S : Type*} {m : CommandStore S} {z₀ z z' : Serial S}
    {first second : List Entry} (hfirst : z₀.run m first = some z)
    (hsecond : z.run m second = some z') :
    z₀.run m (first ++ second) = some z' :=
  Machine.runFrom_append_eq_some.mpr ⟨z, hfirst, hsecond⟩

/-- What a read event does to everything but the parser, if the worker survives it: the connection
is closed, or the requests it completes are executed and their replies queued. -/
theorem onReadable_cases {i : Nat} {bytes : List UInt8} {c : Client} {m : Member Client}
    (hx : x.Executed r db z) (hact : c.onReadable i bytes x = some (x', m)) :
    x' = x ∧ m = .left c ∨
      ∃ (conn : Conn UInt8 (Proxy × Output)) (z' : Serial Tiers) (replies : List Reply)
          (rdAnswers : List RdAnswer),
        onReadCb id connectionHandler (c.conn x.proxy) bytes = (.finished, conn) ∧
        x'.history = x.history ++ conn.delivered.map (.request i) ∧ x'.Executed r db z' ∧
        z'.answered = z.answered ++ replies.map (fun reply => (i, reply)) ∧
        rdAnswers.map RdAnswer.bytes = replies.map Reply.encode ∧
        Machine.runFrom Output.step c.output (rdAnswers.map .reply) = some conn.host.2 ∧
        m = .present
          { readData := conn.readData
            output := conn.host.2
            writing := c.writing || decide (0 < conn.host.2.writeInfo.sizeAnswer)
            received := c.received ++ bytes.take (bufferSize - c.readData.curBufferSize) } := by
  unfold Client.onReadable Client.readBy at hact
  split at hact
  · rename_i conn hread
    cases hact
    obtain ⟨ds, l', hdelivered, hattempt⟩ := onReadCb_attempt hread
    rw [show (c.conn x.proxy).delivered = [] from rfl, List.nil_append] at hdelivered
    subst hdelivered
    obtain ⟨z', replies, hrun, hanswered, hrefines, rdAnswers, hbytes, hqueued⟩ :=
      attempt_serial hx.inv hx.tiers_eq (.inl rfl) hattempt i
    rw [hx.cachingRegime_eq] at hrun
    refine .inr ⟨conn, z', replies, rdAnswers, hread, rfl, ?_, hanswered, hbytes, hqueued, rfl⟩
    exact ⟨hrefines.inv, hrefines.cachingRegime_eq.trans hx.cachingRegime_eq,
      Serial.run_append hx.run_eq hrun, hrefines.tiers_eq⟩
  · cases hact
    exact .inl ⟨rfl, rfl⟩
  · cases hact
  · cases hact

/-- A write changes nothing but the output. -/
theorem onWritable_cases {byteWrite : Nat} {c c' : Client}
    (hact : c.onWritable byteWrite = some c') :
    c' = c ∨ c.writing = true ∧ c.output.Accepts (.writable byteWrite) ∧
      ∃ o, c.output.step (.writable byteWrite) = some o ∧
        c' = { c with
          output := o
          writing := decide ((byteWrite : Int) ≠ c.output.writeInfo.sizeAnswer) } := by
  unfold Client.onWritable at hact
  split at hact
  · rename_i hwriting
    split at hact
    · cases hact
    · split at hact
      · rename_i haccepts
        rw [Option.bind_eq_bind, Option.bind_eq_some_iff] at hact
        obtain ⟨o, hstep, heq⟩ := hact
        cases heq
        exact .inr ⟨hwriting, haccepts, o, hstep, rfl⟩
      · cases hact
        exact .inl rfl
  · cases hact
    exact .inl rfl

/-- A write produces nothing. -/
theorem writable_produced {o o' : Output} {byteWrite : Nat}
    (hstep : o.step (.writable byteWrite) = some o') : o'.produced = o.produced := by
  simp only [Output.step, Option.bind_eq_bind, Option.bind_eq_some_iff] at hstep
  obtain ⟨writeInfo, -, heq⟩ := hstep
  cases heq
  rfl

/-- The timer synchronizes the log, or there is none. -/
theorem onTimerTimeoutCb_cases (hx : x.Executed r db z) :
    ∃ x' z', onTimerTimeoutCb x = some x' ∧ x'.Executed r db z' ∧ z'.answered = z.answered ∧
      ∃ entries, x'.history = x.history ++ entries ∧ ∀ i, requestsOf i entries = [] := by
  unfold onTimerTimeoutCb
  by_cases hr : x.proxy.cachingRegime = .defferDump
  · obtain ⟨p', hsync, hrefines⟩ := syncWithDb_refines hx.inv hr
    rw [if_pos hr, hsync]
    have hr' : r = .defferDump := hx.cachingRegime_eq.symm.trans hr
    refine ⟨⟨p', x.history ++ [.sync]⟩, { z with store := (z.store.step r .sync).2 }, rfl, ?_, rfl,
      [.sync], rfl, fun _ => rfl⟩
    refine ⟨hrefines.inv, hrefines.cachingRegime_eq.trans hx.cachingRegime_eq,
      Serial.run_append hx.run_eq rfl, ?_⟩
    rw [hrefines.tiers_eq, hx.tiers_eq]
    simp [Tiers.step, hr']
  · rw [if_neg hr]
    exact ⟨x, z, rfl, hx, rfl, [], by simp, fun _ => rfl⟩

/-- What is known of a connection is not disturbed by requests and replies of others. -/
theorem Served.undisturbed {j : Nat} {m : Member Client} (hx : x.Executed r db z)
    (hx' : x'.Executed r db z') (hrequests : requestsOf j x'.history = requestsOf j x.history)
    (hreplies : z'.repliesTo j = z.repliesTo j) (h : Served r db j x m) : Served r db j x' m := by
  cases m with
  | absent =>
      obtain ⟨hmade, hnone⟩ := h
      refine ⟨hrequests.trans hmade, fun z₁ hz₁ => ?_⟩
      rw [hz₁.unique hx', hreplies, hnone z hx]
  | present c | left c =>
      obtain ⟨hfollows, hproduced⟩ := h
      refine ⟨hrequests ▸ hfollows, fun z₁ hz₁ => ?_⟩
      rw [hz₁.unique hx', hreplies, hproduced z hx]

end Callbacks

/-- No callback interferes with what is known of the store and of the connections. -/
theorem serverRules_keeps (r : DumpStatus) (db : Hstore) :
    serverRules.Keeps (fun _ _ _ _ => True) (fun x => ∃ z, x.Executed r db z) (Served r db) where
  join := by
    rintro i x g - ⟨hmade, hnone⟩
    refine ⟨hmade ▸ onAcceptCb_follows g, fun z hz => ?_⟩
    rw [hnone z hz]
    rfl
  act := by
    rintro i b x c x' m ⟨z, hx⟩ ⟨hfollows, hproduced⟩ - hact
    cases b with
    | readable bytes =>
        rcases onReadable_cases hx hact with ⟨rfl, rfl⟩ |
          ⟨conn, z', replies, rdAnswers, hread, hhistory, hx', hanswered, hbytes, hqueued, rfl⟩
        · exact ⟨⟨z, hx⟩, hfollows, hproduced⟩
        · refine ⟨⟨z', hx'⟩, ?_, fun z₁ hz₁ => ?_⟩
          · rw [hhistory, requestsOf_append, requestsOf_self]
            exact hfollows.read hread _
          · rw [hz₁.unique hx', Serial.repliesTo_of_answered hanswered, if_pos rfl,
              List.flatMap_append, ← hproduced z hx, queued_produced hqueued,
              List.flatMap_def, hbytes, ← List.flatMap_def]
    | failed =>
        cases hact
        exact ⟨⟨z, hx⟩, hfollows, hproduced⟩
    | writable byteWrite =>
        obtain ⟨c', hwrite, heq⟩ := Option.map_eq_some_iff.mp hact
        cases heq
        rcases onWritable_cases hwrite with rfl | ⟨-, -, o, hstep, rfl⟩
        · exact ⟨⟨z, hx⟩, hfollows, hproduced⟩
        · have hsame := writable_produced hstep
          exact ⟨⟨z, hx⟩, hfollows, fun z₁ hz₁ => hsame.trans (hproduced z₁ hz₁)⟩
  act_other := by
    rintro i b x c x' m j n ⟨z, hx⟩ - - hact hj h
    cases b with
    | readable bytes =>
        rcases onReadable_cases hx hact with ⟨rfl, rfl⟩ |
          ⟨conn, z', replies, rdAnswers, hread, hhistory, hx', hanswered, -⟩
        · exact h
        · refine h.undisturbed hx hx' ?_ ?_
          · rw [hhistory, requestsOf_append, requestsOf_other hj, List.append_nil]
          · rw [Serial.repliesTo_of_answered hanswered, if_neg hj, List.append_nil]
    | failed =>
        cases hact
        exact h
    | writable byteWrite =>
        obtain ⟨c', -, heq⟩ := Option.map_eq_some_iff.mp hact
        cases heq
        exact h
  change := by
    rintro e x x' ⟨z, hx⟩ hchange
    obtain ⟨x₁, z', htimer, hx', -⟩ := onTimerTimeoutCb_cases hx
    obtain rfl : x₁ = x' := Option.some.inj (htimer.symm.trans hchange)
    exact ⟨z', hx'⟩
  change_other := by
    rintro e x x' j n ⟨z, hx⟩ hchange h
    obtain ⟨x₁, z', htimer, hx', hanswered, entries, hhistory, hnone⟩ := onTimerTimeoutCb_cases hx
    obtain rfl : x₁ = x' := Option.some.inj (htimer.symm.trans hchange)
    refine h.undisturbed hx hx' ?_ ?_
    · rw [hhistory, requestsOf_append, hnone, List.append_nil]
    · simp only [Serial.repliesTo, hanswered]

/-! ## Runs -/

theorem Server.start_holds (r : DumpStatus) (db : Hstore) :
    (Server.start r db).Holds (fun x => ∃ z, x.Executed r db z) (Served r db) where
  shared := ⟨Serial.start (Tiers.start db), Proxy.start_inv r db, rfl, rfl, Proxy.start_tiers r db⟩
  member := by
    intro i
    refine ⟨rfl, fun z hz => ?_⟩
    obtain rfl : Serial.start (Tiers.start db) = z := Option.some.inj hz.run_eq
    rfl

/-- What is known of the store and of the connections is known in every state of a run. -/
theorem Server.run_holds {r : DumpStatus} {db : Hstore} {events : List ServerEvent} {s : Server}
    (hrun : Server.run r db events = some s) :
    s.Holds (fun x => ∃ z, x.Executed r db z) (Served r db) :=
  (serverRules_keeps r db).run (Server.start_holds r db)
    (Machine.along_of_forall (fun _ e => by cases e <;> simp [Guarded]) _ _) hrun

/-- What has been executed stays where it is in the order, in a callback of a connection. -/
theorem clientAct_history {i : Nat} {b : ClientEvent} {x x' : Shared} {c : Client}
    {m : Member Client} (hact : clientAct i b x c = some (x', m)) : x.history <+: x'.history := by
  cases b with
  | readable bytes => exact Client.readBy_history hact
  | failed =>
      cases hact
      exact List.prefix_rfl
  | writable byteWrite =>
      obtain ⟨c', -, heq⟩ := Option.map_eq_some_iff.mp hact
      cases heq
      exact List.prefix_rfl

/-- So it does when the timer goes off. -/
theorem onTimerTimeoutCb_history {x x' : Shared} (hchange : onTimerTimeoutCb x = some x') :
    x.history <+: x'.history := by
  unfold onTimerTimeoutCb at hchange
  split at hchange
  · rw [Option.bind_eq_bind, Option.bind_eq_some_iff] at hchange
    obtain ⟨⟨rc, p⟩, -, heq⟩ := hchange
    cases heq
    exact List.prefix_append _ _
  · cases hchange
    exact List.prefix_rfl

/-- And in any interleaving of callbacks. -/
theorem history_prefix {s s' : Server} {events : List ServerEvent}
    (hrun : Machine.runFrom serverRules.step s events = some s') :
    s.shared.history <+: s'.shared.history :=
  shared_rel (R := fun x x' : Shared => x.history <+: x'.history) (fun _ => List.prefix_rfl)
    List.IsPrefix.trans clientAct_history onTimerTimeoutCb_history hrun

/-- Each request of a client has been given one reply. -/
theorem Serial.length_repliesTo {S : Type*} {m : CommandStore S} {z z' : Serial S}
    {history : List Entry} (hrun : z.run m history = some z') (i : Nat) :
    (z'.repliesTo i).length = (z.repliesTo i).length + (requestsOf i history).length := by
  induction history generalizing z with
  | nil =>
      cases hrun
      rfl
  | cons e history ih =>
      obtain ⟨z₁, hstep, hrest⟩ := Machine.runFrom_cons_eq_some.mp hrun
      have hhead : (z₁.repliesTo i).length =
          (z.repliesTo i).length + (requestsOf i [e]).length := by
        cases e with
        | sync =>
            cases hstep
            rfl
        | request j d =>
            obtain ⟨reply, hanswered⟩ : ∃ reply, z₁.answered = z.answered ++ [(j, reply)] := by
              simp only [Serial.step, Option.bind_eq_some_iff] at hstep
              obtain ⟨call, -, hstep⟩ := hstep
              split at hstep
              · cases hstep
                exact ⟨_, rfl⟩
              · obtain ⟨last, -, rfl⟩ := Option.map_eq_some_iff.mp hstep
                exact ⟨last.2, rfl⟩
            have hanswered' : z₁.answered = z.answered ++ [reply].map fun reply => (j, reply) :=
              hanswered
            rw [Serial.repliesTo_of_answered hanswered']
            by_cases hij : i = j
            · subst hij
              simp [requestsOf]
            · simp [requestsOf, hij, Ne.symm hij]
      have hsplit : requestsOf i (e :: history) = requestsOf i [e] ++ requestsOf i history :=
        requestsOf_append i [e] history
      rw [ih hrest, hhead, hsplit, List.length_append, Nat.add_assoc]

/-- Whatever the connections receive, and in whatever order the callbacks are run, as long as the
worker survives there is one order of all requests, in which none is moved later, such that the
store is what executing them one after the other makes of the database. The replies produced for a
connection are those to its own requests there, one for each, and these are the requests its client
has completed, in the order it sent them. The reply to a `COMMAND` that the worker survives is the
one before it in the same read event once more. -/
theorem run_serializable {r : DumpStatus} {db : Hstore} {events : List ServerEvent} {s : Server}
    (hrun : Server.run r db events = some s) :
    (∃ z, executeAll r db s.shared.history = some z ∧ s.shared.proxy.tiers = z.store ∧
      ∀ i, ∀ c ∈ (s.member i).state?,
        c.output.produced = (z.repliesTo i).flatMap Reply.encode ∧
        (z.repliesTo i).length = (requestsOf i s.shared.history).length ∧
        ∀ requests : List Request, (∀ request ∈ requests, WellFormed request) →
          c.received <+: requests.flatMap encodeRequest →
            requestsOf i s.shared.history = (completed requests c.received.length).map deliver) ∧
      ∀ first second s₁, events = first ++ second → Server.run r db first = some s₁ →
        s₁.shared.history <+: s.shared.history := by
  obtain ⟨⟨z, hz⟩, hmember⟩ := Server.run_holds hrun
  refine ⟨⟨z, hz.run_eq, hz.tiers_eq, fun i c hc => ?_⟩, ?_⟩
  · obtain ⟨hfollows, hproduced⟩ := (hmember i).of_state hc
    refine ⟨hproduced z hz, ?_, fun requests => hfollows.made_eq⟩
    simpa [Serial.start, Serial.repliesTo] using Serial.length_repliesTo hz.run_eq i
  · rintro first second s₁ rfl hfirst
    obtain ⟨s₂, hfirst', hsecond⟩ := Machine.runFrom_append_eq_some.mp hrun
    obtain rfl : s₂ = s₁ := Option.some.inj (hfirst'.symm.trans hfirst)
    exact history_prefix hsecond

/-- Memory as `malloc` may leave it. -/
def sampleAllocated : Allocated where
  readData := ⟨⟨none, 7, 7, ⟨7, true, none, 7, 7⟩, .endWait⟩, 7, List.replicate bufferSize 7, .err⟩
  length_eq := by simp

/-- A GET between the two halves of a SET of another client. -/
def twoClients : List ServerEvent :=
  [.join 0 sampleAllocated, .join 1 sampleAllocated,
    .act 0 (.readable (ascii "*3\r\n$3\r\nSET\r\n$1\r\nk\r\n$1")),
    .act 1 (.readable (ascii "*2\r\n$3\r\nGET\r\n$1\r\nk\r\n")),
    .act 0 (.readable (ascii "\r\nv\r\n")), .change ()]

theorem run_serializable_two :
    ∃ s z c, Server.run .defferDump (fun _ => none) twoClients = some s ∧
      executeAll .defferDump (fun _ => none) s.shared.history = some z ∧
      c ∈ (s.member 0).state? ∧ c.output.produced = (z.repliesTo 0).flatMap Reply.encode ∧
      (z.repliesTo 0).length = (requestsOf 0 s.shared.history).length := by
  obtain ⟨s, hrun⟩ := Option.isSome_iff_exists.mp
    (by decide +kernel : (Server.run .defferDump (fun _ => none) twoClients).isSome)
  have hjoined : (Server.run .defferDump (fun _ => none) twoClients).map
      (fun s => (s.member 0).state?.isSome) = some true := by
    decide +kernel
  rw [hrun] at hjoined
  obtain ⟨c, hc⟩ := Option.isSome_iff_exists.mp (Option.some.inj hjoined)
  obtain ⟨⟨z, hz, -, hclients⟩, -⟩ := run_serializable hrun
  obtain ⟨hproduced, hlength, -⟩ := hclients 0 c hc
  exact ⟨s, z, c, hrun, hz, hc, hproduced, hlength⟩

end PgRedisProxy
