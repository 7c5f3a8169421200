import PgRedisProxy.Server.Execution
import PgRedisProxy.Server.Writing

/-!
# Clients that the worker serves to the end

`Calm` is a callback that does the worker no harm: the client does not disconnect and goes
on with its requests, less than 2 GiB of replies wait, a write is complete, and a connection
is closed after an error between two requests. Let PostgreSQL do what is documented of it.
If none of the requests is a `COMMAND`, and what they ask of the store can be sent,
`run_survives` says that the worker survives every interleaving, and that what was sent to
each client, followed by what waits, is the replies to the requests it has completed.
-/

namespace PgRedisProxy

open CLang Parties Resp

/-- What the next bytes of a client complete, of the requests it is to send. -/
def Client.arriving (c : Client) (requests : List Request) (bytes : List UInt8) : List Delivery :=
  ((completed requests (c.received ++ bytes).length).drop
    (completed requests c.received.length).length).map deliver

/-- A callback of a client that sends these requests. The replies produced for it after the callback
exceed what was sent by less than 2 GiB. -/
def Calm (r : DumpStatus) (db : Hstore) (script : Nat → List Request) (i : Nat) :
    ClientEvent → Shared → Client → Prop
  | .readable bytes, x, c =>
      bytes ≠ [] ∧ bytes.length ≤ bufferSize ∧
        c.received ++ bytes <+: (script i).flatMap encodeRequest ∧
        ∀ z ∈ executeAll r db (x.history ++ (c.arriving (script i) bytes).map (.request i)),
          ((z.repliesTo i).flatMap Reply.encode).length < c.output.sent.length + 2 ^ 31
  | .failed, _, c => ¬ c.bare.session.current.ArgumentMissing
  | .writable byteWrite, _, c => (byteWrite : Int) = c.output.writeInfo.sizeAnswer

instance (r : DumpStatus) (db : Hstore) (script : Nat → List Request) (i : Nat) :
    (b : ClientEvent) → (x : Shared) → (c : Client) → Decidable (Calm r db script i b x c)
  | .readable _, _, _ => inferInstanceAs (Decidable (_ ∧ _ ∧ _ ∧ ∀ z ∈ executeAll r db _, _ < _))
  | .failed, _, _ => inferInstanceAs (Decidable (¬ _))
  | .writable _, _, _ => inferInstanceAs (Decidable (_ = _))

/-- A client follows its script, and its output is exact. -/
def Orderly (script : Nat → List Request) (i : Nat) : Member Client → Prop
  | .present c | .left c => c.received <+: (script i).flatMap encodeRequest ∧ c.output.Exact
  | .absent => True

theorem Orderly.of_state {script : Nat → List Request} {i : Nat} {m : Member Client} {c : Client}
    (h : Orderly script i m) (hc : c ∈ m.state?) :
    c.received <+: (script i).flatMap encodeRequest ∧ c.output.Exact := by
  cases m with
  | absent => cases hc
  | present c' | left c' =>
      cases hc
      exact h

/-! ## Output -/

/-- What was sent and what waits is as long as what was produced. -/
theorem Output.Exact.length_eq {o : Output} (ho : o.Exact) :
    (o.sent.length : Int) + o.writeInfo.sizeAnswer = o.produced.length := by
  have hlength := congrArg List.length ho.bytes_eq
  have hge := ho.size_ge
  have hle := ho.size_le
  simp only [List.length_append, List.length_take, Block.length_ofBytes] at hlength
  omega

/-- A reply is queued as long as what waits stays below 2 GiB. -/
theorem Output.Exact.reply {o : Output} (ho : o.Exact) (rdAnswer : RdAnswer)
    (hroom : o.produced.length + rdAnswer.bytes.length < o.sent.length + 2 ^ 31) :
    ∃ o', o.step (.reply rdAnswer) = some o' ∧ o'.Exact ∧ o'.sent = o.sent ∧
      o'.produced = o.produced ++ rdAnswer.bytes := by
  have hlength := ho.length_eq
  have hharmless : o.Harmless (.reply rdAnswer) := by
    show o.writeInfo.sizeAnswer + rdAnswer.bytes.length < 2 ^ 31
    omega
  obtain ⟨o', hstep, hexact⟩ := (reply_exact_iff ho rdAnswer).mpr hharmless
  refine ⟨o', hstep, hexact, ?_⟩
  simp only [Output.step, Option.bind_eq_bind, Option.bind_eq_some_iff] at hstep
  obtain ⟨writeInfo, -, heq⟩ := hstep
  cases heq
  exact ⟨rfl, rfl⟩

/-- A complete write keeps the output exact. -/
theorem Output.Exact.written {c : Client} (ho : c.output.Exact) : c.written.output.Exact where
  size_ge := le_rfl
  size_le := Nat.zero_le _
  bytes_eq := by
    have hbytes := ho.bytes_eq
    simpa [Client.written] using hbytes

/-! ## Requests -/

/-- A request is read as its command. -/
theorem call?_deliver (name : List UInt8) (args : List (List UInt8)) :
    (deliver (name :: args)).call? = some (commandOf name args) := by
  have hargv := mapM_argSlot (name :: args)
  simp only [Delivery.call?, deliver, hargv]
  rfl

section Attempt

variable {p : Proxy} {o : Output} {z : Serial Tiers}

/-- The worker comes back from requests that are no `COMMAND`, as long as what waits stays below
2 GiB, and the output stays exact. -/
theorem attempt_survives (hp : p.Inv) (hz : p.tiers = z.store) (ho : o.Exact) {ds : List Delivery}
    (hds : ∀ d ∈ ds, ∃ c, d.call? = some c ∧ ¬ c.IsCommand) (l : Answer × Answer) (i : Nat) :
    ∃ (z' : Serial Tiers) (replies : List Reply),
      z.run (tiersStore p.cachingRegime) (ds.map (.request i)) = some z' ∧
      z'.answered = z.answered ++ replies.map (fun reply => (i, reply)) ∧
      (o.produced.length + (replies.flatMap Reply.encode).length < o.sent.length + 2 ^ 31 →
        ∃ next, connectionHandler.attempt l (p, o) ds = (ds, some next) ∧ next.2.2.Exact) := by
  induction ds generalizing p o l z with
  | nil =>
      exact ⟨z, [], rfl, by simp, fun _ => ⟨(l, (p, o)), rfl, ho⟩⟩
  | cons d ds ih =>
      obtain ⟨c, hcall, hc⟩ := hds d List.mem_cons_self
      have hds' := fun d' hd' => hds d' (List.mem_cons_of_mem _ hd')
      obtain ⟨reply, t, p₁, rest, hreply, hrefines, hown⟩ := connectionHandler_own hp hcall hc
      rw [hz] at hreply
      have hstep : z.step (tiersStore p.cachingRegime) (.request i d) =
          some ⟨t, z.answered ++ [(i, shown reply)]⟩ := by
        simp [Serial.step, tiersStore, hcall, hreply]
      by_cases hroom : o.produced.length + (shown reply).encode.length < o.sent.length + 2 ^ 31
      · -- the first reply is queued
        have hlength := ho.length_eq
        have hge := ho.size_ge
        have hlt : (shown reply).encode.length < 2 ^ 31 := by omega
        obtain ⟨o₁, hqueued, ho₁, hsent, hproduced⟩ :=
          ho.reply ⟨(shown reply).encode, hlt⟩ hroom
        obtain ⟨z', replies, hrun, hanswered, hback⟩ :=
          ih (z := ⟨t, z.answered ++ [(i, shown reply)]⟩) hrefines.inv hrefines.tiers_eq ho₁ hds'
            (.of rest reply, .bytes (shown reply).encode)
        rw [hrefines.cachingRegime_eq] at hrun
        refine ⟨z', shown reply :: replies,
          Machine.runFrom_cons_eq_some.mpr ⟨_, hstep, hrun⟩, by simp [hanswered], fun htotal => ?_⟩
        rw [List.flatMap_cons, List.length_append] at htotal
        have hroom' : o₁.produced.length + (replies.flatMap Reply.encode).length <
            o₁.sent.length + 2 ^ 31 := by
          simp only [hproduced, hsent, List.length_append]
          omega
        obtain ⟨next, hattempt, hexact⟩ := hback hroom'
        have hserve : connectionHandler.serve l (p, o) d =
            some ((.of rest reply, .bytes (shown reply).encode), (p₁, o₁)) := by
          rw [hown, rdAnswer?_bytes, dif_pos hlt]
          simp [hqueued]
        exact ⟨next, by simp only [Handler.attempt, hserve, hattempt], hexact⟩
      · -- it is too much already
        obtain ⟨z', replies, hrun, hanswered, -⟩ :=
          ih (z := ⟨t, z.answered ++ [(i, shown reply)]⟩) hrefines.inv hrefines.tiers_eq ho hds'
            (.of rest reply, .bytes (shown reply).encode)
        rw [hrefines.cachingRegime_eq] at hrun
        refine ⟨z', shown reply :: replies,
          Machine.runFrom_cons_eq_some.mpr ⟨_, hstep, hrun⟩, by simp [hanswered], fun htotal => ?_⟩
        rw [List.flatMap_cons, List.length_append] at htotal
        omega

end Attempt

/-! ## Callbacks -/

section Callbacks

variable {r : DumpStatus} {db : Hstore} {script : Nat → List Request} {i : Nat} {x : Shared}
  {z : Serial Tiers} {c : Client}

/-- The requests that arrive are those that the bytes lead behind. -/
theorem Client.arriving_eq {requests past batch rest : List Request} {bytes later : List UInt8}
    (hsplit : requests = past ++ (batch ++ rest))
    (hstream : requests.flatMap encodeRequest = c.received ++ (bytes ++ later))
    (hbefore : Remaining (batch ++ rest) (bytes ++ later)) (hafter : Remaining rest later) :
    c.arriving requests bytes = batch.map deliver := by
  have hpast : completed requests c.received.length = past := by
    rw [hsplit, hbefore.completed_eq]
    rw [← hsplit, hstream]
    simp only [List.length_append]
  have hboth : completed requests (c.received ++ bytes).length = past ++ batch := by
    rw [hsplit, ← List.append_assoc, hafter.completed_eq]
    rw [List.append_assoc, ← hsplit, hstream]
    simp only [List.length_append, Nat.add_assoc]
  rw [arriving, hpast, hboth, List.drop_left]

/-- A calm read event returns with the requests that its bytes complete, and the output stays
exact. -/
theorem onReadable_calm
    (hscript : ∀ request ∈ script i, WellFormed request ∧ ¬ IsCommand request)
    (hx : x.Executed r db z) (hserved : Served r db i x (.present c)) (hexact : c.output.Exact)
    {bytes : List UInt8} (hcalm : Calm r db script i (.readable bytes) x c) :
    c.ClosesCleanly (.readable bytes) ∧
      ∃ x' c', c.onReadable i bytes x = some (x', .present c') ∧ c'.output.Exact ∧
        c'.received = c.received ++ bytes ∧
          ∃ batch : List Request, (∀ request ∈ batch, request ∈ script i) ∧
            x'.history = x.history ++ (batch.map deliver).map (.request i) := by
  obtain ⟨hne, hlen, hsent, hroom⟩ := hcalm
  obtain ⟨hfollows, hproduced⟩ := hserved
  obtain ⟨past, rest, later, hsplit, hstream, hdrained, hexpects, hmade⟩ :=
    hfollows (script i) (fun request hr => (hscript request hr).1)
      ((List.prefix_append _ _).trans hsent)
  obtain ⟨later', hlater'⟩ := hsent
  obtain rfl : later = bytes ++ later' := by
    rw [hstream, List.append_assoc, List.append_right_inj] at hlater'
    exact hlater'.symm
  have hdrained' : (c.conn x.proxy).Drained :=
    ⟨hdrained.curBufferSize_eq, hdrained.length_eq, hdrained.status_ne⟩
  obtain ⟨conn, hread, hsession, -, -⟩ :=
    onReadCb_eq_scan id connectionHandler hdrained' hne hlen
  obtain ⟨batch, rest', rfl, hlater, hdelivered, hsome, -⟩ :=
    scan_expects connectionHandler connectionHandler.fresh (Client.expects_conn hexpects x.proxy)
  have harriving : c.arriving (script i) bytes = batch.map deliver :=
    Client.arriving_eq hsplit hstream hexpects.remaining hlater
  have hcalls : ∀ d ∈ batch.map deliver, ∃ call, d.call? = some call ∧ ¬ call.IsCommand := by
    intro d hd
    obtain ⟨request, hrequest, rfl⟩ := List.mem_map.mp hd
    obtain ⟨hwell, hcommand⟩ := hscript request (by simp [hsplit, hrequest])
    obtain ⟨name, args, rfl⟩ := List.exists_cons_of_ne_nil hwell.ne_nil
    exact ⟨commandOf name args, call?_deliver name args, hcommand⟩
  obtain ⟨z', replies, hrun, hanswered, hback⟩ :=
    attempt_survives hx.inv hx.tiers_eq hexact hcalls connectionHandler.fresh i
  rw [hx.cachingRegime_eq] at hrun
  -- the replies to them fit
  have hfits : c.output.produced.length + (replies.flatMap Reply.encode).length <
      c.output.sent.length + 2 ^ 31 := by
    have hall : executeAll r db (x.history ++ (c.arriving (script i) bytes).map (.request i)) =
        some z' := by
      rw [harriving]
      exact Serial.run_append hx.run_eq hrun
    have hlt := hroom z' hall
    rw [Serial.repliesTo_of_answered hanswered, if_pos rfl, List.flatMap_append,
      ← hproduced z hx, List.length_append] at hlt
    exact hlt
  obtain ⟨next, hattempt, hnext⟩ := hback hfits
  have hhost : (c.conn x.proxy).session.host = (x.proxy, c.output) := rfl
  rw [hhost, hattempt, ← hsession] at hsome
  rw [hhost, hattempt, ← hsession] at hdelivered
  have hmade' : conn.delivered = batch.map deliver := hdelivered
  obtain ⟨hexit, hhost', -⟩ := hsome next rfl
  rw [hexit] at hread
  have htake : bytes.take (bufferSize - c.readData.curBufferSize) = bytes := by
    have hcur : c.readData.curBufferSize = 0 := hdrained.curBufferSize_eq
    rw [hcur, Nat.sub_zero, List.take_of_length_le hlen]
  have hconn : conn.host = next.2 := hhost'
  refine ⟨by simpa only [Client.ClosesCleanly, htake] using hne, _, _,
    by simp only [Client.onReadable, Client.readBy, hread]; rfl, ?_, ?_, batch,
    fun request hrequest => by simp [hsplit, hrequest], by rw [hmade']⟩
  · show conn.host.2.Exact
    rw [hconn]
    exact hnext
  · show c.received ++ bytes.take (bufferSize - c.readData.curBufferSize) = c.received ++ bytes
    rw [htake]

/-- A calm write is complete, or the watcher is stopped. -/
theorem onWritable_calm (hexact : c.output.Exact) (hwakes : c.Wakes) {byteWrite : Nat}
    (hcalm : Calm r db script i (.writable byteWrite) x c) :
    c.onWritable byteWrite = some c ∨ c.onWritable byteWrite = some c.written := by
  have hcomplete : (byteWrite : Int) = c.output.writeInfo.sizeAnswer := hcalm
  cases hwriting : c.writing with
  | false => exact .inl (by simp [Client.onWritable, hwriting])
  | true =>
      have hne := hwakes.waits hwriting
      have hge := hexact.size_ge
      have hall := onWritable_all hwriting (by omega)
      rw [← hcomplete, Int.toNat_natCast] at hall
      exact .inr hall

end Callbacks

/-- Calm callbacks keep what is known of the connections, and their outputs exact. -/
theorem serverRules_orderly (r : DumpStatus) (db : Hstore) {script : Nat → List Request}
    (hscript : ∀ i, ∀ request ∈ script i, WellFormed request ∧ ¬ IsCommand request) :
    serverRules.Keeps (Calm r db script) (fun x => ∃ z, x.Executed r db z)
      fun i x m => (Served r db i x m ∧ Attended m) ∧ Orderly script i m :=
  ((serverRules_attended r db).guard fun _ => trivial).strengthen
    (fun g _ => ⟨List.nil_prefix, le_rfl, Nat.zero_le _, rfl⟩)
    (by
      rintro i b x c x' m ⟨z, hx⟩ ⟨hserved, hwakes⟩ ⟨hsent, hexact⟩ hcalm hact
      cases b with
      | readable bytes =>
          obtain ⟨-, x₁, c', hread, hexact', hreceived, -⟩ :=
            onReadable_calm (hscript i) hx hserved hexact hcalm
          have hact' : c.onReadable i bytes x = some (x', m) := hact
          rw [hread] at hact'
          cases hact'
          exact ⟨hreceived ▸ hcalm.2.2.1, hexact'⟩
      | failed =>
          cases hact
          exact ⟨hsent, hexact⟩
      | writable byteWrite =>
          obtain ⟨c', hwrite, heq⟩ := Option.map_eq_some_iff.mp hact
          cases heq
          rcases onWritable_calm hexact hwakes hcalm with hsame | hall
          · obtain rfl : c = c' := Option.some.inj (hsame.symm.trans hwrite)
            exact ⟨hsent, hexact⟩
          · obtain rfl : c.written = c' := Option.some.inj (hall.symm.trans hwrite)
            exact ⟨hsent, hexact.written⟩)

section Run

variable {D : Database} {Q : CString → Prop} {r : DumpStatus} {db : Hstore}
  {script : Nat → List Request}
  (hscript : ∀ i, ∀ request ∈ script i, WellFormed request ∧ ¬ IsCommand request)
include hscript

/-- Calm callbacks of clients that ask only for what can be sent keep that, too. -/
theorem serverRules_calm (hD : D.Intends Q)
    (hsendable : ∀ i, ∀ request ∈ script i, SendableRequest Q request) :
    serverRules.Keeps (Calm r db script)
      (fun x => (∃ z, x.Executed r db z) ∧ x.Sendable Q ∧ x.proxy.Ready Q)
      fun i x m => (Served r db i x m ∧ Attended m) ∧ Orderly script i m := by
  have hagree := serverRules_agree hD
  refine (serverRules_orderly r db hscript).and_shared ?_ ?_
  · rintro i b x c x' m ⟨z, hx⟩ ⟨⟨hserved, -⟩, -, hexact⟩ ⟨hsent, hready⟩ hcalm hact
    have hsent' : x'.Sendable Q := by
      cases b with
      | readable bytes =>
          obtain ⟨-, x₁, c', hread, -, -, batch, hbatch, hhistory⟩ :=
            onReadable_calm (hscript i) hx hserved hexact hcalm
          have hact' : c.onReadable i bytes x = some (x', m) := hact
          rw [hread] at hact'
          cases hact'
          intro e he
          rw [hhistory, eventsOf, List.flatMap_append, List.mem_append] at he
          rcases he with he | he
          · exact hsent e he
          · simp only [List.mem_flatMap, List.mem_map] at he
            obtain ⟨entry, ⟨d, ⟨request, hrequest, rfl⟩, rfl⟩, he⟩ := he
            exact hsendable i request (hbatch request hrequest) e he
      | failed =>
          cases hact
          exact hsent
      | writable byteWrite =>
          obtain ⟨c', -, heq⟩ := Option.map_eq_some_iff.mp hact
          cases heq
          exact hsent
    exact ⟨hsent', hagree.inv_act hready hsent' hact⟩
  · rintro e x x' ⟨z, hx⟩ ⟨hsent, hready⟩ hchange
    refine ⟨?_, onTimerTimeoutCb_ready hready hchange⟩
    have hchange' : onTimerTimeoutCb x = some x' := hchange
    unfold onTimerTimeoutCb at hchange'
    split at hchange'
    · rw [Option.bind_eq_bind, Option.bind_eq_some_iff] at hchange'
      obtain ⟨⟨rc, p⟩, -, heq⟩ := hchange'
      cases heq
      intro e he
      rw [eventsOf, List.flatMap_append, List.mem_append] at he
      rcases he with he | he
      · exact hsent e he
      · obtain rfl : e = .sync := by simpa [Entry.events] using he
        trivial
    · cases hchange'
      exact hsent

/-- The worker survives calm callbacks, and knows of the connections what it keeps. -/
theorem Server.runOn_calm (hD : D.Intends Q)
    (hsendable : ∀ i, ∀ request ∈ script i, SendableRequest Q request) {events : List ServerEvent}
    (hcalm : Machine.Along (serverRulesOn D).step (Guarded (Calm r db script)) (Server.start r db)
      events) :
    ∃ s, Server.runOn D r db events = some s ∧
      s.Holds (fun x => (∃ z, x.Executed r db z) ∧ x.Sendable Q ∧ x.proxy.Ready Q)
        fun i x m => (Served r db i x m ∧ Attended m) ∧ Orderly script i m := by
  have hstart : (Server.start r db).Holds
      (fun x => (∃ z, x.Executed r db z) ∧ x.Sendable Q ∧ x.proxy.Ready Q)
      fun i x m => (Served r db i x m ∧ Attended m) ∧ Orderly script i m :=
    ⟨⟨(Server.start_holds r db).shared, by simp [Shared.Sendable, Server.start, eventsOf],
      Proxy.start_ready Q r db⟩,
      fun i => ⟨⟨(Server.start_holds r db).member i, trivial⟩, trivial⟩⟩
  refine (serverRules_agree hD).survives (serverRules_calm hscript hD hsendable) (·.2) ?_ ?_ ?_
    hstart hcalm
  · rintro i b x c ⟨⟨z, hx⟩, -⟩ ⟨⟨hserved, -⟩, -, hexact⟩ hcalm
    cases b with
    | readable bytes => exact (onReadable_calm (hscript i) hx hserved hexact hcalm).1
    | failed => exact hcalm
    | writable => trivial
  · rintro i b x c ⟨⟨z, hx⟩, -⟩ ⟨⟨hserved, hwakes⟩, -, hexact⟩ hcalm
    cases b with
    | readable bytes =>
        obtain ⟨-, x', c', hread, -⟩ := onReadable_calm (hscript i) hx hserved hexact hcalm
        exact Option.isSome_iff_exists.mpr ⟨_, hread⟩
    | failed => rfl
    | writable byteWrite =>
        show ((c.onWritable byteWrite).map fun c => (x, Member.present c)).isSome
        rcases onWritable_calm hexact hwakes hcalm with hsame | hall
        · rw [hsame]
          rfl
        · rw [hall]
          rfl
  · rintro e x ⟨⟨z, hx⟩, -⟩
    obtain ⟨x', z', htimer, -⟩ := onTimerTimeoutCb_cases hx
    exact Option.isSome_iff_exists.mpr ⟨x', htimer⟩

/-- What was sent to a client, followed by what waits, is the replies to exactly the requests it has
completed. -/
theorem Orderly.delivered {i : Nat} {x : Shared} {z : Serial Tiers} {m : Member Client}
    (h : Orderly script i m) (hserved : Served r db i x m) (hx : x.Executed r db z) {c : Client}
    (hc : c ∈ m.state?) :
    c.output.sent ++ c.output.buffer.take c.output.writeInfo.sizeAnswer.toNat =
        Block.ofBytes ((z.repliesTo i).flatMap Reply.encode) ∧
      requestsOf i x.history = (completed (script i) c.received.length).map deliver := by
  obtain ⟨hfollows, hproduced⟩ := hserved.of_state hc
  obtain ⟨hsent, hexact⟩ := h.of_state hc
  refine ⟨?_, hfollows.made_eq (fun request hr => (hscript i request hr).1) hsent⟩
  rw [hexact.bytes_eq, hproduced z hx]

end Run

/-- Let PostgreSQL do what is documented of it. As long as no client disconnects, the clients send
well-formed requests other than `COMMAND`, with keys and values that are legal and without quotes,
keys that are not empty, and statement sizes that are `int`s, writes are complete, less than 2 GiB
of replies wait for each client, and errors come between two requests, the worker survives every
interleaving of its callbacks. What was sent to a client, followed by what waits, is then the
replies to exactly the requests it has completed, and the watcher for writing is started if and only
if bytes wait. -/
theorem run_survives {pg : Postgres} {Legal : CString → Prop} (hpg : Documented pg Legal)
    {r : DumpStatus} {db : Hstore} {script : Nat → List Request}
    (hscript : ∀ i, ∀ request ∈ script i, WellFormed request ∧ ¬ IsCommand request)
    (hsendable : ∀ i, ∀ request ∈ script i, SendableRequest (Quotable Legal) request)
    {events : List ServerEvent}
    (hcalm : Machine.Along (serverRulesOn (.ofPostgres pg)).step (Guarded (Calm r db script))
      (Server.start r db) events) :
    ∃ s z, Server.runOn (.ofPostgres pg) r db events = some s ∧
      executeAll r db s.shared.history = some z ∧ s.shared.proxy.tiers = z.store ∧
      (∀ i, ∀ c ∈ (s.member i).state?,
        c.output.sent ++ c.output.buffer.take c.output.writeInfo.sizeAnswer.toNat =
            Block.ofBytes ((z.repliesTo i).flatMap Reply.encode) ∧
        requestsOf i s.shared.history =
          (completed (script i) c.received.length).map deliver) ∧
      ∀ i c, s.member i = .present c →
        (c.writing = true ↔ 0 < c.output.writeInfo.sizeAnswer) := by
  obtain ⟨s, hrun, ⟨⟨z, hz⟩, -⟩, hmember⟩ :=
    Server.runOn_calm hscript hpg.intends hsendable hcalm
  refine ⟨s, z, hrun, hz.run_eq, hz.tiers_eq, fun i c hc => ?_, fun i c hc => ?_⟩
  · obtain ⟨⟨hserved, -⟩, horderly⟩ := hmember i
    exact horderly.delivered hscript hserved hz hc
  · obtain ⟨⟨-, hwakes⟩, -, hexact⟩ :
        (Served r db i s.shared (.present c) ∧ Attended (.present c)) ∧
          Orderly script i (.present c) := hc ▸ hmember i
    refine ⟨fun hwriting => ?_, hwakes.started⟩
    have hne := hwakes.waits hwriting
    have hge := hexact.size_ge
    omega

/-- A SET of the first client, and a GET of the second. -/
def twoScripts : Nat → List Request
  | 0 => [[ascii "SET", ascii "k", ascii "v"]]
  | 1 => [[ascii "GET", ascii "k"]]
  | _ => []

theorem twoScripts_sendable :
    ∀ i, ∀ request ∈ twoScripts i, SendableRequest (Quotable fun _ => True) request := by
  intro i request hrequest e he
  refine sampleEvents_sendable e ?_
  match i with
  | 0 =>
      obtain rfl := List.mem_singleton.mp hrequest
      revert e
      decide +kernel
  | 1 =>
      obtain rfl := List.mem_singleton.mp hrequest
      revert e
      decide +kernel
  | _ + 2 => cases hrequest

/-- The replies to both are written. -/
theorem run_survives_two :
    ∃ s z, Server.runOn (.ofPostgres samplePostgres) .defferDump (fun _ => none)
        (twoClients ++ [.act 1 (.writable 5), .act 0 (.writable 5)]) = some s ∧
      executeAll .defferDump (fun _ => none) s.shared.history = some z ∧
      s.shared.proxy.tiers = z.store := by
  have hscript : ∀ i, ∀ request ∈ twoScripts i, WellFormed request ∧ ¬ IsCommand request
    | 0 => by decide
    | 1 => by decide
    | _ + 2 => by simp [twoScripts]
  have hcalm : Machine.Along (serverRulesOn (.ofPostgres samplePostgres)).step
      (Guarded (Calm .defferDump (fun _ => none) twoScripts))
      (Server.start .defferDump fun _ => none)
      (twoClients ++ [.act 1 (.writable 5), .act 0 (.writable 5)]) := by
    decide +kernel
  obtain ⟨s, z, hrun, hexecuted, htiers, -⟩ :=
    run_survives samplePostgres_documented hscript twoScripts_sendable hcalm
  exact ⟨s, z, hrun, hexecuted, htiers⟩

end PgRedisProxy
