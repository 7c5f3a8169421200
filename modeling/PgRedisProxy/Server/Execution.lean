import PgRedisProxy.Server.Serializable
import PgRedisProxy.Server.Worker
import PgRedisProxy.Socket.Closing

/-!
# The event loop over a database

`serverRulesOn` are the callbacks of a worker whose statements may fail, and which is gone
when it closes a connection by accesses that are not allowed. `Server.runOn` is an
interleaving of them. `Server.runOn_iff` is the main result: as long as everything executed
can be sent, and the statements have the effects they are meant to have, the worker does what
`Server.run` says. `Entry.events` are the store events of a request, so that what is known of
runs of the store is known of the server: `Server.run_store`.
-/

namespace PgRedisProxy

open CLang KeyValue Parties Resp

/-! ## Store events -/

/-- The store events of a request. -/
def Delivery.events (d : Delivery) : List Event :=
  (d.call?.map fun c => (Command.of c.1 c.2).events).getD []

/-- The store events of what the worker does to the store. -/
def Entry.events : Entry → List Event
  | .request _ d => d.events
  | .sync => [.sync]

/-- The store events of a history. -/
def eventsOf (history : List Entry) : List Event :=
  history.flatMap Entry.events

theorem Tiers.after_append (r : DumpStatus) (t : Tiers) (first second : List Event) :
    t.after r (first ++ second) = (t.after r first).after r second := by
  simp [Tiers.after]

theorem delAll_after (r : DumpStatus) (t : Tiers) (keys : List CString) :
    (t.delAll r keys).2 = t.after r (keys.map .del) := by
  induction keys generalizing t with
  | nil => rfl
  | cons key keys ih => exact ih _

/-- What a command leaves is what its events leave. -/
theorem serve_after {r : DumpStatus} {t t' : Tiers} {cmd : Command} {reply : Reply}
    (h : t.serve r cmd = some (reply, t')) : t' = t.after r cmd.events := by
  cases cmd with
  | get key =>
      cases h
      rfl
  | set key value =>
      cases h
      rfl
  | del keys =>
      cases h
      exact delAll_after r t keys
  | command => cases h
  | ping =>
      cases h
      rfl
  | invalid type =>
      cases h
      rfl

/-- A command without a reply has no events. -/
theorem events_of_serve_eq_none {r : DumpStatus} {t : Tiers} {cmd : Command}
    (h : t.serve r cmd = none) : cmd.events = [] := by
  cases cmd with
  | command => rfl
  | get key | set key value | del keys | ping | invalid type => cases h

/-- What a history leaves is what its events leave. -/
theorem executeAll_store {r : DumpStatus} {db : Hstore} {history : List Entry} {z : Serial Tiers}
    (h : executeAll r db history = some z) :
    z.store = (Tiers.start db).after r (eventsOf history) := by
  suffices hrun : ∀ (z₀ : Serial Tiers), z₀.run (tiersStore r) history = some z →
      z.store = z₀.store.after r (eventsOf history) from hrun _ h
  clear h
  induction history with
  | nil =>
      intro z₀ hrun
      cases hrun
      rfl
  | cons e history ih =>
      intro z₀ hrun
      obtain ⟨z₁, hstep, hrest⟩ := Machine.runFrom_cons_eq_some.mp hrun
      have hfirst : z₁.store = z₀.store.after r e.events := by
        cases e with
        | sync =>
            cases hstep
            rfl
        | request i d =>
            simp only [Serial.step, Option.bind_eq_some_iff] at hstep
            obtain ⟨call, hcall, hstep⟩ := hstep
            have hevents : Entry.events (.request i d) = (Command.of call.1 call.2).events := by
              simp [Entry.events, Delivery.events, hcall]
            rw [hevents]
            split at hstep
            · rename_i reply t hserve
              cases hstep
              exact serve_after hserve
            · rename_i hnone
              obtain ⟨last, -, rfl⟩ := Option.map_eq_some_iff.mp hstep
              rw [events_of_serve_eq_none hnone]
              rfl
      rw [ih z₁ hrest, hfirst, ← Tiers.after_append]
      rfl

/-- In every state of a run, the store is what the events of the history leave. -/
theorem Server.run_store {r : DumpStatus} {db : Hstore} {events : List ServerEvent} {s : Server}
    (hrun : Server.run r db events = some s) :
    s.shared.proxy.tiers = (Tiers.start db).after r (eventsOf s.shared.history) := by
  obtain ⟨⟨z, hz⟩, -⟩ := Server.run_holds hrun
  rw [hz.tiers_eq, executeAll_store hz.run_eq]

/-! ## Read events under two handlers -/

section Handlers

variable {α L L' H H' : Type*} {val : α → UInt8} {h : Handler L H} {h' : Handler L' H'}
  {locals : L → L' → Prop} {hosts : H → H' → Prop} {good : Delivery → Prop}

/-- Two connections that have come equally far, on hosts that correspond. -/
structure Conn.Mirrors (hosts : H → H' → Prop) (c : Conn α H) (c' : Conn α H') : Prop where
  readData_eq : c'.readData = c.readData
  delivered_eq : c'.delivered = c.delivered
  host : hosts c.host c'.host

/-- The second handler comes back from every good request that the first one comes back from, and
what they leave corresponds. -/
structure Handler.Mirrors (h : Handler L H) (h' : Handler L' H') (locals : L → L' → Prop)
    (hosts : H → H' → Prop) (good : Delivery → Prop) : Prop where
  fresh : locals h.fresh h'.fresh
  serve : ∀ {l l' a a' d l₁ a₁}, locals l l' → hosts a a' → good d →
    h.serve l a d = some (l₁, a₁) →
      ∃ l₁' a₁', h'.serve l' a' d = some (l₁', a₁') ∧ locals l₁ l₁' ∧ hosts a₁ a₁'

/-- A loop that returns does so under the other handler as well. -/
theorem readLoop_mirrors (hh : h.Mirrors h' locals hosts good) {fuel : Nat} {l : L} {l' : L'}
    {c c₁ : Conn α H} {c' : Conn α H'} (hl : locals l l') (hc : c.Mirrors hosts c')
    (hread : readLoop val h fuel l c = (.finished, c₁)) (hgood : ∀ d ∈ c₁.delivered, good d) :
    ∃ c₁', readLoop val h' fuel l' c' = (.finished, c₁') ∧ c₁.Mirrors hosts c₁' := by
  induction fuel generalizing l l' c c' with
  | zero =>
      cases hread
      exact ⟨c', rfl, hc⟩
  | succ fuel ih =>
      obtain ⟨hreadData, hdelivered, hhost⟩ := hc
      simp only [readLoop, hreadData] at hread ⊢
      split at hread
      · cases hread
      · rename_i hfault
        rw [if_neg hfault]
        split at hread
        · rename_i hpart
          cases hread
          rw [if_pos hpart]
          exact ⟨_, rfl, rfl, hdelivered, hhost⟩
        · rename_i hall
          rw [if_neg hall]
          cases hnext : h.serve l c.host
              (parseCliMes val (resetIfAll c.readData)).1.parse.delivery with
          | none => simp [hnext] at hread
          | some next =>
              obtain ⟨l₂, a₂⟩ := next
              simp only [hnext] at hread
              -- the request handed over is among those of the whole event
              have hmem : (parseCliMes val (resetIfAll c.readData)).1.parse.delivery ∈
                  c₁.delivered := by
                split at hread
                · obtain ⟨ds, l₃, hdelivered₁, -⟩ := readLoop_attempt hread
                  rw [hdelivered₁]
                  simp
                · cases hread
                  simp
              obtain ⟨l₂', a₂', hnext', hl₂, ha₂⟩ := hh.serve hl hhost (hgood _ hmem) hnext
              simp only [hnext']
              split at hread
              · rename_i hmore
                rw [if_pos hmore]
                exact ih hl₂ ⟨rfl, by rw [hdelivered], ha₂⟩ hread
              · rename_i hdone
                cases hread
                rw [if_neg hdone]
                exact ⟨_, rfl, rfl, by rw [hdelivered], ha₂⟩

/-- A read event that returns does so under the other handler as well. -/
theorem onReadCb_mirrors (hh : h.Mirrors h' locals hosts good)
    {c c₁ : Conn α H} {c' : Conn α H'} (hc : c.Mirrors hosts c') {bytes : List α}
    (hread : onReadCb val h c bytes = (.finished, c₁)) (hgood : ∀ d ∈ c₁.delivered, good d) :
    ∃ c₁', onReadCb val h' c' bytes = (.finished, c₁') ∧ c₁.Mirrors hosts c₁' := by
  unfold onReadCb at hread ⊢
  rw [hc.readData_eq]
  dsimp only at hread ⊢
  split at hread
  · cases hread
  · rename_i hne
    rw [if_neg hne]
    refine readLoop_mirrors hh hh.fresh ?_ hread hgood
    exact ⟨rfl, hc.delivered_eq, hc.host⟩

/-- The loop does not close the connection. -/
theorem readLoop_ne_closed {fuel : Nat} {l : L} {c : Conn α H} :
    (readLoop val h fuel l c).1 ≠ .closed := by
  induction fuel generalizing l c with
  | zero => simp [readLoop]
  | succ fuel ih =>
      simp only [readLoop]
      split
      · simp
      · split
        · simp
        · split
          · simp
          · split
            · exact ih
            · simp

/-- A connection that is closed is closed under every handler. -/
theorem onReadCb_closed {c c₁ : Conn α H} {c' : Conn α H'} (hreadData : c'.readData = c.readData)
    {bytes : List α} (hread : onReadCb val h c bytes = (.closed, c₁)) :
    onReadCb val h' c' bytes = (.closed, c') := by
  unfold onReadCb at hread ⊢
  rw [hreadData]
  dsimp only at hread ⊢
  split at hread
  · rename_i hnil
    rw [if_pos hnil]
  · exact absurd (congrArg Prod.fst hread) readLoop_ne_closed

end Handlers

/-- Handlers that do the same to good requests, in states with an assertion. -/
theorem Handler.Mirrors.of_eq {L H : Type*} {h h' : Handler L H} {I : L → Prop} {J : H → Prop}
    {good : Delivery → Prop} (hfresh : I h.fresh) (hfresh' : h'.fresh = h.fresh)
    (heq : ∀ {l a d}, I l → J a → good d → h'.serve l a d = h.serve l a d)
    (hkeep : ∀ {l a d l₁ a₁}, I l → J a → good d → h.serve l a d = some (l₁, a₁) → I l₁ ∧ J a₁) :
    h.Mirrors h' (fun l l' => l' = l ∧ I l) (fun a a' => a' = a ∧ J a) good where
  fresh := ⟨hfresh', hfresh⟩
  serve := by
    rintro l l' a a' d l₁ a₁ ⟨rfl, hl⟩ ⟨rfl, ha⟩ hd hserve
    obtain ⟨hl₁, ha₁⟩ := hkeep hl ha hd hserve
    exact ⟨l₁, a₁, (heq hl ha hd).trans hserve, ⟨rfl, hl₁⟩, rfl, ha₁⟩

/-! ## One request -/

/-- The arguments of a request are read as their strings. -/
theorem mapM_argumentAt (argv : List (Option Block)) :
    argv.mapM (fun slot : Option Block => slot.bind Block.cstr) =
      (argv.mapM fun slot : Option Block => slot.bind argumentAt).map (List.map Argument.text) := by
  induction argv with
  | nil => rfl
  | cons slot argv ih =>
      rw [List.mapM_cons, List.mapM_cons, ih]
      cases slot with
      | none => rfl
      | some b =>
          simp only [Option.bind_some, argumentAt]
          cases b.cstr with
          | none => rfl
          | some text => cases argv.mapM fun slot : Option Block => slot.bind argumentAt <;> rfl

theorem call?_eq_order? (d : Delivery) :
    (d.call?.map fun c => Command.of c.1 c.2) = d.order?.map Order.toCommand := by
  unfold Delivery.call? Delivery.order?
  rw [mapM_argumentAt]
  cases d.argv.mapM fun slot : Option Block => slot.bind argumentAt with
  | none => rfl
  | some argv =>
      cases argv with
      | nil => rfl
      | cons name args => simp [Order.toCommand_of]

/-- `pg_answer` holds a result, or nothing. -/
def Held (l : Answer × Answer) : Prop :=
  l.1 = .null ∨ ∃ rest reply, l.1 = .of rest reply

/-- What the request asks of the store can be sent. -/
def Delivery.Sendable (Q : CString → Prop) (d : Delivery) : Prop :=
  ∀ e ∈ d.events, e.Sendable Q

/-- What the request asks of the store can be sent when it is complete. -/
def SendableRequest (Q : CString → Prop) (request : Request) : Prop :=
  (deliver request).Sendable Q

section Request

variable {D : Database} {Q : CString → Prop} {p p' : Proxy} {o o' : Output} {d : Delivery}
  {l l' : Answer × Answer} {c : Call}

/-- The handling of a request that can be read is that of its command. -/
theorem connectionHandler_call (hcall : d.call? = some c) :
    connectionHandler.serve l (p, o) d =
      ((Command.of c.1 c.2).process .none p l.1).bind fun result =>
        if result.1 = -1 then none
        else (defineTypeReq result.2.1 l.2).bind fun answer =>
          if answer.1 = -1 then none
          else (answer.2.rdAnswer?.bind fun reply => o.step (.reply reply)).map fun o =>
            ((result.2.1, answer.2), (result.2.2, o)) := by
  simp only [connectionHandler, serviceHandler_call hcall, Service.serve, Call.argv,
    processRedisToPostgres_eq_process, Option.bind_eq_bind, Option.bind_assoc]
  refine congrArg _ (funext fun result => ?_)
  by_cases hrc : result.1 = -1
  · simp [hrc]
  · simp only [hrc, if_false, Option.bind_assoc]
    refine congrArg _ (funext fun answer => ?_)
    by_cases hrc : answer.1 = -1 <;> simp [hrc, Option.map_eq_bind, Option.bind_assoc]

/-- A result whose size is no `int` does not become a reply. -/
theorem connectionHandler_of_not_resultFits (hp : p.Inv) (hcall : d.call? = some c)
    (hlarge : ¬ (Command.of c.1 c.2).ResultFits p) : connectionHandler.serve l (p, o) d = none := by
  obtain ⟨key, hcmd⟩ : ∃ key, Command.of c.1 c.2 = .get key := by
    cases hcmd : Command.of c.1 c.2 with
    | get key => exact ⟨key, rfl⟩
    | set | del | command | ping | invalid =>
        rw [hcmd] at hlarge
        exact absurd trivial hlarge
  have hc : ¬ c.IsCommand := by
    intro hc
    rw [(Command.of_eq_command_iff c.1 c.2).mpr hc] at hcmd
    cases hcmd
  obtain ⟨reply, t, p', rest, hserve, -, hown⟩ := connectionHandler_own hp hcall hc
  rw [hcmd] at hserve hlarge
  obtain rfl : ((p.tiers.get p.cachingRegime key).1).toReply = reply :=
    congrArg Prod.fst (Option.some.inj hserve)
  rw [← (reqGet_refines hp key).1] at hown
  -- the value alone is too long for a reply
  obtain ⟨value, hvalue, hlength⟩ : ∃ value, (reqGet .none p key).1.value = some value ∧
      2 ^ 31 ≤ value.bytes.length + 2 := by
    have hlong : ∃ value ∈ (reqGet .none p key).1.value, ¬ value.strlen + 2 < 2 ^ 31 := by
      simpa [Command.ResultFits, GetReply.FitsInt] using hlarge
    obtain ⟨value, hvalue, hlength⟩ := hlong
    exact ⟨value, hvalue, Nat.le_of_not_lt hlength⟩
  have hshown : shown (reqGet .none p key).1.toReply = .bulk value.bytes := by
    simp only [GetReply.toReply, hvalue]
    obtain ⟨first, bytes, hbytes⟩ : ∃ first bytes, value.bytes = first :: bytes :=
      List.exists_cons_of_length_pos (by omega)
    rw [hbytes]
    rfl
  have hover : ¬ (Reply.bulk value.bytes).encode.length < 2 ^ 31 := by
    simp only [Reply.encode, List.length_append]
    have hcrlf : crlf.length = 2 := rfl
    omega
  rw [hown, hshown, rdAnswer?_bytes, dif_neg hover]
  rfl

/-- The worker does with a request that can be sent what the request is meant to do. -/
theorem workerHandler_eq (hD : D.Intends Q) (hp : p.Inv) (hwaits : p.Waits Q)
    (hd : d.Sendable Q) :
    (workerHandler D).serve l (p, o) d = connectionHandler.serve l (p, o) d := by
  have hcalls := call?_eq_order? d
  cases horder : d.order? with
  | none =>
      have hcall : d.call? = none := by simpa [horder] using hcalls
      rw [workerHandler_order_none horder]
      simp only [connectionHandler, serviceHandler_call_none hcall, Option.bind_eq_bind,
        Option.bind_none]
  | some order =>
      rw [horder, Option.map_some, Option.map_eq_some_iff] at hcalls
      obtain ⟨c, hcall, hcmd⟩ := hcalls
      have hevents : ∀ e ∈ order.toCommand.events, e.Sendable Q := by
        intro e he
        refine hd e ?_
        simpa [Delivery.events, hcall, hcmd] using he
      rw [workerHandler_order horder, Order.process_intended hD hp hwaits hevents]
      by_cases hfits : order.toCommand.ResultFits p
      · rw [if_pos hfits, connectionHandler_call hcall, hcmd]
      · rw [if_neg hfits, connectionHandler_of_not_resultFits hp hcall (hcmd ▸ hfits),
          Option.bind_none]

/-- A request that can be sent leaves only what can be sent in the log. -/
theorem connectionHandler_keeps (hp : p.Inv) (hwaits : p.Waits Q) (hl : Held l)
    (hd : d.Sendable Q) (hserve : connectionHandler.serve l (p, o) d = some (l', (p', o'))) :
    Held l' ∧ p'.Inv ∧ p'.Waits Q := by
  cases hcall : d.call? with
  | none => simp [connectionHandler, serviceHandler_call_none hcall] at hserve
  | some c =>
      by_cases hc : c.IsCommand
      · obtain ⟨pgAnswer, rdAnswer⟩ := l
        obtain ⟨hnull, hrepeat⟩ := connectionHandler_command hcall hc o (p := p)
        rcases hl with hl | ⟨rest, reply, hl⟩
        · obtain rfl : pgAnswer = .null := hl
          rw [hnull] at hserve
          cases hserve
        · obtain rfl : pgAnswer = .of rest reply := hl
          rw [hrepeat, Option.map_eq_some_iff] at hserve
          obtain ⟨o₁, -, heq⟩ := hserve
          cases heq
          exact ⟨.inr ⟨rest, reply, rfl⟩, hp, hwaits⟩
      · obtain ⟨reply, t, p₁, rest, hreply, hrefines, hown⟩ := connectionHandler_own hp hcall hc
        rw [hown, Option.map_eq_some_iff] at hserve
        obtain ⟨o₁, -, heq⟩ := hserve
        cases heq
        refine ⟨.inr ⟨rest, reply, rfl⟩, hrefines.inv, ?_⟩
        rw [serve_after hreply] at hrefines
        refine hwaits.after (fun e he => hd e ?_) hrefines
        simpa [Delivery.events, hcall] using he

/-- The store of a worker is in order, and what waits in its log can be sent. -/
def Proxy.Ready (Q : CString → Prop) (p : Proxy) : Prop :=
  p.Inv ∧ p.Waits Q

/-- Requests that can be sent are handled alike. -/
theorem workerHandler_mirrors (hD : D.Intends Q) :
    connectionHandler.Mirrors (workerHandler D) (fun l l' => l' = l ∧ Held l)
        (fun a a' => a' = a ∧ a.1.Ready Q) (Delivery.Sendable Q) ∧
      (workerHandler D).Mirrors connectionHandler (fun l l' => l' = l ∧ Held l)
        (fun a a' => a' = a ∧ a.1.Ready Q) (Delivery.Sendable Q) := by
  have heq : ∀ {l} {a : Proxy × Output} {d : Delivery}, a.1.Ready Q → d.Sendable Q →
      (workerHandler D).serve l a d = connectionHandler.serve l a d :=
    fun ha hd => workerHandler_eq hD ha.1 ha.2 hd
  have hkeep : ∀ {l} {a : Proxy × Output} {d l₁} {a₁ : Proxy × Output}, Held l → a.1.Ready Q →
      d.Sendable Q → connectionHandler.serve l a d = some (l₁, a₁) →
        Held l₁ ∧ a₁.1.Ready Q := by
    intro l a d l₁ a₁ hl ha hd hserve
    obtain ⟨hl₁, hp₁, hwaits₁⟩ := connectionHandler_keeps ha.1 ha.2 hl hd hserve
    exact ⟨hl₁, hp₁, hwaits₁⟩
  constructor
  · exact .of_eq (J := fun a : Proxy × Output => a.1.Ready Q) (.inl rfl) rfl
      (fun _ ha hd => heq ha hd) hkeep
  · exact .of_eq (J := fun a : Proxy × Output => a.1.Ready Q) (.inl rfl) rfl
      (fun _ ha hd => (heq ha hd).symm)
      (fun hl ha hd hserve => hkeep hl ha hd ((heq ha hd).symm.trans hserve))

end Request

/-! ## Callbacks -/

/-- The callback does not close the connection, or does so by accesses that are allowed. When `read`
has returned 0, `on_read_cb` writes to what `close_connection` has freed, and `close_connection`
itself frees every slot of `argv`, which must be set. -/
def Client.ClosesCleanly (c : Client) : ClientEvent → Prop
  | .readable bytes => bytes.take (bufferSize - c.readData.curBufferSize) ≠ []
  | .failed => ¬ c.bare.session.current.ArgumentMissing
  | .writable _ => True

instance (c : Client) : DecidablePred c.ClosesCleanly
  | .readable _ => inferInstanceAs (Decidable (_ ≠ _))
  | .failed => inferInstanceAs (Decidable (¬ _))
  | .writable _ => .isTrue trivial

/-- The callbacks of a connection over a database. -/
def clientActOn (D : Database) (i : Nat) (b : ClientEvent) (x : Shared) (c : Client) :
    Option (Shared × Member Client) :=
  if c.ClosesCleanly b then
    match b with
    | .readable bytes => c.readBy (workerHandler D) i bytes x
    | .failed => some (x, .left c)
    | .writable byteWrite => (c.onWritable byteWrite).map fun c => (x, .present c)
  else none

/-- `on_timer_timeout_cb` over a database. -/
def onTimerTimeoutCbOn (D : Database) (x : Shared) : Option Shared :=
  if x.proxy.cachingRegime = .defferDump then do
    let (_, p) ← syncWithDbOn D x.proxy
    some ⟨p, x.history ++ [.sync]⟩
  else some x

/-- The callbacks of the event loop over a database. -/
def serverRulesOn (D : Database) : Rules Nat Allocated ClientEvent Unit Shared Client where
  join := onAcceptCb
  act := clientActOn D
  change := fun _ => onTimerTimeoutCbOn D

/-- Callbacks in any order, over a database. -/
def Server.runOn (D : Database) (r : DumpStatus) (db : Hstore) (events : List ServerEvent) :
    Option Server :=
  Machine.runFrom (serverRulesOn D).step (Server.start r db) events

/-- Everything executed so far can be sent. -/
def Shared.Sendable (Q : CString → Prop) (x : Shared) : Prop :=
  ∀ e ∈ eventsOf x.history, e.Sendable Q

/-- What was executed before can be sent. -/
theorem Shared.Sendable.of_prefix {Q : CString → Prop} {x x' : Shared} (h : x'.Sendable Q)
    (hhistory : x.history <+: x'.history) : x.Sendable Q := by
  obtain ⟨later, hlater⟩ := hhistory
  intro e he
  refine h e ?_
  rw [← hlater, eventsOf, List.flatMap_append]
  exact List.mem_append_left _ he

section Callbacks

variable {D : Database} {Q : CString → Prop} {i : Nat} {b : ClientEvent} {x x' : Shared}
  {c : Client} {m : Member Client}

/-- A read event does the same under handlers that do the same to good requests. -/
theorem Client.readBy_mirrors {h h' : Handler (Answer × Answer) (Proxy × Output)}
    {locals : Answer × Answer → Answer × Answer → Prop}
    (hh : h.Mirrors h' locals (fun a a' => a' = a ∧ a.1.Ready Q) (Delivery.Sendable Q))
    (hx : x.proxy.Ready Q) (hgood : x'.Sendable Q) {bytes : List UInt8}
    (hact : c.readBy h i bytes x = some (x', m)) :
    c.readBy h' i bytes x = some (x', m) ∧ x'.proxy.Ready Q := by
  have hconn : (c.conn x.proxy).Mirrors (fun a a' : Proxy × Output => a' = a ∧ a.1.Ready Q)
      (c.conn x.proxy) := ⟨rfl, rfl, rfl, hx⟩
  unfold Client.readBy at hact ⊢
  split at hact
  · rename_i conn hread
    cases hact
    obtain ⟨conn', hread', hreadData, hdelivered, hhost, hready⟩ :=
      onReadCb_mirrors hh hconn hread fun d hd e he =>
        hgood e (List.mem_flatMap.mpr
          ⟨.request i d, List.mem_append_right _ (List.mem_map_of_mem hd), he⟩)
    refine ⟨?_, hready⟩
    simp only [hread', hreadData, hdelivered, hhost]
  · rename_i conn hread
    cases hact
    rw [onReadCb_closed rfl hread]
    exact ⟨rfl, hx⟩
  · cases hact
  · cases hact

/-- What has been executed stays where it is in the order. -/
theorem clientActOn_history (hact : clientActOn D i b x c = some (x', m)) :
    x.history <+: x'.history := by
  unfold clientActOn at hact
  split at hact
  · cases b with
    | readable bytes => exact Client.readBy_history hact
    | failed =>
        cases hact
        exact List.prefix_rfl
    | writable byteWrite =>
        obtain ⟨c', -, heq⟩ := Option.map_eq_some_iff.mp hact
        cases heq
        exact List.prefix_rfl
  · cases hact

theorem onTimerTimeoutCbOn_history (hchange : onTimerTimeoutCbOn D x = some x') :
    x.history <+: x'.history := by
  unfold onTimerTimeoutCbOn at hchange
  split at hchange
  · rw [Option.bind_eq_bind, Option.bind_eq_some_iff] at hchange
    obtain ⟨⟨rc, p⟩, -, heq⟩ := hchange
    cases heq
    exact List.prefix_append _ _
  · cases hchange
    exact List.prefix_rfl

/-- The timer does what it is meant to. -/
theorem onTimerTimeoutCbOn_eq (hD : D.Intends Q) (hx : x.proxy.Ready Q) :
    onTimerTimeoutCbOn D x = onTimerTimeoutCb x := by
  rw [onTimerTimeoutCbOn, onTimerTimeoutCb, syncWithDbOn_intended hD hx.2]

theorem onTimerTimeoutCb_ready (hx : x.proxy.Ready Q) (hchange : onTimerTimeoutCb x = some x') :
    x'.proxy.Ready Q := by
  unfold onTimerTimeoutCb at hchange
  by_cases hr : x.proxy.cachingRegime = .defferDump
  · obtain ⟨p', hsync, hrefines⟩ := syncWithDb_refines hx.1 hr
    rw [if_pos hr, hsync] at hchange
    cases hchange
    refine ⟨hrefines.inv, fun w hw => ?_⟩
    rw [hrefines.tiers_eq] at hw
    cases hw
  · rw [if_neg hr] at hchange
    cases hchange
    exact hx

end Callbacks

/-- The parties of the event loop close cleanly. -/
def Clean (_ : Nat) (b : ClientEvent) (_ : Shared) (c : Client) : Prop :=
  c.ClosesCleanly b

instance (i : Nat) (b : ClientEvent) (x : Shared) (c : Client) : Decidable (Clean i b x c) :=
  inferInstanceAs (Decidable (c.ClosesCleanly b))

/-- The callbacks do what they are meant to, as long as everything executed can be sent. -/
theorem serverRules_agree {D : Database} {Q : CString → Prop} (hD : D.Intends Q) :
    serverRules.Agree (serverRulesOn D) Clean (Shared.Sendable Q) fun x => x.proxy.Ready Q := by
  obtain ⟨hto, hfrom⟩ := workerHandler_mirrors hD
  exact
    { join := rfl
      good_act := by
        rintro i b x c x₁ m (hact | hact) hgood
        · exact hgood.of_prefix (clientAct_history hact)
        · exact hgood.of_prefix (clientActOn_history hact)
      good_change := by
        rintro e x x₁ (hchange | hchange) hgood
        · exact hgood.of_prefix (onTimerTimeoutCb_history hchange)
        · exact hgood.of_prefix (onTimerTimeoutCbOn_history hchange)
      act := by
        intro i b x c x₁ m hx hgood
        show clientActOn D i b x c = some (x₁, m) ↔
          c.ClosesCleanly b ∧ clientAct i b x c = some (x₁, m)
        by_cases hclean : c.ClosesCleanly b
        · simp only [clientActOn, hclean, if_true, true_and]
          cases b with
          | readable bytes =>
              constructor
              · exact fun hact => (Client.readBy_mirrors hfrom hx hgood hact).1
              · exact fun hact => (Client.readBy_mirrors hto hx hgood hact).1
          | failed | writable => exact Iff.rfl
        · simp [clientActOn, hclean]
      change := by
        intro e x x₁ hx hgood
        show onTimerTimeoutCbOn D x = some x₁ ↔ onTimerTimeoutCb x = some x₁
        rw [onTimerTimeoutCbOn_eq hD hx]
      inv_act := by
        intro i b x c x₁ m hx hgood hact
        cases b with
        | readable bytes => exact (Client.readBy_mirrors hto hx hgood hact).2
        | failed =>
            cases hact
            exact hx
        | writable byteWrite =>
            obtain ⟨c', -, heq⟩ := Option.map_eq_some_iff.mp hact
            cases heq
            exact hx
      inv_change := fun hx _ hchange => onTimerTimeoutCb_ready hx hchange }

theorem Proxy.start_ready (Q : CString → Prop) (r : DumpStatus) (db : Hstore) :
    (Proxy.start r db).Ready Q :=
  ⟨Proxy.start_inv r db, by simp [Proxy.Waits, Proxy.start_tiers, Tiers.start]⟩

/-- As long as everything executed can be sent, and the statements have the effects meant for it,
the worker over the database does what it is meant to, unless it does not close a connection
cleanly. -/
theorem Server.runOn_iff {D : Database} {Q : CString → Prop} (hD : D.Intends Q) {r : DumpStatus}
    {db : Hstore} {events : List ServerEvent} {s : Server} (hsent : s.shared.Sendable Q) :
    Server.runOn D r db events = some s ↔
      Machine.Along serverRules.step (Guarded Clean) (Server.start r db) events ∧
        Server.run r db events = some s :=
  (serverRules_agree hD).run_iff (Proxy.start_ready Q r db) hsent

/-- What the two clients ask of the store, and a timer. -/
def sampleEvents : List Event :=
  [.get sampleKey, .set sampleKey ⟨ascii "v", by decide⟩, .sync]

theorem sampleEvents_sendable : ∀ e ∈ sampleEvents, e.Sendable (Quotable fun _ => True) := by
  have hkey : Quotable (fun _ => True) sampleKey := ⟨trivial, by decide⟩
  have hvalue : Quotable (fun _ => True) ⟨ascii "v", by decide⟩ := ⟨trivial, by decide⟩
  simp only [sampleEvents, List.mem_cons, List.not_mem_nil, or_false, forall_eq_or_imp, forall_eq]
  exact ⟨⟨by decide, hkey, by decide⟩, ⟨by decide, ⟨hkey, hvalue⟩, by decide⟩, trivial⟩

end PgRedisProxy
