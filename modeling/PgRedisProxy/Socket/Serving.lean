import PgRedisProxy.Socket.Decoding

/-!
# Requests that are all served

A handler `Serves` some requests when the worker comes back from each of them, and what
outlives the read event does not depend on the locals of `on_read_cb`. Then it does not
depend on the chunking either: `readEvents_served` says what is left of a connection
after the encodings of the requests, in any read events.
-/

namespace PgRedisProxy

open CLang Resp

variable {L H : Type*} {h : Handler L H}

/-- The worker comes back from the requests, whatever its locals are, and leaves `host'`. -/
inductive Handler.Serves (h : Handler L H) : H → List Delivery → H → Prop
  | nil {host : H} : Serves h host [] host
  | cons {host host₁ host' : H} {d : Delivery} {ds : List Delivery}
      (hfirst : ∀ l, ∃ l', h.serve l host d = some (l', host₁)) (hrest : Serves h host₁ ds host') :
      Serves h host (d :: ds) host'

namespace Handler.Serves

variable {host host' : H}

/-- The requests of a read event are served one after the other. -/
theorem attempt {ds : List Delivery} (hserves : h.Serves host ds host') (l : L) :
    ∃ l', h.attempt l host ds = (ds, some (l', host')) := by
  induction hserves generalizing l with
  | nil => exact ⟨l, rfl⟩
  | @cons host host₁ host' d ds hfirst hrest ih =>
      obtain ⟨l₁, hserve⟩ := hfirst l
      obtain ⟨l', hattempt⟩ := ih l₁
      exact ⟨l', by simp only [Handler.attempt, hserve, hattempt]⟩

theorem split {ds ds' : List Delivery} (hserves : h.Serves host (ds ++ ds') host') :
    ∃ mid, h.Serves host ds mid ∧ h.Serves mid ds' host' := by
  induction ds generalizing host with
  | nil => exact ⟨host, .nil, hserves⟩
  | cons d ds ih =>
      cases hserves with
      | cons hfirst hrest =>
          obtain ⟨mid, hds, hds'⟩ := ih hrest
          exact ⟨mid, .cons hfirst hds, hds'⟩

end Handler.Serves

/-- Bytes are expected as long as requests are. -/
theorem Remaining.eq_nil {requests : List Request} {bytes : List UInt8}
    (hrest : Remaining requests bytes) (hbytes : bytes = []) : requests = [] := by
  cases hrest with
  | done => rfl
  | request hne _ => exact absurd (List.append_eq_nil_iff.mp hbytes).1 hne

/-- The read events that bring the rest of some requests leave what serving them leaves. -/
theorem readEvents_serves {c : Conn UInt8 H} (hc : c.Drained) {requests : List Request}
    {events : List (List UInt8)} (hreads : Reads events)
    (hk : c.session.Expects requests events.flatten) {host' : H}
    (hserves : h.Serves c.host (requests.map deliver) host') :
    (readEvents id h c events).1 = .finished ∧ (readEvents id h c events).2.host = host' := by
  induction events generalizing c requests with
  | nil =>
      have hnil : requests = [] := hk.remaining.eq_nil rfl
      subst hnil
      cases hserves
      exact ⟨rfl, rfl⟩
  | cons bytes events ih =>
      obtain ⟨hne, hlen⟩ := hreads bytes List.mem_cons_self
      obtain ⟨c₁, hread, hsession, hdrained, -⟩ := onReadCb_eq_scan id h hc hne hlen
      rw [List.flatten_cons] at hk
      obtain ⟨batch, rest, rfl, -, -, hsome, -⟩ := scan_expects h h.fresh hk
      rw [List.map_append] at hserves
      obtain ⟨mid, hbatch, hrest⟩ := hserves.split
      obtain ⟨l', hattempt⟩ := hbatch.attempt h.fresh
      have hhost : c.session.host = c.host := rfl
      rw [hhost, hattempt, ← hsession] at hsome
      obtain ⟨hexit, hmid, hexpects⟩ := hsome _ rfl
      rw [hexit] at hread hdrained
      have hmid' : c₁.host = mid := hmid
      rw [← hmid'] at hrest
      simp only [readEvents, hread]
      exact ih (hdrained rfl hexpects.status_ne)
        (fun b hb => hreads b (List.mem_cons_of_mem _ hb)) hexpects hrest

/-- A connection between two requests, with nothing in its buffer. -/
structure Conn.Ready (c : Conn UInt8 H) : Prop where
  drained : c.Drained
  idle : c.session.current.Idle

theorem Conn.Accepted.ready {c : Conn UInt8 H} (hc : c.Accepted) : c.Ready where
  drained := hc.drained
  idle := by
    rw [hc.current_eq]
    exact ⟨hc.readStatus_eq, hc.argc_eq, hc.parsingNum_eq⟩

/-- Well-formed requests in any chunking leave what serving them leaves. -/
theorem readEvents_served {c : Conn UInt8 H} (hc : c.Ready) {requests : List Request}
    (hrequests : ∀ request ∈ requests, WellFormed request) {events : List (List UInt8)}
    (hreads : Reads events) (hstream : events.flatten = requests.flatMap encodeRequest) {host' : H}
    (hserves : h.Serves c.host (requests.map deliver) host') :
    (readEvents id h c events).1 = .finished ∧ (readEvents id h c events).2.host = host' := by
  refine readEvents_serves hc.drained hreads ?_ hserves
  rw [hstream]
  exact Session.expects_all hc.idle hc.drained.status_ne hrequests

end PgRedisProxy
