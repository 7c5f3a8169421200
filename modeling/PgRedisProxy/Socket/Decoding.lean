import PgRedisProxy.Socket.Feeding
import PgRedisProxy.Socket.Fields

/-!
# Request decoding undoes request encoding

The encodings of some requests, cut into reads in any way, are delivered as these
requests, as long as the worker comes back from the handling of each. What the
handling is stays open: `Handler.attemptAll` hands it the requests that each read
completes, and `decodes_iff`, the main result, says that decoding succeeds exactly if
no request is left over in this way.
-/

namespace PgRedisProxy

open CLang Resp

/-- What `process_redis_to_postgres` is to get for a request: the argument count, and each argument
with a terminator. -/
def deliver (request : Request) : Delivery :=
  ⟨request.length, request.map argSlot⟩

/-- The requests whose encodings end within the first `n` bytes of the stream. -/
def completed : List Request → Nat → List Request
  | [], _ => []
  | request :: requests, n =>
      if (encodeRequest request).length ≤ n then
        request :: completed requests (n - (encodeRequest request).length)
      else []

/-- The requests that each read event completes, when `n` bytes were read before. -/
def arrivals (requests : List Request) (n : Nat) : List (List UInt8) → List (List Request)
  | [] => []
  | bytes :: events =>
      (completed requests (n + bytes.length)).drop (completed requests n).length ::
        arrivals requests (n + bytes.length) events

section Attempt

variable {L H : Type*} (h : Handler L H)

/-- Requests handed to the handling, one after the other, until the worker does not come back: those
that were handed over, and what the last of them left. -/
def Handler.attempt (l : L) (host : H) : List Delivery → List Delivery × Option (L × H)
  | [] => ([], some (l, host))
  | d :: ds =>
      match h.serve l host d with
      | none => ([d], none)
      | some (l, host) => (d :: (Handler.attempt l host ds).1, (Handler.attempt l host ds).2)

/-- The requests of several read events, each with fresh locals. -/
def Handler.attemptAll (host : H) : List (List Delivery) → List Delivery × Option H
  | [] => ([], some host)
  | ds :: events =>
      match h.attempt h.fresh host ds with
      | (made, none) => (made, none)
      | (made, some (_, host)) =>
          (made ++ (Handler.attemptAll host events).1, (Handler.attemptAll host events).2)

theorem Handler.attempt_prefix (l : L) (host : H) (ds : List Delivery) :
    (h.attempt l host ds).1 <+: ds := by
  induction ds generalizing l host with
  | nil => exact List.prefix_rfl
  | cons d ds ih =>
      simp only [Handler.attempt]
      cases h.serve l host d with
      | none => exact ⟨ds, rfl⟩
      | some next => exact (List.prefix_cons_inj d).mpr (ih next.1 next.2)

/-- The worker has come back only from requests that were all handed over. -/
theorem Handler.attempt_eq_of_some {l : L} {host : H} {ds made : List Delivery} {next : L × H}
    (hnext : h.attempt l host ds = (made, some next)) : made = ds := by
  induction ds generalizing l host made with
  | nil =>
      cases hnext
      rfl
  | cons d ds ih =>
      simp only [Handler.attempt] at hnext
      cases hserve : h.serve l host d with
      | none => simp [hserve] at hnext
      | some next' =>
          simp only [hserve, Prod.mk.injEq] at hnext
          obtain ⟨rfl, hnext⟩ := hnext
          exact congrArg (List.cons d) (ih (Prod.ext rfl hnext))

theorem Handler.attemptAll_prefix (host : H) (events : List (List Delivery)) :
    (h.attemptAll host events).1 <+: events.flatten := by
  induction events generalizing host with
  | nil => exact List.prefix_rfl
  | cons ds events ih =>
      have hfirst := h.attempt_prefix h.fresh host ds
      simp only [Handler.attemptAll, List.flatten_cons]
      cases hmade : h.attempt h.fresh host ds with
      | mk made next =>
          rw [hmade] at hfirst
          cases next with
          | none => exact hfirst.trans (List.prefix_append ds _)
          | some next =>
              rw [h.attempt_eq_of_some hmade]
              exact (List.prefix_append_right_inj ds).mpr (ih next.2)

end Attempt

/-! ## What is left of a stream -/

theorem encodeRequest_ne_nil (request : Request) : encodeRequest request ≠ [] := by
  simp [encodeRequest, ascii]

/-- These bytes are the rest of the encodings of these requests: the first of them may have been
read in part. -/
inductive Remaining : List Request → List UInt8 → Prop
  | done : Remaining [] []
  | request {request : Request} {cur : List UInt8} {more : List Request} (hne : cur ≠ [])
      (hle : cur.length ≤ (encodeRequest request).length) :
      Remaining (request :: more) (cur ++ more.flatMap encodeRequest)

theorem remaining_all (requests : List Request) :
    Remaining requests (requests.flatMap encodeRequest) := by
  cases requests with
  | nil => exact .done
  | cons request more => exact .request (encodeRequest_ne_nil request) le_rfl

/-- The next byte is the last one of the first request, or more of the request is left. -/
theorem Remaining.cons_cases {requests : List Request} {b : UInt8} {bytes : List UInt8}
    (hrest : Remaining requests (b :: bytes)) :
    ∃ request more cur, requests = request :: more ∧ bytes = cur ++ more.flatMap encodeRequest ∧
      (cur = [] ∨ cur ≠ [] ∧ Remaining requests bytes) := by
  generalize hbytes : b :: bytes = all at hrest
  cases hrest with
  | done => cases hbytes
  | @request request cur more hne hle =>
      obtain ⟨b', cur, rfl⟩ := List.exists_cons_of_ne_nil hne
      obtain ⟨-, rfl⟩ : b = b' ∧ bytes = cur ++ more.flatMap encodeRequest := by simpa using hbytes
      refine ⟨request, more, cur, rfl, rfl, ?_⟩
      by_cases hlast : cur = []
      · exact .inl hlast
      · exact .inr ⟨hlast, .request hlast (by rw [List.length_cons] at hle; omega)⟩

/-- No bytes are left of no requests. -/
theorem Remaining.bytes_eq_nil {bytes : List UInt8} (hrest : Remaining [] bytes) : bytes = [] := by
  cases hrest
  rfl

/-- Reading on completes some requests and leaves a rest of the others. -/
theorem Remaining.split {requests : List Request} {chunk later : List UInt8}
    (hrest : Remaining requests (chunk ++ later)) :
    ∃ batch requests', requests = batch ++ requests' ∧ Remaining requests' later := by
  induction chunk generalizing requests with
  | nil => exact ⟨[], requests, rfl, hrest⟩
  | cons b chunk ih =>
      obtain ⟨request, more, cur, rfl, hbytes, rfl | ⟨-, hsame⟩⟩ := hrest.cons_cases
      · have hmore := remaining_all more
        rw [← List.nil_append (more.flatMap encodeRequest), ← hbytes] at hmore
        obtain ⟨batch, requests', rfl, hlater⟩ := ih hmore
        exact ⟨request :: batch, requests', rfl, hlater⟩
      · exact ih hsame

/-- Where some requests are complete and the next one is not. -/
theorem completed_append {past rest : List Request} {n : Nat}
    (hge : (past.flatMap encodeRequest).length ≤ n)
    (hlt : ∀ request more, rest = request :: more →
      n < (past.flatMap encodeRequest).length + (encodeRequest request).length) :
    completed (past ++ rest) n = past := by
  induction past generalizing n with
  | nil =>
      cases rest with
      | nil => rfl
      | cons request more =>
          have := hlt request more rfl
          simp only [List.flatMap_nil, List.length_nil] at this
          simp only [List.nil_append, completed]
          rw [if_neg (by omega)]
  | cons first past ih =>
      simp only [List.flatMap_cons, List.length_append] at hge hlt
      simp only [List.cons_append, completed]
      rw [if_pos (by omega), ih (by omega)]
      intro request more hrest
      have := hlt request more hrest
      omega

/-- The requests that are complete are those before the rest. -/
theorem Remaining.completed_eq {past rest : List Request} {later : List UInt8}
    (hrest : Remaining rest later) {n : Nat}
    (hn : n + later.length = ((past ++ rest).flatMap encodeRequest).length) :
    completed (past ++ rest) n = past := by
  rw [List.flatMap_append, List.length_append] at hn
  cases hrest with
  | done =>
      simp only [List.length_nil, List.flatMap_nil, Nat.add_zero] at hn
      exact completed_append (by omega) (by simp)
  | @request request cur more hne hle =>
      have hpos := List.length_pos_of_ne_nil hne
      simp only [List.length_append, List.flatMap_cons] at hn
      refine completed_append (by omega) ?_
      intro request' more' heq
      cases heq
      omega

/-! ## The parser in the middle of a stream -/

/-- The parser still needs these bytes to complete the request. -/
def ParseState.Awaits (s : ParseState) (request : Request) (cur : List UInt8) : Prop :=
  ∃ body s', cur = body ++ [10] ∧ feedAll s body = some s' ∧ s'.Between request.length request

theorem ParseState.Idle.awaits {s : ParseState} (hs : s.Idle) {request : Request}
    (hrequest : WellFormed request) : s.Awaits request (encodeRequest request) := by
  obtain ⟨s₁, hstar, hs₁⟩ := hs.feed_star
  obtain ⟨body, s', hbody, hfed, hs'⟩ := hs₁.feedAll_request hrequest (readNat_decimal _)
    (forall₂_encodeArgument request)
  refine ⟨42 :: body, s', ?_, by simpa [feedAll, hstar] using hfed, hs'⟩
  have hsplit : encodeRequest request =
      42 :: (decimal request.length ++ crlf ++ (request.map encodeArgument).flatten) := by
    simp [encodeRequest, ascii, List.flatMap]
  rw [hsplit, hbody, List.cons_append]

/-- The last byte a request needs completes it. -/
theorem ParseState.Awaits.last {s : ParseState} {request : Request} {b : UInt8}
    (hs : s.Awaits request [b]) : feed s b = .all s ∧ s.delivery = deliver request := by
  obtain ⟨body, s', hcur, hfed, hs'⟩ := hs
  obtain ⟨rfl, rfl⟩ : body = [] ∧ b = 10 := by
    cases body with
    | nil => simpa using hcur
    | cons c body => simp at hcur
  obtain rfl : s = s' := Option.some.inj hfed
  exact ⟨hs'.feed_lf, hs'.delivery_eq⟩

/-- Any byte before the last one is passed. -/
theorem ParseState.Awaits.next {s : ParseState} {request : Request} {b : UInt8} {cur : List UInt8}
    (hs : s.Awaits request (b :: cur)) (hne : cur ≠ []) :
    ∃ s', feed s b = .next s' ∧ s'.Awaits request cur := by
  obtain ⟨body, s', hcur, hfed, hs'⟩ := hs
  cases body with
  | nil =>
      have htail : cur = [] := by simpa using (List.cons.inj hcur).2
      exact absurd htail hne
  | cons c body =>
      obtain ⟨rfl, rfl⟩ : b = c ∧ cur = body ++ [10] := by simpa using hcur
      simp only [feedAll] at hfed
      cases hfeed : feed s b with
      | next s₁ =>
          rw [hfeed] at hfed
          exact ⟨s₁, rfl, body, s', rfl, hfed, hs'⟩
      | err s₁ => simp [hfeed] at hfed
      | all s₁ => simp [hfeed] at hfed
      | fault => simp [hfeed] at hfed

/-- The session is to complete these requests with these bytes. -/
structure Session.Expects {H : Type*} (k : Session UInt8 H) (requests : List Request)
    (bytes : List UInt8) : Prop where
  remaining : Remaining requests bytes
  wellFormed : ∀ request ∈ requests, WellFormed request
  status_ne : k.exitStatus ≠ .err
  awaits : ∀ request more cur, requests = request :: more →
    bytes = cur ++ more.flatMap encodeRequest → k.current.Awaits request cur

/-- Between two requests. -/
theorem Session.expects_all {H : Type*} {k : Session UInt8 H} (hidle : k.current.Idle)
    (hstatus : k.exitStatus ≠ .err) {requests : List Request}
    (hrequests : ∀ request ∈ requests, WellFormed request) :
    k.Expects requests (requests.flatMap encodeRequest) where
  remaining := remaining_all requests
  wellFormed := hrequests
  status_ne := hstatus
  awaits := by
    intro request more cur heq hbytes
    subst heq
    rw [List.flatMap_cons, List.append_left_inj] at hbytes
    rw [← hbytes]
    exact hidle.awaits (hrequests request List.mem_cons_self)

/-- The next byte completes the first request, and the session goes on with the others whatever the
handling leaves, or the byte is passed. -/
theorem Session.Expects.step {H : Type*} {k : Session UInt8 H} {requests : List Request} {b : UInt8}
    {bytes : List UInt8} (hk : k.Expects requests (b :: bytes)) :
    (∃ request more, requests = request :: more ∧ feed k.current b = .all k.current ∧
      k.current.delivery = PgRedisProxy.deliver request ∧
      ∀ host : H, Session.Expects
        { (k.passed k.current .all [(k.current, b)]).deliver k.current with host := host }
        more bytes) ∨
    ∃ s', feed k.current b = .next s' ∧
      (k.passed s' .notAll [(k.current, b)]).Expects requests bytes := by
  obtain ⟨request, more, cur, rfl, hbytes, hcur⟩ := hk.remaining.cons_cases
  have hawaits := hk.awaits request more (b :: cur) rfl (by rw [hbytes, List.cons_append])
  have hmore : ∀ r ∈ more, WellFormed r := fun r hr => hk.wellFormed r (List.mem_cons_of_mem _ hr)
  rcases hcur with rfl | ⟨hne, hremaining⟩
  · obtain ⟨hfeed, hdelivery⟩ := hawaits.last
    refine .inl ⟨request, more, rfl, hfeed, hdelivery, fun host => ?_⟩
    have hidle : Session.current
        { (k.passed k.current .all [(k.current, b)]).deliver k.current with host := host } =
        resetRequest k.current := rfl
    rw [hbytes, List.nil_append]
    refine Session.expects_all ?_ (by simp [Session.passed, Session.deliver]) hmore
    rw [hidle]
    exact resetRequest_idle k.current
  · obtain ⟨s', hfeed, hs'⟩ := hawaits.next hne
    refine .inr ⟨s', hfeed, hremaining, hk.wellFormed, by simp [Session.passed], ?_⟩
    intro request' more' cur' heq hbytes'
    cases heq
    rw [hbytes, List.append_left_inj] at hbytes'
    rw [← hbytes']
    exact hs'

section Scan

variable {L H : Type*} (h : Handler L H)

/-- A scan of the next bytes hands over the requests that they complete. If the worker comes back
from all of them, the session goes on with the rest. If it has handed over all there are, no byte is
left. -/
theorem scan_expects (l : L) {k : Session UInt8 H} {requests : List Request}
    {chunk later : List UInt8} (hk : k.Expects requests (chunk ++ later)) :
    ∃ batch requests', requests = batch ++ requests' ∧ Remaining requests' later ∧
      (scan id h l k chunk).2.delivered =
        k.delivered ++ (h.attempt l k.host (batch.map deliver)).1 ∧
      (∀ next, (h.attempt l k.host (batch.map deliver)).2 = some next →
        (scan id h l k chunk).1 = .finished ∧ (scan id h l k chunk).2.host = next.2 ∧
          (scan id h l k chunk).2.Expects requests' later) ∧
      ((h.attempt l k.host (batch.map deliver)).2 = none →
        (scan id h l k chunk).1 = .stopped ∧
          ((h.attempt l k.host (batch.map deliver)).1.length = requests.length →
            (scan id h l k chunk).2.examined.length = k.examined.length + chunk.length)) := by
  induction chunk generalizing l k requests with
  | nil =>
      refine ⟨[], requests, rfl, hk.remaining, by simp [scan, Handler.attempt], ?_, ?_⟩
      · intro next hnext
        obtain rfl : (l, k.host) = next := Option.some.inj hnext
        exact ⟨rfl, rfl, hk⟩
      · intro hnone
        cases hnone
  | cons b chunk ih =>
      rcases hk.step with ⟨request, more, rfl, hfeed, hdelivery, hnext⟩ | ⟨s', hfeed, hnext⟩
      · -- the byte completes the request
        set k' := (k.passed k.current .all [(k.current, b)]).deliver k.current with hk'
        have hdelivered : k'.delivered = k.delivered ++ [deliver request] := by
          rw [← hdelivery]
          rfl
        have hexamined : k'.examined.length = k.examined.length + 1 := by
          simp [hk', Session.passed, Session.deliver]
        cases hserve : h.serve l k.host (deliver request) with
        | none =>
            have hscan : scan id h l k (b :: chunk) = (.stopped, k') :=
              scan_cons_stopped hfeed (hdelivery ▸ hserve) chunk
            have hremaining := (hnext k.host).remaining
            obtain ⟨batch, requests', rfl, hlater⟩ := hremaining.split
            rw [hscan]
            refine ⟨request :: batch, requests', rfl, hlater, ?_, ?_, ?_⟩
            · simp [Handler.attempt, hserve, hdelivered]
            · simp [Handler.attempt, hserve]
            · intro _
              refine ⟨rfl, fun hall => ?_⟩
              -- nothing was handed over after this request, so that there is no other
              have hnone : batch ++ requests' = [] := by
                apply List.eq_nil_of_length_eq_zero
                simpa [Handler.attempt, hserve] using hall.symm
              rw [hnone] at hremaining
              have hchunk := (List.append_eq_nil_iff.mp hremaining.bytes_eq_nil).1
              rw [hexamined, hchunk]
              rfl
        | some next =>
            -- the rest of the chunk is scanned with what the handling has left
            have hscan : scan id h l k (b :: chunk) =
                scan id h next.1 { k' with host := next.2 } chunk :=
              scan_cons_served hfeed (hdelivery ▸ hserve) chunk
            obtain ⟨batch, requests', rfl, hlater, hmade, hsome, hnone⟩ := ih next.1 (hnext next.2)
            rw [hscan]
            refine ⟨request :: batch, requests', rfl, hlater, ?_, ?_, ?_⟩
            · rw [hmade, hdelivered]
              simp [Handler.attempt, hserve]
            · simpa only [List.map_cons, Handler.attempt, hserve] using hsome
            · simp only [List.map_cons, Handler.attempt, hserve, List.length_cons]
              intro hstop
              obtain ⟨hexit, hall⟩ := hnone hstop
              refine ⟨hexit, fun hlength => ?_⟩
              rw [hall (by simpa using hlength)]
              simp only [hexamined]
              omega
      · -- the byte is passed
        rw [scan_cons_next hfeed chunk]
        obtain ⟨batch, requests', hsplit, hlater, hmade, hsome, hnone⟩ := ih l hnext
        refine ⟨batch, requests', hsplit, hlater, hmade, hsome, fun hstop => ?_⟩
        obtain ⟨hexit, hall⟩ := hnone hstop
        refine ⟨hexit, fun hlength => ?_⟩
        rw [hall hlength]
        simp only [Session.passed, List.length_append, List.length_cons, List.length_nil]
        omega

end Scan

/-! ## Runs of read events -/

/-- The requests that the read events complete are those complete after them and not before. -/
theorem arrivals_flatten {all past rest : List Request} (hall : all = past ++ rest)
    {events : List (List UInt8)} {later : List UInt8}
    (hrest : Remaining rest (events.flatten ++ later)) {n : Nat}
    (hn : n + (events.flatten ++ later).length = (all.flatMap encodeRequest).length) :
    past ++ (arrivals all n events).flatten = completed all (n + events.flatten.length) := by
  induction events generalizing past rest n with
  | nil =>
      subst hall
      simp only [arrivals, List.flatten_nil, List.append_nil, List.length_nil, Nat.add_zero]
      exact (hrest.completed_eq hn).symm
  | cons bytes events ih =>
      rw [List.flatten_cons, List.append_assoc] at hrest hn
      obtain ⟨batch, rest', rfl, hlater⟩ := hrest.split
      have hpast : completed all n = past := by
        subst hall
        exact hrest.completed_eq hn
      have hall' : all = (past ++ batch) ++ rest' := by rw [hall, List.append_assoc]
      have hn' : n + bytes.length + (events.flatten ++ later).length =
          (all.flatMap encodeRequest).length := by
        rw [List.length_append] at hn
        omega
      have hbatch : completed all (n + bytes.length) = past ++ batch := by
        subst hall'
        exact hlater.completed_eq hn'
      have hflatten := ih hall' hlater hn'
      simp only [arrivals, hpast, hbatch, List.drop_left, List.flatten_cons, List.length_append]
      rw [← List.append_assoc, hflatten, Nat.add_assoc]

section Run

variable {L H : Type*} {h : Handler L H}

/-- The read events hand over the requests they complete, for as long as the worker comes back. -/
theorem readEvents_expects {c : Conn UInt8 H} (hc : c.Drained) {all past rest : List Request}
    (hall : all = past ++ rest) {events : List (List UInt8)} (hreads : Reads events)
    {later : List UInt8} (hk : c.session.Expects rest (events.flatten ++ later)) {n : Nat}
    (hn : n + (events.flatten ++ later).length = (all.flatMap encodeRequest).length) :
    (readEvents id h c events).2.delivered =
        c.delivered ++ (h.attemptAll c.host ((arrivals all n events).map (List.map deliver))).1 ∧
      ((h.attemptAll c.host ((arrivals all n events).map (List.map deliver))).1.length =
          rest.length →
        (readEvents id h c events).2.readData.curBufferSize = 0) := by
  induction events generalizing c past rest n with
  | nil => exact ⟨by simp [readEvents, arrivals, Handler.attemptAll], fun _ => hc.curBufferSize_eq⟩
  | cons bytes events ih =>
      rw [List.flatten_cons, List.append_assoc] at hk hn
      obtain ⟨hne, hlen⟩ := hreads bytes List.mem_cons_self
      obtain ⟨c₁, hread, hsession, hdrained, hstopped⟩ := onReadCb_eq_scan id h hc hne hlen
      obtain ⟨batch, rest', rfl, hlater, hmade, hsome, hnone⟩ := scan_expects h h.fresh hk
      have hall' : all = (past ++ batch) ++ rest' := by rw [hall, List.append_assoc]
      have hn' : n + bytes.length + (events.flatten ++ later).length =
          (all.flatMap encodeRequest).length := by
        rw [List.length_append] at hn
        omega
      -- the requests this read completes are those the scan hands over
      have hpast : completed all n = past := by
        subst hall
        exact hk.remaining.completed_eq hn
      have hbatch : completed all (n + bytes.length) = past ++ batch := by
        subst hall'
        exact hlater.completed_eq hn'
      have harrivals : arrivals all n (bytes :: events) =
          batch :: arrivals all (n + bytes.length) events := by
        simp only [arrivals, hpast, hbatch, List.drop_left]
      have hhost : c.session.host = c.host := rfl
      rw [harrivals, List.map_cons, Handler.attemptAll]
      rw [hhost] at hmade hsome hnone
      rw [← hsession] at hmade hsome hnone
      cases hattempt : h.attempt h.fresh c.host (batch.map deliver) with
      | mk made next =>
          rw [hattempt] at hmade hsome hnone
          cases next with
          | none =>
              -- the worker does not come back, and reads no further
              obtain ⟨hexit, hfull⟩ := hnone rfl
              rw [hexit] at hread
              simp only [readEvents, hread]
              refine ⟨hmade, fun hlength => ?_⟩
              have hleft := hstopped hexit
              have hexamined : c₁.examined.length = c.examined.length + bytes.length :=
                hfull hlength
              omega
          | some next =>
              obtain ⟨hexit, hnext, hexpects⟩ := hsome next rfl
              rw [hexit] at hread hdrained
              have hdrained' := hdrained rfl hexpects.status_ne
              have hreads' : Reads events := fun b hb => hreads b (List.mem_cons_of_mem _ hb)
              obtain ⟨hdelivered, hempty⟩ := ih hdrained' hall' hreads' hexpects hn'
              have hbatchMade : made = batch.map deliver := h.attempt_eq_of_some hattempt
              have hhost₁ : c₁.host = next.2 := hnext
              rw [hhost₁] at hdelivered hempty
              have hmade' : c₁.delivered = c.delivered ++ made := hmade
              simp only [readEvents, hread]
              refine ⟨?_, fun hlength => hempty ?_⟩
              · rw [hdelivered, hmade', List.append_assoc]
              · rw [List.length_append, List.length_append, hbatchMade, List.length_map] at hlength
                omega

/-- The read events deliver exactly these requests, in order, and none before its last byte is
read; afterwards the read buffer is empty. -/
structure Decodes (h : Handler L H) (c : Conn UInt8 H) (requests : List Request)
    (events : List (List UInt8)) : Prop where
  delivered : (readEvents id h c events).2.delivered = requests.map deliver
  curBufferSize_eq : (readEvents id h c events).2.readData.curBufferSize = 0
  not_early : ∀ m, (readEvents id h c (events.take m)).2.delivered <+:
    (completed requests (events.take m).flatten.length).map deliver

/-- Decoding undoes encoding exactly if all requests are handed over: the worker comes back from all
of them but perhaps the last. -/
theorem decodes_iff {c : Conn UInt8 H} (hc : c.Accepted) {requests : List Request}
    (hrequests : ∀ request ∈ requests, WellFormed request) {events : List (List UInt8)}
    (hreads : Reads events) (hstream : events.flatten = requests.flatMap encodeRequest) :
    Decodes h c requests events ↔
      (h.attemptAll c.host ((arrivals requests 0 events).map (List.map deliver))).1 =
        requests.map deliver := by
  have hidle : c.session.current.Idle := by
    rw [hc.current_eq]
    exact ⟨hc.readStatus_eq, hc.argc_eq, hc.parsingNum_eq⟩
  have hexpects : c.session.Expects requests events.flatten := by
    rw [hstream]
    exact Session.expects_all hidle (by simp [Conn.session, hc.exitStatus_eq]) hrequests
  -- any number of the read events
  have hrun : ∀ m, (readEvents id h c (events.take m)).2.delivered =
        (h.attemptAll c.host
          ((arrivals requests 0 (events.take m)).map (List.map deliver))).1 ∧
      ((h.attemptAll c.host ((arrivals requests 0 (events.take m)).map (List.map deliver))).1.length
          = requests.length →
        (readEvents id h c (events.take m)).2.readData.curBufferSize = 0) := by
    intro m
    have hsplit : (events.take m).flatten ++ (events.drop m).flatten = events.flatten := by
      rw [← List.flatten_append, List.take_append_drop]
    have hreads' : Reads (events.take m) := fun b hb => hreads b (List.mem_of_mem_take hb)
    rw [← hsplit] at hexpects
    have hexpected := readEvents_expects (h := h) hc.drained (List.nil_append requests).symm
      hreads' hexpects (n := 0) (by rw [hsplit, hstream, Nat.zero_add])
    rwa [hc.delivered_eq, List.nil_append] at hexpected
  constructor
  · intro hdecodes
    have hall := (hrun events.length).1
    rw [List.take_length] at hall
    rw [← hall]
    exact hdecodes.delivered
  · intro hall
    obtain ⟨hdelivered, hempty⟩ := hrun events.length
    rw [List.take_length, hall] at hdelivered hempty
    -- what the first events deliver begins what the requests they complete deliver
    refine ⟨hdelivered, hempty (List.length_map _), fun m => ?_⟩
    have hsplit : (events.take m).flatten ++ (events.drop m).flatten = events.flatten := by
      rw [← List.flatten_append, List.take_append_drop]
    have hremaining := hexpects.remaining
    rw [← hsplit] at hremaining
    have hflatten := arrivals_flatten (List.nil_append requests).symm hremaining (n := 0)
      (by rw [hsplit, hstream, Nat.zero_add])
    rw [List.nil_append, Nat.zero_add] at hflatten
    rw [(hrun m).1, ← hflatten, List.map_flatten]
    exact h.attemptAll_prefix c.host _

end Run

end PgRedisProxy
