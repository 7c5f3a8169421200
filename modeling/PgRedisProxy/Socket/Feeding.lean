import PgRedisProxy.Socket.ReadLoop

/-!
# Every received byte is fed once

As long as no read follows an `ERR`, the bytes the parser examines are the bytes
received, in order, and what it makes of them does not depend on how they were cut
into reads. `examined_eq_received` is the main result. The bytes are of an arbitrary
type, so they also carry where they come from. After an `ERR` the bytes already
examined are still in the buffer, and the next read has them examined again.
-/

namespace PgRedisProxy

open CLang

/-- The handling that does nothing. -/
def Handler.idle : Handler Unit Unit where
  fresh := ()
  serve := fun _ _ _ => some ((), ())

variable {α L H : Type*} (val : α → UInt8) (h : Handler L H)

/-- The session with nothing left of the handling. -/
def Session.bare (k : Session α H) : Session α Unit :=
  ⟨k.parse, k.exitStatus, (), k.examined, k.delivered⟩

/-- The scan of some bytes examines them from the first one on, and all of them unless it ends
early. -/
theorem scan_examined (l : L) (k : Session α H) (bytes : List α) :
    ∃ done rest, bytes = done ++ rest ∧
      (scan val h l k bytes).2.examined.map Prod.snd = k.examined.map Prod.snd ++ done ∧
      ((scan val h l k bytes).1 = .finished → (scan val h l k bytes).2.exitStatus ≠ .err →
        rest = []) := by
  induction bytes generalizing l k with
  | nil => exact ⟨[], [], rfl, by simp [scan], fun _ _ => rfl⟩
  | cons b bytes ih =>
      simp only [scan]
      cases feed k.current (val b) with
      | fault => exact ⟨[b], bytes, rfl, by simp [Session.passed], by simp⟩
      | err s' => exact ⟨[b], bytes, rfl, by simp [Session.passed], by simp [Session.passed]⟩
      | next s' =>
          obtain ⟨done, rest, rfl, hexamined, hall⟩ := ih l (k.passed s' .notAll [(k.current, b)])
          exact ⟨b :: done, rest, rfl, by rw [hexamined]; simp [Session.passed], hall⟩
      | all s' =>
          simp only
          cases h.serve l ((k.passed s' .all [(k.current, b)]).deliver s').host s'.delivery with
          | none => exact ⟨[b], bytes, rfl, by simp [Session.passed, Session.deliver], by simp⟩
          | some next =>
              obtain ⟨done, rest, rfl, hexamined, hall⟩ := ih next.1
                { (k.passed s' .all [(k.current, b)]).deliver s' with host := next.2 }
              refine ⟨b :: done, rest, rfl, ?_, hall⟩
              rw [hexamined]
              simp [Session.passed, Session.deliver]

/-- As long as the worker comes back from the handling, the handling makes no difference to the
parser. -/
theorem scan_bare (l : L) (k : Session α H) {bytes : List α}
    (hback : (scan val h l k bytes).1 ≠ .stopped) :
    scan val .idle () k.bare bytes =
      ((scan val h l k bytes).1, (scan val h l k bytes).2.bare) := by
  induction bytes generalizing l k with
  | nil => rfl
  | cons b bytes ih =>
      have hcurrent : k.bare.current = k.current := rfl
      simp only [scan, hcurrent] at hback ⊢
      cases hfeed : feed k.current (val b) with
      | fault => rfl
      | err s' => rfl
      | next s' =>
          simp only [hfeed] at hback
          exact ih l (k.passed s' .notAll [(k.current, b)]) hback
      | all s' =>
          simp only [hfeed] at hback ⊢
          cases hserve : h.serve l ((k.passed s' .all [(k.current, b)]).deliver s').host
              s'.delivery with
          | none => simp [hserve] at hback
          | some next =>
              simp only [hserve] at hback ⊢
              exact ih next.1 { (k.passed s' .all [(k.current, b)]).deliver s' with host := next.2 }
                hback

/-- The scan of two pieces, one after the other. -/
theorem scan_append (k : Session α Unit) (hk : k.exitStatus ≠ .err) (first second : List α) :
    scan val .idle () k (first ++ second) =
      if (scan val .idle () k first).1 = .finished ∧
          (scan val .idle () k first).2.exitStatus ≠ .err then
        scan val .idle () (scan val .idle () k first).2 second
      else scan val .idle () k first := by
  induction first generalizing k with
  | nil => simp [scan, hk]
  | cons b first ih =>
      rw [List.cons_append]
      cases hfeed : feed k.current (val b) with
      | fault => simp [scan, hfeed]
      | err s' => simp [scan, hfeed, Session.passed]
      | next s' =>
          simp only [scan, hfeed]
          exact ih (k.passed s' .notAll [(k.current, b)]) (by simp [Session.passed])
      | all s' =>
          simp only [scan, hfeed]
          exact ih ((k.passed s' .all [(k.current, b)]).deliver s')
            (by simp [Session.passed, Session.deliver])

/-! ## Runs of read events -/

/-- A connection as `on_accept_cb` sets it up. What it does not set is arbitrary: the count of
arguments read, the sign, the sizes of the string, and the content of the buffer. -/
structure Conn.Accepted (c : Conn α H) : Prop where
  readStatus_eq : c.readData.parse.readStatus = .arrayWait
  argc_eq : c.readData.parse.argc = -1
  argv_eq : c.readData.parse.argv = none
  parsingStr_eq : c.readData.parse.parsing.parsingStr = none
  parsingNum_eq : c.readData.parse.parsing.parsingNum = 0
  exitStatus_eq : c.readData.exitStatus = .notAll
  curBufferSize_eq : c.readData.curBufferSize = 0
  length_eq : c.readData.readBuffer.length = bufferSize
  examined_eq : c.examined = []
  delivered_eq : c.delivered = []

/-- The next byte is examined in the state that `on_accept_cb` leaves. -/
theorem Conn.Accepted.current_eq {c : Conn α H} (hc : c.Accepted) :
    c.session.current = c.readData.parse := by
  simp [Session.current, Conn.session, hc.exitStatus_eq]

theorem Conn.Accepted.drained {c : Conn α H} (hc : c.Accepted) : c.Drained :=
  ⟨hc.curBufferSize_eq, hc.length_eq, by simp [hc.exitStatus_eq]⟩

/-- Each read event reads between 1 and `BUFFER_SIZE` bytes. -/
def Reads (events : List (List α)) : Prop :=
  ∀ bytes ∈ events, bytes ≠ [] ∧ bytes.length ≤ bufferSize

/-- No read event follows one in which the parser returned `ERR`. -/
def NoReadAfterErr (c : Conn α H) (events : List (List α)) : Prop :=
  ∀ n < events.length, (readEvents val h c (events.take n)).2.readData.exitStatus ≠ .err

section Run

variable {val h} {c : Conn α H}

theorem NoReadAfterErr.tail {c' : Conn α H} {bytes : List α} {events : List (List α)}
    (herr : NoReadAfterErr val h c (bytes :: events))
    (hread : onReadCb val h c bytes = (.finished, c')) : NoReadAfterErr val h c' events := by
  intro n hn
  have := herr (n + 1) (by simpa using hn)
  simpa [readEvents, hread] using this

theorem NoReadAfterErr.status_ne {c' : Conn α H} {bytes : List α} {events : List (List α)}
    (herr : NoReadAfterErr val h c (bytes :: events)) (hevents : events ≠ [])
    (hread : onReadCb val h c bytes = (.finished, c')) : c'.readData.exitStatus ≠ .err := by
  have hpos : 0 < events.length := List.length_pos_of_ne_nil hevents
  have := herr.tail hread 0 hpos
  simpa [readEvents] using this

/-- The read events of a run examine the bytes received from the first one on, and all of them
unless the run ends early or with an `ERR`. -/
theorem readEvents_examined (hc : c.Drained) {events : List (List α)} (hreads : Reads events)
    (herr : NoReadAfterErr val h c events) :
    ∃ done rest, events.flatten = done ++ rest ∧
      (readEvents val h c events).2.examined.map Prod.snd = c.examined.map Prod.snd ++ done ∧
      ((readEvents val h c events).1 = .finished →
        (readEvents val h c events).2.readData.exitStatus ≠ .err → rest = []) := by
  induction events generalizing c with
  | nil => exact ⟨[], [], rfl, by simp [readEvents], fun _ _ => rfl⟩
  | cons bytes events ih =>
      obtain ⟨hne, hlen⟩ := hreads bytes List.mem_cons_self
      obtain ⟨c₁, hread, hsession, hdrained, -⟩ := onReadCb_eq_scan val h hc hne hlen
      obtain ⟨done, rest, hbytes, hexamined, hall⟩ :=
        scan_examined val h h.fresh c.session bytes
      rw [← hsession] at hexamined hall
      have hstatus : c₁.session.exitStatus = c₁.readData.exitStatus := rfl
      cases hexit : (scan val h h.fresh c.session bytes).1 with
      | finished =>
          rw [hexit] at hread hdrained hall
          by_cases hlast : events = []
          · subst hlast
            refine ⟨done, rest, by simpa using hbytes, ?_, ?_⟩
            · simpa [readEvents, hread, Conn.session] using hexamined
            · intro _ hne'
              simp only [readEvents, hread] at hne'
              exact hall rfl hne'
          · have hne' := herr.status_ne hlast hread
            obtain rfl : rest = [] := hall rfl hne'
            obtain ⟨done', rest', hflatten, hexamined', hall'⟩ :=
              ih (hdrained rfl hne') (fun b hb => hreads b (List.mem_cons_of_mem _ hb))
                (herr.tail hread)
            have hc₁ : c₁.session.examined = c₁.examined := rfl
            have hc : c.session.examined = c.examined := rfl
            refine ⟨done ++ done', rest', ?_, ?_, ?_⟩
            · simp [hbytes, hflatten]
            · simp only [readEvents, hread]
              rw [hexamined', ← hc₁, hexamined, hc, List.append_assoc]
            · simpa only [readEvents, hread] using hall'
      | closed | stopped | fault =>
          -- the later events are not read
          rw [hexit] at hread
          refine ⟨done, rest ++ events.flatten, by simp [hbytes], ?_, ?_⟩
          · simpa [readEvents, hread, Conn.session] using hexamined
          · simp [readEvents, hread]

/-- A run in which the worker comes back from every request parses as one scan of all bytes
received. -/
theorem readEvents_scan (hc : c.Drained) {events : List (List α)} (hreads : Reads events)
    (herr : NoReadAfterErr val h c events) (hback : (readEvents val h c events).1 ≠ .stopped) :
    scan val .idle () c.session.bare events.flatten =
      ((readEvents val h c events).1, (readEvents val h c events).2.session.bare) := by
  induction events generalizing c with
  | nil => rfl
  | cons bytes events ih =>
      obtain ⟨hne, hlen⟩ := hreads bytes List.mem_cons_self
      obtain ⟨c₁, hread, hsession, hdrained, -⟩ := onReadCb_eq_scan val h hc hne hlen
      have hfirst : (scan val h h.fresh c.session bytes).1 ≠ .stopped := by
        intro hstopped
        rw [hstopped] at hread
        exact hback (by simp [readEvents, hread])
      have hbare := scan_bare val h h.fresh c.session hfirst
      rw [← hsession] at hbare
      rw [List.flatten_cons, scan_append val c.session.bare hc.status_ne, hbare]
      have hstatus : c₁.session.bare.exitStatus = c₁.readData.exitStatus := rfl
      cases hexit : (scan val h h.fresh c.session bytes).1 with
      | finished =>
          rw [hexit] at hread hdrained
          simp only [readEvents, hread] at hback ⊢
          by_cases hlast : events = []
          · subst hlast
            simp [readEvents, scan]
          · have hne' := herr.status_ne hlast hread
            rw [hstatus, if_pos ⟨trivial, hne'⟩]
            exact ih (hdrained rfl hne') (fun b hb => hreads b (List.mem_cons_of_mem _ hb))
              (herr.tail hread) hback
      | closed | stopped | fault =>
          rw [hexit] at hread
          simp [readEvents, hread]

/-- From an accepted connection, with no read after an `ERR`, the bytes examined are the bytes
received, in order and from the first one on: all of them, unless the run ends early or with an
`ERR`. Any other way of cutting the same bytes into reads gives the same deliveries and the same
parser, unless the worker did not come back from a request. -/
theorem examined_eq_received (hc : c.Accepted) {events : List (List α)} (hreads : Reads events)
    (herr : NoReadAfterErr val h c events) :
    (readEvents val h c events).2.examined.map Prod.snd <+: events.flatten ∧
      ((readEvents val h c events).1 = .finished →
        (readEvents val h c events).2.readData.exitStatus ≠ .err →
        (readEvents val h c events).2.examined.map Prod.snd = events.flatten) ∧
      ∀ events', Reads events' → NoReadAfterErr val h c events' →
        events'.flatten = events.flatten →
        (readEvents val h c events).1 ≠ .stopped → (readEvents val h c events').1 ≠ .stopped →
        (readEvents val h c events').1 = (readEvents val h c events).1 ∧
          (readEvents val h c events').2.delivered = (readEvents val h c events).2.delivered ∧
          (readEvents val h c events').2.readData.parse =
            (readEvents val h c events).2.readData.parse ∧
          (readEvents val h c events').2.readData.exitStatus =
            (readEvents val h c events).2.readData.exitStatus ∧
          (readEvents val h c events').2.examined = (readEvents val h c events).2.examined := by
  obtain ⟨done, rest, hflatten, hexamined, hall⟩ := readEvents_examined hc.drained hreads herr
  rw [hc.examined_eq, List.map_nil, List.nil_append] at hexamined
  refine ⟨⟨rest, by rw [hexamined, hflatten]⟩, ?_, ?_⟩
  · intro hexit hstatus
    rw [hexamined, hflatten, hall hexit hstatus, List.append_nil]
  · intro events' hreads' herr' hsame hback hback'
    have hscan := readEvents_scan hc.drained hreads herr hback
    have hscan' := readEvents_scan hc.drained hreads' herr' hback'
    rw [hsame, hscan, Prod.mk.injEq] at hscan'
    obtain ⟨hexit, hbare⟩ := hscan'
    refine ⟨hexit.symm, ?_, ?_, ?_, ?_⟩
    · exact (congrArg Session.delivered hbare).symm
    · exact (congrArg Session.parse hbare).symm
    · exact (congrArg Session.exitStatus hbare).symm
    · exact (congrArg Session.examined hbare).symm

end Run

/-- A connection that was just accepted, with its buffer and the rest of its parser zeroed. -/
def Conn.accept (host : H) : Conn UInt8 H where
  readData :=
    { parse := ⟨none, -1, 0, ⟨0, false, none, 0, 0⟩, .arrayWait⟩
      curBufferSize := 0
      readBuffer := List.replicate bufferSize 0
      exitStatus := .notAll }
  host := host
  examined := []
  delivered := []

theorem Conn.accept_accepted (host : H) : (Conn.accept host).Accepted := by
  constructor <;> rfl

/-- `PING` in two reads is examined as it was received. -/
theorem examined_eq_received_ping :
    (readEvents id .idle (Conn.accept ()) [ascii "*1\r\n$4", ascii "\r\nPING\r\n"]).2.examined.map
      Prod.snd = ascii "*1\r\n$4\r\nPING\r\n" :=
  (examined_eq_received (Conn.accept_accepted ()) (by unfold Reads; decide)
    (by unfold NoReadAfterErr; decide +kernel)).2.1 (by decide +kernel) (by decide +kernel)

/-- After the count `-5` the next read has the bytes `*-5\r` examined again: what was examined is
no longer a prefix of what was received. -/
theorem negative_count_examined_again :
    ¬ (readEvents id .idle (Conn.accept ()) [ascii "*-5\r\n", ascii "$"]).2.examined.map Prod.snd <+:
      ascii "*-5\r\n$" := by
  decide +kernel

end PgRedisProxy
