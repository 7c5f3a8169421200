import PgRedisProxy.Socket.Parser

/-!
# The read event of a connection (`on_read_cb`)

`onReadCb` reads into the buffer and alternates between the parser and the handling
of the request it completed, until the buffer is empty. The handling is a parameter,
`Handler`. `Session` is a connection without its buffer, and `scan` feeds it one byte
after the other; `onReadCb_eq_scan` is the main result: as long as no read follows an
`ERR`, a read event scans exactly the bytes it has read and leaves the buffer empty.
-/

namespace PgRedisProxy

open CLang

/-- The arguments of one call of `process_redis_to_postgres`. -/
structure Delivery where
  argc : Int
  argv : List (Option Block)
  deriving DecidableEq

/-- What `on_read_cb` does with a complete request. `L` are its locals, which start as `fresh` in
each read event, and `H` is what outlives the event. The result is `none` if the worker does not
come back from it: an error is raised, or a null pointer is read. -/
structure Handler (L H : Type*) where
  fresh : L
  serve : L → H → Delivery → Option (L × H)

/-- How a read event ends: `on_read_cb` returns and the worker waits for the next event, the
connection is closed because nothing could be read, the worker did not come back from the handling
of a request, or the parser made an access that is not allowed. -/
inductive Exit where
  | finished
  | closed
  | stopped
  | fault
  deriving DecidableEq

/-- A connection, with every byte the parser has examined, in the state it was examined in, and
every request it has delivered. -/
structure Conn (α H : Type*) where
  readData : TsocketReadData α
  host : H
  examined : List (ParseState × α)
  delivered : List Delivery

/-- The parser after the request is handled. -/
def resetRequest (s : ParseState) : ParseState :=
  { s with
    readStatus := .arrayWait
    argv := none
    argc := -1
    parsing := { s.parsing with parsingStr := none, parsingNum := 0 } }

/-- The request that is complete. -/
def ParseState.delivery (s : ParseState) : Delivery :=
  ⟨s.argc, s.argv.getD []⟩

/-- What the loop of `on_read_cb` begins each turn with. -/
def resetIfAll {α : Type*} (d : TsocketReadData α) : TsocketReadData α :=
  if d.exitStatus = .all then { d with parse := resetRequest d.parse, exitStatus := .notAll }
  else d

variable {α L H : Type*} (val : α → UInt8) (h : Handler L H)

/-- The `do … while` loop of `on_read_cb`. Each turn but the last uses up a byte, so the number of
bytes in the buffer is fuel enough. -/
def readLoop : Nat → L → Conn α H → Exit × Conn α H
  | 0, _, c => (.finished, c)
  | fuel + 1, l, c =>
      let (d, pass) := parseCliMes val (resetIfAll c.readData)
      let c := { c with readData := d, examined := c.examined ++ pass.examined }
      if pass.ending = .fault then (.fault, c)
      else if d.exitStatus ≠ .all then (.finished, c)
      else
        let c := { c with delivered := c.delivered ++ [d.parse.delivery] }
        match h.serve l c.host d.parse.delivery with
        | none => (.stopped, c)
        | some (l, host) =>
            let c := { c with host := host }
            if d.curBufferSize ≠ 0 then readLoop fuel l c else (.finished, c)

/-- `on_read_cb`, where `bytes` are waiting in the socket: as many as fit behind the bytes in the
buffer are read, and the size of the buffer becomes their number. -/
def onReadCb (c : Conn α H) (bytes : List α) : Exit × Conn α H :=
  let d := c.readData
  let res := bytes.take (bufferSize - d.curBufferSize)
  if res = [] then (.closed, c)
  else
    let d :=
      { d with
        readBuffer :=
          d.readBuffer.take d.curBufferSize ++ res ++
            d.readBuffer.drop (d.curBufferSize + res.length)
        curBufferSize := res.length }
    readLoop val h res.length h.fresh { c with readData := d }

/-- Read events, one after the other, for as long as the worker waits for the next one. -/
def readEvents (c : Conn α H) : List (List α) → Exit × Conn α H
  | [] => (.finished, c)
  | bytes :: events =>
      match onReadCb val h c bytes with
      | (.finished, c) => readEvents c events
      | result => result

/-! ## A connection without its buffer -/

/-- What a connection is apart from the read buffer. -/
structure Session (α H : Type*) where
  parse : ParseState
  exitStatus : EexitStatus
  host : H
  examined : List (ParseState × α)
  delivered : List Delivery

/-- The connection without its buffer. -/
def Conn.session (c : Conn α H) : Session α H :=
  ⟨c.readData.parse, c.readData.exitStatus, c.host, c.examined, c.delivered⟩

/-- The state in which the next byte is examined. -/
def Session.current (k : Session α H) : ParseState :=
  if k.exitStatus = .all then resetRequest k.parse else k.parse

/-- The session after some bytes were examined. -/
def Session.passed (k : Session α H) (s : ParseState) (status : EexitStatus)
    (bytes : List (ParseState × α)) : Session α H :=
  { k with parse := s, exitStatus := status, examined := k.examined ++ bytes }

/-- The session after the request in `s` was delivered. -/
def Session.deliver (k : Session α H) (s : ParseState) : Session α H :=
  { k with delivered := k.delivered ++ [s.delivery] }

/-- Byte after byte through the parser, until an `ERR`, with each request handled when it is
complete. -/
def scan (l : L) (k : Session α H) : List α → Exit × Session α H
  | [] => (.finished, k)
  | b :: rest =>
      let s := k.current
      match feed s (val b) with
      | .fault => (.fault, k.passed s .notAll [(s, b)])
      | .err s' => (.finished, k.passed s' .err [(s, b)])
      | .next s' => scan l (k.passed s' .notAll [(s, b)]) rest
      | .all s' =>
          let k := (k.passed s' .all [(s, b)]).deliver s'
          match h.serve l k.host s'.delivery with
          | none => (.stopped, k)
          | some (l, host) => scan l { k with host := host } rest

section Scan

variable {val h} {l : L} {k : Session α H} {b : α} {s' : ParseState}

/-- A byte that is passed. -/
theorem scan_cons_next (hfeed : feed k.current (val b) = .next s') (rest : List α) :
    scan val h l k (b :: rest) = scan val h l (k.passed s' .notAll [(k.current, b)]) rest := by
  simp only [scan, hfeed]

/-- The last byte of a request that the worker comes back from. -/
theorem scan_cons_served (hfeed : feed k.current (val b) = .all s') {next : L × H}
    (hserve : h.serve l k.host s'.delivery = some next) (rest : List α) :
    scan val h l k (b :: rest) = scan val h next.1
      { (k.passed s' .all [(k.current, b)]).deliver s' with host := next.2 } rest := by
  have hhost : ((k.passed s' .all [(k.current, b)]).deliver s').host = k.host := rfl
  simp only [scan, hfeed, hhost, hserve]

/-- The last byte of a request that it does not come back from. -/
theorem scan_cons_stopped (hfeed : feed k.current (val b) = .all s')
    (hserve : h.serve l k.host s'.delivery = none) (rest : List α) :
    scan val h l k (b :: rest) =
      (.stopped, (k.passed s' .all [(k.current, b)]).deliver s') := by
  have hhost : ((k.passed s' .all [(k.current, b)]).deliver s').host = k.host := rfl
  simp only [scan, hfeed, hhost, hserve]

end Scan

/-- How the scan goes on after a pass of the parser, with `rest` the bytes the pass left. -/
def afterPass (l : L) (k : Session α H) (pass : Pass α) (rest : List α) : Exit × Session α H :=
  match pass.ending with
  | .fault => (.fault, k.passed pass.parse .notAll pass.examined)
  | .err => (.finished, k.passed pass.parse .err pass.examined)
  | .notAll => (.finished, k.passed pass.parse .notAll pass.examined)
  | .all =>
      let k := (k.passed pass.parse .all pass.examined).deliver pass.parse
      match h.serve l k.host pass.parse.delivery with
      | none => (.stopped, k)
      | some (l, host) => scan val h l { k with host := host } rest

/-- A byte before a pass belongs to the pass. -/
theorem afterPass_passed (l : L) (k : Session α H) (s : ParseState) (b : ParseState × α)
    (pass : Pass α) (rest : List α) :
    afterPass val h l (k.passed s .notAll [b]) pass rest =
      afterPass val h l k { pass with examined := b :: pass.examined } rest := by
  have hpassed : ∀ (s' : ParseState) (status : EexitStatus),
      (k.passed s .notAll [b]).passed s' status pass.examined =
        k.passed s' status (b :: pass.examined) := by
    intro s' status
    simp [Session.passed]
  unfold afterPass
  cases pass.ending with
  | fault => simp only [hpassed]
  | err => simp only [hpassed]
  | notAll => simp only [hpassed]
  | all => simp only [hpassed]

/-- A pass of the parser, from a state that is not to be reset, is a part of the scan. -/
theorem scan_eq_afterPass (l : L) (k : Session α H) (hk : k.exitStatus ≠ .all) {bytes : List α}
    (hne : bytes ≠ []) (index : Nat) (junk : List α) :
    let pass := parseLoop val (index + bytes.length) k.parse index (bytes ++ junk)
    0 < pass.examined.length ∧ pass.examined.length ≤ bytes.length ∧
      scan val h l k bytes = afterPass val h l k pass (bytes.drop pass.examined.length) := by
  induction bytes generalizing k index with
  | nil => exact absurd rfl hne
  | cons b rest ih =>
      have hcurrent : k.current = k.parse := if_neg hk
      simp only [List.cons_append, parseLoop, scan, hcurrent, List.length_cons]
      cases hfeed : feed k.parse (val b) with
      | fault => simp [afterPass]
      | err s' => simp [afterPass]
      | all s' => simp [afterPass]
      | next s' =>
          cases rest with
          | nil => simp [afterPass, scan]
          | cons b' rest =>
              have hroom : ¬ index + 1 ≥ index + 1 + (b' :: rest).length := by simp
              have hsize : index + ((b' :: rest).length + 1) =
                  index + 1 + (b' :: rest).length := by omega
              have hparse : (k.passed s' .notAll [(k.parse, b)]).parse = s' := rfl
              obtain ⟨-, hlen, hscan⟩ := ih (k.passed s' .notAll [(k.parse, b)])
                (by simp [Session.passed]) (List.cons_ne_nil b' rest) (index + 1)
              rw [hparse] at hlen hscan
              simp only [hsize, hroom, if_false]
              refine ⟨by simp, by simpa using hlen, ?_⟩
              rw [hscan, afterPass_passed]
              rfl

/-- The reset before a pass is made when the next byte is examined. -/
theorem scan_reset (l : L) (k : Session α H) {bytes : List α} (hne : bytes ≠ []) :
    scan val h l { k with parse := k.current, exitStatus := .notAll } bytes =
      scan val h l k bytes := by
  cases bytes with
  | nil => exact absurd rfl hne
  | cons b rest => rfl

/-- A connection whose buffer is used up, so that the next read fills it from the beginning. -/
structure Conn.Drained (c : Conn α H) : Prop where
  curBufferSize_eq : c.readData.curBufferSize = 0
  length_eq : c.readData.readBuffer.length = bufferSize
  status_ne : c.readData.exitStatus ≠ .err

theorem resetIfAll_eq (c : Conn α H) (hstatus : c.readData.exitStatus ≠ .err) :
    resetIfAll c.readData =
      { c.readData with parse := c.session.current, exitStatus := .notAll } := by
  cases hexit : c.readData.exitStatus with
  | err => exact absurd hexit hstatus
  | notAll =>
      have hcurrent : c.session.current = c.readData.parse := by
        simp [Session.current, Conn.session, hexit]
      rw [resetIfAll, if_neg (by simp [hexit]), hcurrent, ← hexit]
  | all =>
      have hcurrent : c.session.current = resetRequest c.readData.parse := by
        simp [Session.current, Conn.session, hexit]
      rw [resetIfAll, if_pos hexit, hcurrent]

/-- The bytes that a pass leaves are moved to the beginning of the buffer, which stays as long as it
was. -/
theorem replacePartOfBuffer_eq {d : TsocketReadData α} {bytes junk : List α}
    (hbuffer : d.readBuffer = bytes ++ junk) (hsize : d.curBufferSize = bytes.length) {n : Nat}
    (hle : n ≤ bytes.length) :
    ∃ junk', replacePartOfBuffer d n =
        { d with readBuffer := bytes.drop n ++ junk', curBufferSize := (bytes.drop n).length } ∧
      (bytes.drop n ++ junk').length = d.readBuffer.length := by
  have hleft : d.curBufferSize - n = (bytes.drop n).length := by rw [hsize, List.length_drop]
  refine ⟨d.readBuffer.drop (d.curBufferSize - n), ?_, ?_⟩
  · rw [replacePartOfBuffer, hleft, hbuffer, List.drop_append_of_le_length hle,
      List.take_append_of_le_length le_rfl, List.take_length]
  · rw [hleft, hbuffer]
    simp only [List.length_append, List.length_drop]
    omega

/-- With fuel for its bytes, the loop scans the bytes of the buffer. It leaves the buffer empty
unless an allocation failed, and where the worker stops, the bytes that were not examined are
left. -/
theorem readLoop_eq_scan (fuel : Nat) (l : L) (c : Conn α H) {bytes : List α} (junk : List α)
    (hbuffer : c.readData.readBuffer = bytes ++ junk)
    (hsize : c.readData.curBufferSize = bytes.length) (hne : bytes ≠ [])
    (hfuel : bytes.length ≤ fuel) (hstatus : c.readData.exitStatus ≠ .err) :
    ∃ c', readLoop val h fuel l c = ((scan val h l c.session bytes).1, c') ∧
      c'.session = (scan val h l c.session bytes).2 ∧
      c'.readData.readBuffer.length = c.readData.readBuffer.length ∧
      ((scan val h l c.session bytes).1 = .finished → c'.readData.exitStatus ≠ .err →
        c'.readData.curBufferSize = 0) ∧
      ((scan val h l c.session bytes).1 = .stopped →
        c'.readData.curBufferSize + c'.examined.length = c.examined.length + bytes.length) := by
  induction fuel generalizing l c bytes junk with
  | zero =>
      have hlen : bytes.length = 0 := Nat.le_zero.mp hfuel
      exact absurd (List.eq_nil_of_length_eq_zero hlen) hne
  | succ fuel ih =>
      -- the session after the reset that the turn begins with
      let k : Session α H := { c.session with parse := c.session.current, exitStatus := .notAll }
      obtain ⟨hpos, hle, hscan⟩ := scan_eq_afterPass val h l k (by simp [k]) hne 0 junk
      set pass := parseLoop val (0 + bytes.length) k.parse 0 (bytes ++ junk) with hpass
      have hdata : resetIfAll c.readData =
          { c.readData with parse := k.parse, exitStatus := .notAll } := resetIfAll_eq c hstatus
      have hparse : parseLoop val c.readData.curBufferSize k.parse 0 c.readData.readBuffer =
          pass := by
        rw [hpass, hbuffer, hsize, Nat.zero_add]
      rw [← scan_reset val h l c.session hne, hscan]
      simp only [readLoop, hdata, parseCliMes, hparse, afterPass]
      cases hend : pass.ending with
      | fault | err | notAll =>
          simp only [hend, reduceCtorEq, if_true, if_false, ne_eq, not_false_eq_true]
          exact ⟨_, rfl, rfl, rfl, by simp, by simp⟩
      | all =>
          set n := pass.examined.length with hn
          obtain ⟨junk', hmoved, hkept⟩ := replacePartOfBuffer_eq
            (d := { c.readData with parse := pass.parse, exitStatus := .notAll }) hbuffer hsize hle
          have hserved : h.serve l k.host pass.parse.delivery =
              h.serve l c.host pass.parse.delivery := rfl
          simp only [hend, hmoved, reduceCtorEq, if_false, ne_eq, not_true_eq_false,
            Session.passed, Session.deliver, hserved]
          cases hserve : h.serve l c.host pass.parse.delivery with
          | none =>
              -- the worker stops with the bytes behind the request still in the buffer
              refine ⟨_, rfl, rfl, hkept, by simp, fun _ => ?_⟩
              simp only [List.length_append, List.length_drop]
              omega
          | some next =>
              obtain ⟨l', host⟩ := next
              by_cases hnil : bytes.drop n = []
              · -- the pass has used up the buffer
                simp only [hnil, List.length_nil, not_true_eq_false, if_false, scan]
                rw [hnil] at hkept
                exact ⟨_, rfl, rfl, hkept, fun _ _ => rfl, by simp⟩
              · -- the next turn begins with the bytes that were moved to the front
                have hzero : (bytes.drop n).length ≠ 0 := mt List.eq_nil_of_length_eq_zero hnil
                have hfuel' : (bytes.drop n).length ≤ fuel := by
                  rw [List.length_drop]
                  omega
                simp only [hzero, not_false_eq_true, if_true]
                obtain ⟨c', hloop, hsession, hbuffer', hdrained, hstopped⟩ := ih l'
                  { readData := ⟨pass.parse, (bytes.drop n).length, bytes.drop n ++ junk', .all⟩
                    host := host
                    examined := c.examined ++ pass.examined
                    delivered := c.delivered ++ [pass.parse.delivery] }
                  junk' rfl rfl hnil hfuel' (by simp)
                refine ⟨c', hloop, hsession, hbuffer'.trans hkept, hdrained, fun hexit => ?_⟩
                have hleft := hstopped hexit
                simp only [List.length_append, List.length_drop] at hleft
                omega

/-- A read event on a drained connection scans exactly the bytes that were read, and leaves the
connection drained unless an allocation failed or the worker does not wait for the next event. Where
the worker stops, the bytes that were not examined are left. -/
theorem onReadCb_eq_scan {c : Conn α H} (hc : c.Drained) {bytes : List α} (hne : bytes ≠ [])
    (hlen : bytes.length ≤ bufferSize) :
    ∃ c', onReadCb val h c bytes = ((scan val h h.fresh c.session bytes).1, c') ∧
      c'.session = (scan val h h.fresh c.session bytes).2 ∧
      ((scan val h h.fresh c.session bytes).1 = .finished → c'.readData.exitStatus ≠ .err →
        c'.Drained) ∧
      ((scan val h h.fresh c.session bytes).1 = .stopped →
        c'.readData.curBufferSize + c'.examined.length = c.examined.length + bytes.length) := by
  have htake : bytes.take (bufferSize - c.readData.curBufferSize) = bytes := by
    rw [hc.curBufferSize_eq, Nat.sub_zero, List.take_of_length_le hlen]
  have hbuffer : c.readData.readBuffer.take c.readData.curBufferSize ++ bytes ++
      c.readData.readBuffer.drop (c.readData.curBufferSize + bytes.length) =
      bytes ++ c.readData.readBuffer.drop bytes.length := by
    simp [hc.curBufferSize_eq]
  obtain ⟨c', hloop, hsession, hlength, hempty, hstopped⟩ :=
    readLoop_eq_scan val h bytes.length h.fresh
    { c with readData := { c.readData with
        readBuffer := bytes ++ c.readData.readBuffer.drop bytes.length
        curBufferSize := bytes.length } }
    (c.readData.readBuffer.drop bytes.length) rfl rfl hne le_rfl hc.status_ne
  refine ⟨c', ?_, hsession, ?_, hstopped⟩
  · simp only [onReadCb, htake, hne, if_false, hbuffer]
    exact hloop
  · intro hexit hstatus
    refine ⟨hempty hexit hstatus, ?_, hstatus⟩
    rw [hlength]
    simp only [List.length_append, List.length_drop, hc.length_eq]
    omega

end PgRedisProxy
