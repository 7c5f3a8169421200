import PgRedisProxy.Socket.Trace

/-!
# Every read event ends

A turn of the loop of `on_read_cb` completes a request or is the last one, and the bytes
that a turn examines are not in the buffer any more. So the loop ends whatever the state of
the connection, also after an `ERR`, where bytes are examined again:
`read_events_end` says that it takes no more turns than bytes were read, and that the bytes
examined on a connection are never more than those received.
-/

namespace PgRedisProxy

open CLang

variable {α L H : Type*} (val : α → UInt8) (h : Handler L H)

/-- What a read event reads of the bytes that wait. -/
def Conn.taken (c : Conn α H) (bytes : List α) : List α :=
  bytes.take (bufferSize - c.readData.curBufferSize)

/-- The connection after `bytes` have been read into its buffer. -/
def Conn.filled (c : Conn α H) (bytes : List α) : Conn α H :=
  { c with
    readData := { c.readData with
      readBuffer :=
        c.readData.readBuffer.take c.readData.curBufferSize ++ bytes ++
          c.readData.readBuffer.drop (c.readData.curBufferSize + bytes.length)
      curBufferSize := bytes.length } }

theorem onReadCb_filled (c : Conn α H) (bytes : List α) :
    onReadCb val h c bytes =
      if c.taken bytes = [] then (.closed, c)
      else readLoop val h (c.taken bytes).length h.fresh (c.filled (c.taken bytes)) :=
  rfl

/-- One call of `parse_cli_mes` examines no more bytes than there are, and all of them unless it
ends early. -/
theorem parseLoop_length {curBufferSize index : Nat} (hindex : index < curBufferSize)
    (s : ParseState) (buffer : List α) :
    let pass := parseLoop val curBufferSize s index buffer
    pass.examined.length ≤ curBufferSize - index ∧
      (pass.ending = .notAll → pass.examined.length = curBufferSize - index) ∧
      (pass.ending = .all → pass.examined ≠ []) := by
  induction buffer generalizing s index with
  | nil => simp [parseLoop]
  | cons b buffer ih =>
      simp only [parseLoop]
      cases feed s (val b) with
      | fault | err s' | all s' =>
          simp
          omega
      | next s' =>
          by_cases hend : index + 1 ≥ curBufferSize
          · simp only [hend, if_true]
            refine ⟨?_, fun _ => ?_, by simp⟩
            · rw [List.length_singleton]
              omega
            · rw [List.length_singleton]
              omega
          · obtain ⟨hle, hall, -⟩ := ih (by omega : index + 1 < curBufferSize) s'
            simp only [hend, if_false]
            refine ⟨?_, fun hending => ?_, by simp⟩
            · rw [List.length_cons]
              omega
            · rw [List.length_cons, hall hending]
              omega

/-- What a call of `parse_cli_mes` leaves in the buffer and what it has examined make up what was in
the buffer, unless it ends early. -/
theorem parseCliMes_length {d : TsocketReadData α} (hd : 0 < d.curBufferSize)
    (hstatus : d.exitStatus ≠ .all) :
    (parseCliMes val d).2.examined.length ≤ d.curBufferSize ∧
      ((parseCliMes val d).1.exitStatus = .all → (parseCliMes val d).2.ending ≠ .fault →
        0 < (parseCliMes val d).2.examined.length ∧
        (parseCliMes val d).1.curBufferSize =
          d.curBufferSize - (parseCliMes val d).2.examined.length) ∧
      ((parseCliMes val d).2.ending ≠ .fault → (parseCliMes val d).1.exitStatus = .notAll →
        (parseCliMes val d).2.examined.length = d.curBufferSize) := by
  have hpass := parseLoop_length val hd d.parse d.readBuffer
  simp only [parseCliMes]
  generalize parseLoop val d.curBufferSize d.parse 0 d.readBuffer = pass at hpass ⊢
  obtain ⟨parse, ending, examined⟩ := pass
  obtain ⟨hle, hall, hsome⟩ := hpass
  rw [Nat.sub_zero] at hle
  cases ending with
  | err => exact ⟨hle, by simp, by simp⟩
  | notAll => exact ⟨hle, by simp, fun _ _ => by simpa using hall rfl⟩
  | all =>
      refine ⟨hle, fun _ _ => ⟨List.length_pos_of_ne_nil (hsome rfl), rfl⟩, by simp⟩
  | fault => exact ⟨hle, by simp [hstatus], by simp⟩

theorem resetIfAll_curBufferSize (d : TsocketReadData α) :
    (resetIfAll d).curBufferSize = d.curBufferSize := by
  unfold resetIfAll
  split <;> rfl

/-- The loop takes no more turns than there are bytes, and examines no more bytes. It examines all
of them if `on_read_cb` returns without an `ERR`. -/
theorem readLoop_ends {turns : Nat} {l : L} {c : Conn α H} (hpos : 0 < c.readData.curBufferSize)
    (hturns : c.readData.curBufferSize ≤ turns) (more : Nat) :
    readLoop val h (turns + more) l c = readLoop val h turns l c ∧
      (readLoop val h turns l c).2.examined.length ≤
        c.examined.length + c.readData.curBufferSize ∧
      ((readLoop val h turns l c).1 = .finished →
        (readLoop val h turns l c).2.readData.exitStatus ≠ .err →
          (readLoop val h turns l c).2.examined.length =
            c.examined.length + c.readData.curBufferSize) := by
  induction turns generalizing l c with
  | zero => omega
  | succ turns ih =>
      obtain ⟨-, hstatus⟩ := resetIfAll_parse c
      have hsize := resetIfAll_curBufferSize c.readData
      obtain ⟨hle, hall, hpart⟩ :=
        parseCliMes_length val (hsize.symm ▸ hpos) hstatus
      rw [hsize] at hle hall hpart
      rw [Nat.succ_add]
      simp only [readLoop]
      generalize parseCliMes val (resetIfAll c.readData) = result at hle hall hpart ⊢
      obtain ⟨d, pass⟩ := result
      dsimp only at hle hall hpart ⊢
      by_cases hfault : pass.ending = .fault
      · simp only [hfault, if_true, List.length_append]
        exact ⟨trivial, by omega, by simp⟩
      · simp only [hfault, if_false]
        by_cases hexit : d.exitStatus = .all
        · obtain ⟨hsome, hleft⟩ := hall hexit hfault
          rw [if_neg (not_not.mpr hexit), if_neg (not_not.mpr hexit)]
          cases h.serve l c.host d.parse.delivery with
          | none =>
              simp only [List.length_append]
              exact ⟨trivial, by omega, by simp⟩
          | some next =>
              obtain ⟨l₁, host⟩ := next
              dsimp only
              by_cases hrest : d.curBufferSize = 0
              · simp only [hrest, ne_eq, not_true_eq_false, if_false, List.length_append]
                exact ⟨trivial, by omega, fun _ _ => by omega⟩
              · rw [if_pos hrest, if_pos hrest]
                obtain ⟨hsame, hexamined, hfinished⟩ := ih (l := l₁)
                  (c := ⟨d, host, c.examined ++ pass.examined,
                    c.delivered ++ [d.parse.delivery]⟩)
                  (Nat.pos_of_ne_zero hrest) (by show d.curBufferSize ≤ turns; omega)
                simp only [List.length_append] at hexamined hfinished
                exact ⟨hsame, by omega, fun hexit' herr => by
                  rw [hfinished hexit' herr]
                  omega⟩
        · rw [if_pos hexit, if_pos hexit]
          simp only [List.length_append]
          refine ⟨trivial, by omega, fun _ herr => ?_⟩
          have hnotAll : d.exitStatus = .notAll := by
            cases hd : d.exitStatus with
            | all => exact absurd hd hexit
            | notAll => rfl
            | err => exact absurd hd herr
          have hlength := hpart hfault hnotAll
          omega

/-- Over any run of read events, no more bytes are examined than received. -/
theorem readEvents_length (events : List (List α)) (c : Conn α H) :
    (readEvents val h c events).2.examined.length ≤ c.examined.length + events.flatten.length := by
  induction events generalizing c with
  | nil => simp [readEvents]
  | cons bytes events ih =>
      have hread : (onReadCb val h c bytes).2.examined.length ≤
          c.examined.length + bytes.length := by
        rw [onReadCb_filled]
        split
        · exact Nat.le_add_right _ _
        · rename_i hne
          obtain ⟨-, hle, -⟩ := readLoop_ends val h (l := h.fresh)
            (c := c.filled (c.taken bytes)) (List.length_pos_of_ne_nil hne) (Nat.le_refl _) 0
          exact hle.trans (Nat.add_le_add_left (List.length_take_le' _ _) _)
      rw [readEvents]
      cases hresult : onReadCb val h c bytes with
      | mk exit c₁ =>
          rw [hresult] at hread
          have hrest := ih c₁
          simp only [List.flatten_cons, List.length_append]
          cases exit with
          | finished =>
              simp only at hread ⊢
              omega
          | closed | stopped | fault =>
              simp only at hread ⊢
              omega

/-- Whatever a client sends, and in whatever state its connection is, a read event ends: its loop
takes at most as many turns as bytes were read, so that more of them change nothing, and unless it
ends early it examines as many bytes. Over any run of read events, the connection examines no more
bytes than it receives, and delivers no more requests than that. -/
theorem read_events_end (c : Conn α H) :
    (∀ bytes, c.taken bytes ≠ [] →
      (∀ more, readLoop val h ((c.taken bytes).length + more) h.fresh (c.filled (c.taken bytes)) =
        onReadCb val h c bytes) ∧
      ((onReadCb val h c bytes).1 = .finished →
        (onReadCb val h c bytes).2.readData.exitStatus ≠ .err →
          (onReadCb val h c bytes).2.examined.length =
            c.examined.length + (c.taken bytes).length)) ∧
    ∀ events : List (List α),
      (readEvents val h c events).2.examined.length ≤ c.examined.length + events.flatten.length ∧
      (readEvents val h c events).2.delivered.length ≤
        c.delivered.length + events.flatten.length := by
  refine ⟨fun bytes hne => ?_, fun events => ?_⟩
  · have hpos : 0 < (c.filled (c.taken bytes)).readData.curBufferSize :=
      List.length_pos_of_ne_nil hne
    rw [onReadCb_filled, if_neg hne]
    refine ⟨fun more => (readLoop_ends val h hpos (Nat.le_refl _) more).1, ?_⟩
    exact (readLoop_ends val h hpos (Nat.le_refl _) 0).2.2
  · have hexamined := readEvents_length val h events c
    obtain ⟨new, hnew, hdelivered, -⟩ := readEvents_advances val h c events
    refine ⟨hexamined, ?_⟩
    have hmade := List.length_filterMap_le (completes val) new
    rw [hnew, List.length_append] at hexamined
    rw [hdelivered, List.length_append]
    omega

/-- A read event after an `ERR`, in which the first byte of the event before is examined again. -/
theorem read_events_end_again :
    let c := (onReadCb id Handler.idle (Conn.accept ()) (ascii "*-5\r\n")).2
    c.readData.exitStatus = .err ∧
      ∀ more, readLoop id Handler.idle (1 + more) () (c.filled (ascii "$")) =
        onReadCb id Handler.idle c (ascii "$") := by
  intro c
  have hne : c.taken (ascii "$") ≠ [] := by decide +kernel
  have htaken : c.taken (ascii "$") = ascii "$" := by decide +kernel
  obtain ⟨hmore, -⟩ := (read_events_end id Handler.idle c).1 (ascii "$") hne
  rw [htaken] at hmore
  exact ⟨by decide +kernel, hmore⟩

end PgRedisProxy
