import PgRedisProxy.Base.Block

/-!
# The replies waiting to be written (`write_data`)

`queueReply` is how `on_read_cb` appends a reply to the bytes that wait to be
written, and `onWriteCb` what `on_write_cb` does once `write` has accepted some of
them. `delivers_exactly_iff`, the main result, says for which runs of replies and
writes the bytes sent, followed by those that wait, are in every state the replies
produced: after a write that is not complete the rest is not moved as a whole, and the
bytes left out must happen to be in place already.
-/

namespace PgRedisProxy

open CLang

/-- `struct Tsocket_write_data`. The pointer is `none` while it is `NULL`. -/
structure TsocketWriteData where
  answer : Option Block
  sizeAnswer : Int

/-- A reply as `define_type_req` returns it. Its size is an `int`. -/
structure RdAnswer where
  bytes : List UInt8
  size_lt : bytes.length < 2 ^ 31

/-- The part of `on_read_cb` that queues a reply. A negative size is beyond any memory once it is
converted to `size_t`. -/
def queueReply (writeInfo : TsocketWriteData) (rdAnswer : RdAnswer) : Option TsocketWriteData :=
  let sizeRdAnswer := rdAnswer.bytes.length
  match writeInfo.answer with
  | none => do
      let answer ← Block.malloc sizeRdAnswer
      let answer ← answer.write? 0 (Block.ofBytes rdAnswer.bytes)
      some ⟨some answer, sizeRdAnswer⟩
  | some answer =>
      let size := wrap32 (writeInfo.sizeAnswer + sizeRdAnswer)
      if writeInfo.sizeAnswer < 0 then none
      else
        match answer.realloc (writeInfo.sizeAnswer.toNat + sizeRdAnswer) with
        | none => some ⟨none, size⟩
        | some answer => do
            let answer ← answer.write? writeInfo.sizeAnswer.toNat (Block.ofBytes rdAnswer.bytes)
            some ⟨some answer, size⟩

/-- `on_write_cb`, where `write` has accepted `byteWrite` bytes. -/
def onWriteCb (writeInfo : TsocketWriteData) (byteWrite : Nat) : Option TsocketWriteData :=
  if (byteWrite : Int) = writeInfo.sizeAnswer then some { writeInfo with sizeAnswer := 0 }
  else do
    let sizeAnswer := writeInfo.sizeAnswer - byteWrite
    let answer ← writeInfo.answer
    -- the size is already the size of the rest, and `byteWrite` is subtracted from it again
    let answer ← answer.copyDown? byteWrite (sizeAnswer - byteWrite)
    some ⟨some answer, sizeAnswer⟩

/-- The output of a connection: what waits to be written, the bytes `write` has accepted, and all
replies produced. -/
structure Output where
  writeInfo : TsocketWriteData
  sent : Block
  produced : List UInt8

/-- The output of a connection that was just accepted. -/
def Output.start : Output :=
  ⟨⟨none, 0⟩, [], []⟩

/-- What happens to the output: a reply is queued, or `write` accepts some bytes. -/
inductive OutputEvent where
  | reply (rdAnswer : RdAnswer)
  | writable (byteWrite : Nat)

/-- The bytes the pointer leads to. -/
def Output.buffer (o : Output) : Block :=
  o.writeInfo.answer.getD []

/-- One event; `none` if an access is not allowed. -/
def Output.step (o : Output) : OutputEvent → Option Output
  | .reply rdAnswer => do
      let writeInfo ← queueReply o.writeInfo rdAnswer
      some { o with writeInfo := writeInfo, produced := o.produced ++ rdAnswer.bytes }
  | .writable byteWrite => do
      let writeInfo ← onWriteCb o.writeInfo byteWrite
      some { o with writeInfo := writeInfo, sent := o.sent ++ o.buffer.take byteWrite }

/-- `write` accepts at least one byte, and no more than it is given. -/
def Output.Accepts (o : Output) : OutputEvent → Prop
  | .reply _ => True
  | .writable byteWrite => 1 ≤ byteWrite ∧ (byteWrite : Int) ≤ o.writeInfo.sizeAnswer

/-- The bytes sent, followed by those that wait, are the replies produced. -/
structure Output.Exact (o : Output) : Prop where
  size_ge : 0 ≤ o.writeInfo.sizeAnswer
  size_le : o.writeInfo.sizeAnswer.toNat ≤ o.buffer.length
  bytes_eq : o.sent ++ o.buffer.take o.writeInfo.sizeAnswer.toNat = Block.ofBytes o.produced

instance (o : Output) : DecidablePred o.Accepts
  | .reply _ => isTrue trivial
  | .writable _ => inferInstanceAs (Decidable (_ ∧ _))

instance (o : Output) : Decidable o.Exact :=
  decidable_of_iff (0 ≤ o.writeInfo.sizeAnswer ∧
      o.writeInfo.sizeAnswer.toNat ≤ o.buffer.length ∧
      o.sent ++ o.buffer.take o.writeInfo.sizeAnswer.toNat = Block.ofBytes o.produced)
    ⟨fun h => ⟨h.1, h.2.1, h.2.2⟩, fun h => ⟨h.size_ge, h.size_le, h.bytes_eq⟩⟩

/-- The event does no harm: the size of what waits stays an `int`, and a write is complete or leaves
more than a third and at most half of the bytes, and those of the rest that are not moved are in
place already. -/
def Output.Harmless (o : Output) : OutputEvent → Prop
  | .reply rdAnswer => o.writeInfo.sizeAnswer + rdAnswer.bytes.length < 2 ^ 31
  | .writable byteWrite =>
      (byteWrite : Int) = o.writeInfo.sizeAnswer ∨
        let n := o.writeInfo.sizeAnswer.toNat
        2 * byteWrite ≤ n ∧ n ≤ 3 * byteWrite ∧
          (o.buffer.drop (n - 2 * byteWrite)).take byteWrite =
            (o.buffer.drop (n - byteWrite)).take byteWrite

instance (o : Output) : DecidablePred o.Harmless
  | .reply _ => inferInstanceAs (Decidable (_ < _))
  | .writable _ => inferInstanceAs (Decidable (_ ∨ (_ ∧ _ ∧ _)))

section Step

variable {o : Output}

/-- A reply that finds no buffer is put into a new one. -/
theorem queueReply_null (sizeAnswer : Int) (rdAnswer : RdAnswer) :
    queueReply ⟨none, sizeAnswer⟩ rdAnswer =
      some ⟨some (Block.ofBytes rdAnswer.bytes), rdAnswer.bytes.length⟩ := by
  obtain ⟨b, hmalloc, hb⟩ := Block.holds_malloc (n := rdAnswer.bytes.length) rfl
  obtain ⟨b', hwrite, hb'⟩ := hb.write 0 rdAnswer.bytes rfl le_rfl
  rw [Nat.sub_self, List.nil_append] at hb'
  rw [← hb'.eq_ofBytes]
  simp [queueReply, hmalloc, hwrite]

/-- A reply is put behind the bytes that wait. -/
theorem queueReply_some {answer : Block} {n : Nat} (hn : n ≤ answer.length) (rdAnswer : RdAnswer) :
    ∃ answer', queueReply ⟨some answer, n⟩ rdAnswer =
        some ⟨answer', wrap32 ((n + rdAnswer.bytes.length : Nat) : Int)⟩ ∧
      answer'.getD [] = answer.take n ++ Block.ofBytes rdAnswer.bytes := by
  have hnonneg : ¬ (n : Int) < 0 := by omega
  have hsize : (n : Int) + rdAnswer.bytes.length = (n + rdAnswer.bytes.length : Nat) := by
    rw [Nat.cast_add]
  by_cases hzero : n + rdAnswer.bytes.length = 0
  · -- `realloc` frees the buffer, and nothing is copied
    have hbytes : rdAnswer.bytes = [] := List.eq_nil_of_length_eq_zero (by omega)
    have hn0 : n = 0 := by omega
    refine ⟨none, ?_, ?_⟩
    · simp [queueReply, Block.realloc, hbytes, hn0]
    · simp [hbytes, hn0]
  · obtain ⟨rest, hrealloc, hrest⟩ := Block.realloc_add hn hzero
    have hdone : n = (answer.take n).length := by
      rw [List.length_take, Nat.min_eq_left hn]
    have hwrite : Block.write? (answer.take n ++ rest) n (Block.ofBytes rdAnswer.bytes) =
        some (answer.take n ++ Block.ofBytes rdAnswer.bytes) := by
      rw [Block.write?_append hdone (by simp [hrest])]
      simp [hrest]
    refine ⟨some (answer.take n ++ Block.ofBytes rdAnswer.bytes), ?_, rfl⟩
    simp only [queueReply, hnonneg, if_false, Int.toNat_natCast, hrealloc, hwrite, hsize,
      Option.bind_eq_bind, Option.bind_some]

/-- A reply keeps the output exact if and only if the size of what waits stays an `int`. -/
theorem reply_exact_iff (ho : o.Exact) (rdAnswer : RdAnswer) :
    (∃ o', o.step (.reply rdAnswer) = some o' ∧ o'.Exact) ↔ o.Harmless (.reply rdAnswer) := by
  obtain ⟨⟨answer, sizeAnswer⟩, sent, produced⟩ := o
  obtain ⟨hge, hle, hbytes⟩ := ho
  obtain ⟨n, hn⟩ := Int.eq_ofNat_of_zero_le hge
  obtain rfl : sizeAnswer = n := hn
  simp only [Output.buffer, Int.toNat_natCast] at hle hbytes
  simp only [Output.Harmless, Output.step]
  cases answer with
  | none =>
      obtain rfl : n = 0 := Nat.le_zero.mp hle
      have hsent : sent = Block.ofBytes produced := by simpa using hbytes
      have hlt := rdAnswer.size_lt
      refine iff_of_true ⟨_, by rw [queueReply_null]; rfl, ?_⟩ (by omega)
      refine ⟨Int.natCast_nonneg _, ?_, ?_⟩
      · simp [Output.buffer]
      · have hfull : (Block.ofBytes rdAnswer.bytes).take rdAnswer.bytes.length =
            Block.ofBytes rdAnswer.bytes := List.take_of_length_le (by simp)
        simp [Output.buffer, hsent, hfull]
  | some answer =>
      rw [Option.getD_some] at hle hbytes
      obtain ⟨answer', hqueue, hbuffer⟩ := queueReply_some hle rdAnswer
      have hlength : (answer.take n).length = n := by
        rw [List.length_take, Nat.min_eq_left hle]
      rw [hqueue]
      constructor
      · rintro ⟨o', hstep, ho'⟩
        cases hstep
        -- all bytes produced are sent or wait, so that the size must count all that wait
        have hcount := congrArg List.length ho'.bytes_eq
        have hbefore := congrArg List.length hbytes
        have hsize := ho'.size_le
        have hint := wrap32_lt ((n + rdAnswer.bytes.length : Nat) : Int)
        simp only [Output.buffer, hbuffer, List.length_append, List.length_take, hlength,
          Block.length_ofBytes] at hcount hbefore hsize
        omega
      · intro hlt
        have hwrap : wrap32 ((n + rdAnswer.bytes.length : Nat) : Int) =
            (n + rdAnswer.bytes.length : Nat) := by
          rw [wrap32_of_range] <;> omega
        rw [hwrap]
        refine ⟨_, rfl, Int.natCast_nonneg _, ?_, ?_⟩
        · simp [Output.buffer, hbuffer, hlength]
        · have hfull : (answer.take n ++ Block.ofBytes rdAnswer.bytes).take
              (n + rdAnswer.bytes.length) = answer.take n ++ Block.ofBytes rdAnswer.bytes := by
            apply List.take_of_length_le
            simp [hlength]
          simp only [Output.buffer, hbuffer, Int.toNat_natCast, hfull, Block.ofBytes_append]
          rw [← List.append_assoc, hbytes]

/-- What a write that is not complete leaves of the bytes that wait. -/
theorem onWriteCb_part {answer : Block} {n byteWrite : Nat} (hn : n ≤ answer.length)
    (hlt : byteWrite < n) :
    onWriteCb ⟨some answer, n⟩ byteWrite =
      if 2 * byteWrite ≤ n ∧ n ≤ 3 * byteWrite then
        some ⟨some ((answer.drop byteWrite).take (n - 2 * byteWrite) ++
          answer.drop (n - 2 * byteWrite)), (n - byteWrite : Nat)⟩
      else none := by
  have hne : ¬ (byteWrite : Int) = n := by omega
  have hsize : (n : Int) - byteWrite = (n - byteWrite : Nat) := by omega
  simp only [onWriteCb, hne, if_false, Option.bind_eq_bind, Option.bind_some, Block.copyDown?]
  by_cases hmoved : 2 * byteWrite ≤ n ∧ n ≤ 3 * byteWrite
  · have hlength : ((n : Int) - byteWrite - byteWrite).toNat = n - 2 * byteWrite := by omega
    have hallowed : 0 ≤ (n : Int) - byteWrite - byteWrite ∧
        byteWrite + (n - 2 * byteWrite) ≤ answer.length ∧ n - 2 * byteWrite ≤ byteWrite := by
      omega
    have hread : answer.read byteWrite (n - 2 * byteWrite) =
        (answer.drop byteWrite).take (n - 2 * byteWrite) := Block.read_of_le hallowed.2.1
    have hread' : ((answer.drop byteWrite).take (n - 2 * byteWrite)).length = n - 2 * byteWrite := by
      rw [List.length_take, List.length_drop]
      omega
    rw [hlength, if_pos hallowed, if_pos hmoved, hread, Block.write_zero (by rw [hread']; omega),
      hread', hsize]
    rfl
  · have hrefused : ¬ (0 ≤ (n : Int) - byteWrite - byteWrite ∧
        byteWrite + ((n : Int) - byteWrite - byteWrite).toNat ≤ answer.length ∧
        ((n : Int) - byteWrite - byteWrite).toNat ≤ byteWrite) := by
      omega
    rw [if_neg hrefused, if_neg hmoved]
    rfl

/-- What waits before a write that is not complete: the bytes it accepts, those that are then moved,
and those that are not. -/
theorem take_eq_parts (answer : Block) {n byteWrite : Nat} (hmoved : 2 * byteWrite ≤ n) :
    answer.take n = answer.take byteWrite ++ ((answer.drop byteWrite).take (n - 2 * byteWrite) ++
      (answer.drop (n - byteWrite)).take byteWrite) := by
  have hn : n = byteWrite + (n - 2 * byteWrite + byteWrite) := by omega
  have hdrop : byteWrite + (n - 2 * byteWrite) = n - byteWrite := by omega
  conv_lhs => rw [hn, List.take_add, List.take_add, List.drop_drop, hdrop]

/-- What waits after it. -/
theorem take_moved {answer : Block} {n byteWrite : Nat} (hn : n ≤ answer.length)
    (hmoved : 2 * byteWrite ≤ n) :
    ((answer.drop byteWrite).take (n - 2 * byteWrite) ++ answer.drop (n - 2 * byteWrite)).take
        (n - byteWrite) =
      (answer.drop byteWrite).take (n - 2 * byteWrite) ++
        (answer.drop (n - 2 * byteWrite)).take byteWrite := by
  have hlength : ((answer.drop byteWrite).take (n - 2 * byteWrite)).length = n - 2 * byteWrite := by
    rw [List.length_take, List.length_drop]
    omega
  have hleft : n - byteWrite - (n - 2 * byteWrite) = byteWrite := by omega
  rw [List.take_append, hlength, hleft, List.take_of_length_le]
  rw [hlength]
  omega

/-- A write keeps the output exact if and only if it is complete or leaves in place what it does not
move. -/
theorem writable_exact_iff (ho : o.Exact) {byteWrite : Nat}
    (haccepts : o.Accepts (.writable byteWrite)) :
    (∃ o', o.step (.writable byteWrite) = some o' ∧ o'.Exact) ↔ o.Harmless (.writable byteWrite) := by
  obtain ⟨⟨answer, sizeAnswer⟩, sent, produced⟩ := o
  obtain ⟨hge, hle, hbytes⟩ := ho
  obtain ⟨hpos, hmax⟩ := haccepts
  obtain ⟨n, hn⟩ := Int.eq_ofNat_of_zero_le hge
  obtain rfl : sizeAnswer = n := hn
  simp only [Output.buffer, Int.toNat_natCast] at hle hbytes hmax
  cases answer with
  | none =>
      -- nothing waits, and `write` accepts at least one byte
      have hzero : n ≤ 0 := hle
      omega
  | some answer =>
      rw [Option.getD_some] at hle hbytes
      simp only [Output.Harmless, Output.step, Output.buffer, Option.getD_some, Int.toNat_natCast]
      by_cases hcomplete : (byteWrite : Int) = n
      · obtain rfl : byteWrite = n := by omega
        refine iff_of_true ⟨_, by simp only [onWriteCb, if_true]; rfl, ?_⟩ (.inl rfl)
        exact ⟨le_rfl, Nat.zero_le _, by simpa using hbytes⟩
      · rw [onWriteCb_part hle (by omega)]
        by_cases hmoved : 2 * byteWrite ≤ n ∧ n ≤ 3 * byteWrite
        · -- only the last `byteWrite` bytes of the rest are not moved
          have hwaits := take_eq_parts answer hmoved.1
          have hrest := take_moved hle hmoved.1
          simp only [if_pos hmoved, Option.bind_eq_bind, Option.bind_some]
          constructor
          · rintro ⟨o', hstep, ho'⟩
            cases hstep
            refine .inr ⟨hmoved.1, hmoved.2, ?_⟩
            have hafter := ho'.bytes_eq
            simp only [Output.buffer, Option.getD_some, Int.toNat_natCast] at hafter
            rw [← hbytes, hwaits, hrest] at hafter
            simpa using hafter
          · intro hharmless
            have hplace := (hharmless.resolve_left hcomplete).2.2
            refine ⟨_, rfl, Int.natCast_nonneg _, ?_, ?_⟩
            · simp only [Output.buffer, Option.getD_some, Int.toNat_natCast, List.length_append,
                List.length_take, List.length_drop]
              omega
            · simp only [Output.buffer, Option.getD_some, Int.toNat_natCast]
              rw [← hbytes, hwaits, hrest, hplace]
              simp
        · -- the length of the copy is negative, or the ranges overlap
          rw [if_neg hmoved]
          refine iff_of_false ?_ ?_
          · rintro ⟨o', hstep, -⟩
            cases hstep
          · rintro (hharmless | ⟨hlow, hhigh, -⟩)
            · exact hcomplete hharmless
            · exact hmoved ⟨hlow, hhigh⟩

end Step

/-! ## Runs -/

/-- Every event of a run satisfies `P` in the state it meets. -/
def Output.Along (P : Output → OutputEvent → Prop) (o : Output) : List OutputEvent → Prop
  | [] => True
  | e :: events => P o e ∧ ∀ o' ∈ o.step e, o'.Along P events

/-- Every access of a run is allowed, and the output is exact in every state. -/
def Output.DeliversExactly (o : Output) : List OutputEvent → Prop
  | [] => o.Exact
  | e :: events => o.Exact ∧ ∃ o' ∈ o.step e, o'.DeliversExactly events

instance decidableAlong (P : Output → OutputEvent → Prop) [∀ o, DecidablePred (P o)] :
    (events : List OutputEvent) → (o : Output) → Decidable (o.Along P events)
  | [], _ => isTrue trivial
  | _ :: events, _ =>
      have := decidableAlong P events
      inferInstanceAs (Decidable (_ ∧ ∀ o' ∈ _, Output.Along P o' events))

instance decidableDeliversExactly :
    (events : List OutputEvent) → (o : Output) → Decidable (o.DeliversExactly events)
  | [], o => inferInstanceAs (Decidable o.Exact)
  | _ :: events, _ =>
      have := decidableDeliversExactly events
      inferInstanceAs (Decidable (_ ∧ ∃ o' ∈ _, Output.DeliversExactly o' events))

theorem Output.DeliversExactly.exact {o : Output} {events : List OutputEvent}
    (h : o.DeliversExactly events) : o.Exact := by
  cases events with
  | nil => exact h
  | cons e events => exact h.1

theorem step_exact_iff {o : Output} (ho : o.Exact) {e : OutputEvent} (haccepts : o.Accepts e) :
    (∃ o', o.step e = some o' ∧ o'.Exact) ↔ o.Harmless e := by
  cases e with
  | reply rdAnswer => exact reply_exact_iff ho rdAnswer
  | writable byteWrite => exact writable_exact_iff ho haccepts

/-- A run from an exact state stays exact if and only if all of its events are harmless. -/
theorem Output.Exact.delivers_iff {o : Output} (ho : o.Exact) {events : List OutputEvent}
    (haccepts : o.Along Output.Accepts events) :
    o.DeliversExactly events ↔ o.Along Output.Harmless events := by
  induction events generalizing o with
  | nil => exact iff_of_true ho trivial
  | cons e events ih =>
      obtain ⟨haccepts, hnext⟩ := haccepts
      constructor
      · rintro ⟨-, o', hstep, hrun⟩
        refine ⟨(step_exact_iff ho haccepts).mp ⟨o', hstep, hrun.exact⟩, fun o'' hstep' => ?_⟩
        obtain rfl : o' = o'' := Option.some.inj (hstep.symm.trans hstep')
        exact (ih hrun.exact (hnext o' hstep)).mp hrun
      · rintro ⟨hharmless, hrest⟩
        obtain ⟨o', hstep, ho'⟩ := (step_exact_iff ho haccepts).mpr hharmless
        exact ⟨ho, o', hstep, (ih ho' (hnext o' hstep)).mpr (hrest o' hstep)⟩

/-- On a connection that was just accepted, the reply stream is delivered exactly if and only if
every event is harmless. -/
theorem delivers_exactly_iff (events : List OutputEvent)
    (haccepts : Output.start.Along Output.Accepts events) :
    Output.start.DeliversExactly events ↔ Output.start.Along Output.Harmless events := by
  have hstart : Output.start.Exact := ⟨le_rfl, Nat.zero_le _, rfl⟩
  exact hstart.delivers_iff haccepts

/-- `+PONG` -/
def pong : RdAnswer := ⟨ascii "+PONG\r\n", by decide⟩

/-- Two replies that are accepted at once. -/
theorem delivers_exactly_pong :
    Output.start.DeliversExactly [.reply pong, .reply pong, .writable 14] :=
  (delivers_exactly_iff _ (by decide)).mpr (by decide)

/-- Three of the seven bytes of a reply are accepted: `+PO` is sent, and `NPON` waits instead of
`NG\r\n`. After four bytes the length of the move is negative. -/
theorem partial_write_corrupts :
    (∃ o ∈ Output.start.step (.reply pong), ∃ o' ∈ o.step (.writable 3),
        o.Accepts (.writable 3) ∧ o'.sent = Block.ofBytes (ascii "+PO") ∧
          o'.buffer.take o'.writeInfo.sizeAnswer.toNat = Block.ofBytes (ascii "NPON")) ∧
      ¬ Output.start.DeliversExactly [.reply pong, .writable 3] ∧
      (∃ o ∈ Output.start.step (.reply pong), o.Accepts (.writable 4) ∧
        (o.step (.writable 4)).isNone) := by
  decide

end PgRedisProxy
