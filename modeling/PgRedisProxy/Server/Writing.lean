import PgRedisProxy.Server.Serializable

/-!
# The watcher for writing

`on_read_cb` starts the watcher when bytes wait, and `on_write_cb` stops it after a
complete write. `no_lost_wakeup` says that in every state of a run the watcher of a
connection is started exactly if bytes wait, as long as their number is not negative, and
that one complete write is then all it takes to deliver every reply produced.
-/

namespace PgRedisProxy

open CLang Parties Resp

/-- The watcher is started when bytes wait, and not when there are none. -/
structure Client.Wakes (c : Client) : Prop where
  started : 0 < c.output.writeInfo.sizeAnswer → c.writing = true
  waits : c.writing = true → c.output.writeInfo.sizeAnswer ≠ 0
  size_lt : c.output.writeInfo.sizeAnswer < 2 ^ 31

/-- A reply that is queued leaves bytes to wait, or a size that is no `int` any more. -/
theorem reply_size {o o' : Output} {rdAnswer : RdAnswer} (hne : rdAnswer.bytes ≠ [])
    (hlt : o.writeInfo.sizeAnswer < 2 ^ 31) (hstep : o.step (.reply rdAnswer) = some o') :
    o'.writeInfo.sizeAnswer ≠ 0 ∧ o'.writeInfo.sizeAnswer < 2 ^ 31 := by
  have hpos := List.length_pos_of_ne_nil hne
  have hsize := rdAnswer.size_lt
  simp only [Output.step, Option.bind_eq_bind, Option.bind_eq_some_iff] at hstep
  obtain ⟨writeInfo, hqueue, heq⟩ := hstep
  cases heq
  obtain ⟨⟨answer, sizeAnswer⟩, sent, produced⟩ := o
  cases answer with
  | none =>
      rw [queueReply_null] at hqueue
      cases hqueue
      constructor
      · show (rdAnswer.bytes.length : Int) ≠ 0
        omega
      · show (rdAnswer.bytes.length : Int) < 2 ^ 31
        omega
  | some answer =>
      have hwrap : writeInfo.sizeAnswer = wrap32 (sizeAnswer + rdAnswer.bytes.length) ∧
          0 ≤ sizeAnswer := by
        simp only [queueReply] at hqueue
        split at hqueue
        · cases hqueue
        · rename_i hnonneg
          refine ⟨?_, by omega⟩
          split at hqueue
          · cases hqueue
            rfl
          · rw [Option.bind_eq_bind, Option.bind_eq_some_iff] at hqueue
            obtain ⟨answer', -, heq⟩ := hqueue
            cases heq
            rfl
      obtain ⟨hwrap, hnonneg⟩ := hwrap
      have hlt' : sizeAnswer < 2 ^ 31 := hlt
      show writeInfo.sizeAnswer ≠ 0 ∧ writeInfo.sizeAnswer < 2 ^ 31
      rw [hwrap]
      have hsum : 0 < sizeAnswer + rdAnswer.bytes.length := by omega
      have hsum' : sizeAnswer + rdAnswer.bytes.length < 2 ^ 32 := by omega
      refine ⟨?_, wrap32_lt _⟩
      unfold wrap32 Int.bmod
      dsimp only
      split
      · omega
      · omega

/-- Replies that are queued do not make a size zero. -/
theorem replies_size {o o' : Output} {rdAnswers : List RdAnswer}
    (hne : ∀ rdAnswer ∈ rdAnswers, rdAnswer.bytes ≠ []) (hlt : o.writeInfo.sizeAnswer < 2 ^ 31)
    (hrun : Machine.runFrom Output.step o (rdAnswers.map .reply) = some o') :
    (o.writeInfo.sizeAnswer ≠ 0 → o'.writeInfo.sizeAnswer ≠ 0) ∧
      o'.writeInfo.sizeAnswer < 2 ^ 31 := by
  induction rdAnswers generalizing o with
  | nil =>
      cases hrun
      exact ⟨id, hlt⟩
  | cons rdAnswer rdAnswers ih =>
      obtain ⟨o₁, hstep, hrest⟩ := Machine.runFrom_cons_eq_some.mp hrun
      obtain ⟨hne₁, hlt₁⟩ := reply_size (hne rdAnswer List.mem_cons_self) hlt hstep
      obtain ⟨hne', hlt'⟩ := ih (fun a ha => hne a (List.mem_cons_of_mem _ ha)) hlt₁ hrest
      exact ⟨fun _ => hne' hne₁, hlt'⟩

/-- Replies are not empty. -/
theorem rdAnswers_ne_nil {rdAnswers : List RdAnswer} {replies : List Reply}
    (hbytes : rdAnswers.map RdAnswer.bytes = replies.map Reply.encode) :
    ∀ rdAnswer ∈ rdAnswers, rdAnswer.bytes ≠ [] := by
  intro rdAnswer hmem
  have hencoded : rdAnswer.bytes ∈ replies.map Reply.encode := by
    rw [← hbytes]
    exact List.mem_map_of_mem hmem
  obtain ⟨reply, -, hreply⟩ := List.mem_map.mp hencoded
  rw [← hreply]
  exact reply.encode_ne_nil

/-- A write leaves the watcher started if bytes are left. -/
theorem Client.Wakes.writable {c c' : Client} (h : c.Wakes) {byteWrite : Nat}
    (hact : c.onWritable byteWrite = some c') : c'.Wakes := by
  rcases onWritable_cases hact with rfl | ⟨-, ⟨hpos, hle⟩, o, hstep, rfl⟩
  · exact h
  · simp only [Output.step, Option.bind_eq_bind, Option.bind_eq_some_iff] at hstep
    obtain ⟨writeInfo, hwrite, heq⟩ := hstep
    cases heq
    have hlt := h.size_lt
    unfold onWriteCb at hwrite
    split at hwrite
    · rename_i hall
      cases hwrite
      have hzero : (0 : Int) < 2 ^ 31 := by decide
      exact ⟨fun hlt => absurd hlt (lt_irrefl 0), fun hwriting => by simp [hall] at hwriting, hzero⟩
    · rename_i hpart
      simp only [Option.bind_eq_bind, Option.bind_eq_some_iff] at hwrite
      obtain ⟨answer, -, answer', -, heq⟩ := hwrite
      cases heq
      refine ⟨fun _ => by simpa using hpart, fun _ => ?_, ?_⟩
      · show c.output.writeInfo.sizeAnswer - byteWrite ≠ 0
        omega
      · show c.output.writeInfo.sizeAnswer - byteWrite < 2 ^ 31
        omega

/-- A read event that returns starts the watcher if bytes wait. -/
theorem Client.Wakes.readable {r : DumpStatus} {db : Hstore} {i : Nat} {bytes : List UInt8}
    {x x' : Shared} {z : Serial Tiers} {c c' : Client} (h : c.Wakes) (hx : x.Executed r db z)
    (hact : c.onReadable i bytes x = some (x', .present c')) : c'.Wakes := by
  rcases onReadable_cases hx hact with ⟨-, hleft⟩ |
    ⟨conn, z', replies, rdAnswers, -, -, -, -, hbytes, hqueued, heq⟩
  · cases hleft
  · cases heq
    obtain ⟨hne, hlt⟩ := replies_size (rdAnswers_ne_nil hbytes) h.size_lt hqueued
    refine ⟨fun hpos => ?_, fun hwriting => ?_, hlt⟩
    · simp [hpos]
    · rcases Bool.or_eq_true_iff.mp hwriting with hbefore | hpos
      · exact hne (h.waits hbefore)
      · have hpos' : 0 < conn.host.2.writeInfo.sizeAnswer := of_decide_eq_true hpos
        exact hpos'.ne'

/-- What is known of the watcher of each connection. -/
def Attended : Member Client → Prop
  | .present c => c.Wakes
  | _ => True

theorem onAcceptCb_wakes (g : Allocated) : (onAcceptCb g).Wakes where
  started := fun hlt => absurd hlt (lt_irrefl 0)
  waits := by
    intro hwriting
    cases hwriting
  size_lt := by
    have hzero : (0 : Int) < 2 ^ 31 := by decide
    exact hzero

theorem serverRules_attended (r : DumpStatus) (db : Hstore) :
    serverRules.Keeps (fun _ _ _ _ => True) (fun x => ∃ z, x.Executed r db z)
      fun i x m => Served r db i x m ∧ Attended m :=
  (serverRules_keeps r db).strengthen
    (fun g _ => onAcceptCb_wakes g)
    (by
      rintro i b x c x' m ⟨z, hx⟩ - hc - hact
      cases b with
      | readable bytes =>
          cases m with
          | absent => trivial
          | present c' => exact Client.Wakes.readable hc hx hact
          | left c' => trivial
      | failed =>
          cases hact
          trivial
      | writable byteWrite =>
          obtain ⟨c', hwrite, heq⟩ := Option.map_eq_some_iff.mp hact
          cases heq
          exact Client.Wakes.writable hc hwrite)

/-- A connection after a write of all that waits. -/
def Client.written (c : Client) : Client :=
  { c with
    output :=
      { c.output with
        writeInfo := { c.output.writeInfo with sizeAnswer := 0 }
        sent := c.output.sent ++ c.output.buffer.take c.output.writeInfo.sizeAnswer.toNat }
    writing := false }

/-- `write` may accept all that waits. -/
theorem onWritable_all {c : Client} (hwriting : c.writing = true)
    (hpos : 0 < c.output.writeInfo.sizeAnswer) :
    c.onWritable c.output.writeInfo.sizeAnswer.toNat = some c.written := by
  obtain ⟨n, hn⟩ := Int.eq_ofNat_of_zero_le hpos.le
  have hn' : c.output.writeInfo.sizeAnswer = n := hn
  have haccepts : c.output.Accepts (.writable n) := ⟨by omega, hn'.ge⟩
  have hnonneg : ¬ (n : Int) < 0 := by omega
  simp [Client.onWritable, Client.written, hwriting, haccepts, Output.step, onWriteCb, hn', hnonneg]

/-- In every state of a run, the watcher for writing of a connection is started if and only if bytes
wait, unless their number was wrapped. If what was sent and what waits are the replies produced, a
complete write then sends all that is left, and stops the watcher. -/
theorem no_lost_wakeup {r : DumpStatus} {db : Hstore} {events : List ServerEvent} {s : Server}
    (hrun : Server.run r db events = some s) {i : Nat} {c : Client}
    (hc : s.member i = .present c) (hsize : 0 ≤ c.output.writeInfo.sizeAnswer) :
    (c.writing = true ↔ 0 < c.output.writeInfo.sizeAnswer) ∧
      (c.output.Exact → 0 < c.output.writeInfo.sizeAnswer →
        ∃ s' c', serverRules.step s
            (.act i (.writable c.output.writeInfo.sizeAnswer.toNat)) = some s' ∧
          s'.member i = .present c' ∧ c'.writing = false ∧ c'.output.writeInfo.sizeAnswer = 0 ∧
          c'.output.sent = Block.ofBytes c.output.produced ∧ s'.shared = s.shared) := by
  have hholds := (serverRules_attended r db).run
    ⟨(Server.start_holds r db).shared, fun i => ⟨(Server.start_holds r db).member i, trivial⟩⟩
    (Machine.along_of_forall (fun _ e => by cases e <;> simp [Guarded]) _ _) hrun
  have hwakes : c.Wakes := by
    have hattended := (hholds.member i).2
    rwa [hc] at hattended
  have hiff : c.writing = true ↔ 0 < c.output.writeInfo.sizeAnswer := by
    refine ⟨fun hwriting => ?_, hwakes.started⟩
    have hne := hwakes.waits hwriting
    omega
  refine ⟨hiff, fun hexact hpos => ?_⟩
  have hstep : serverRules.step s (.act i (.writable c.output.writeInfo.sizeAnswer.toNat)) =
      some ⟨s.shared, Function.update s.member i (.present c.written)⟩ := by
    simp [Rules.step, hc, serverRules, clientAct, onWritable_all (hiff.mpr hpos) hpos]
  exact ⟨_, c.written, hstep, Function.update_self i _ s.member, rfl, rfl, hexact.bytes_eq, rfl⟩

/-- The reply to the GET waits, and the watcher is started. -/
theorem no_lost_wakeup_get :
    ∃ s c, Server.run .defferDump (fun _ => none) twoClients = some s ∧
      s.member 1 = .present c ∧ c.writing = true := by
  obtain ⟨s, hrun⟩ := Option.isSome_iff_exists.mp
    (by decide +kernel : (Server.run .defferDump (fun _ => none) twoClients).isSome)
  have hwaits : (Server.run .defferDump (fun _ => none) twoClients).map (fun s =>
      match s.member 1 with
      | .present c => decide (0 < c.output.writeInfo.sizeAnswer)
      | _ => false) = some true := by
    decide +kernel
  rw [hrun, Option.map_some, Option.some_inj] at hwaits
  cases hc : s.member 1 with
  | absent => simp [hc] at hwaits
  | present c =>
      have hpos : 0 < c.output.writeInfo.sizeAnswer := by simpa [hc] using hwaits
      exact ⟨s, c, hrun, hc, (no_lost_wakeup hrun hc hpos.le).1.mpr hpos⟩
  | left c => simp [hc] at hwaits

end PgRedisProxy
