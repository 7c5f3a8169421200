import PgRedisProxy.Server.Serializable
import PgRedisProxy.Socket.Indeterminate

/-!
# What the memory of a connection held before

`on_accept_cb` leaves some members of the `Tsocket_data` it allocates as they were.
`Client.Agrees` relates two connections that were allocated on different memory; every
callback treats them alike, so that a client learns nothing of that memory, and neither
does the store. `indeterminate_unseen` is the main result.
-/

namespace PgRedisProxy

open CLang Parties

/-- Two connections that differ at most in what is yet to be set. -/
structure Client.Agrees (c c' : Client) : Prop where
  readData : c.readData.Agrees c'.readData
  output_eq : c'.output = c.output
  writing_eq : c'.writing = c.writing
  received_eq : c'.received = c.received

/-- `on_accept_cb` sets what is used before the parser sets it. -/
theorem onAcceptCb_agrees (g g' : Allocated) : (onAcceptCb g).Agrees (onAcceptCb g') where
  readData :=
    { parse := ⟨rfl, rfl, rfl, rfl, rfl, by simp [onAcceptCb], by simp [onAcceptCb],
        by simp [onAcceptCb]⟩
      exitStatus_eq := rfl
      curBufferSize_eq := rfl
      size_le := Nat.zero_le _
      length_eq := ⟨g.length_eq, g'.length_eq⟩
      take_eq := rfl }
  output_eq := rfl
  writing_eq := rfl
  received_eq := rfl

section Callbacks

variable {c c' : Client} {x : Shared}

theorem Client.Agrees.conn (hc : c.Agrees c') (p : Proxy) : (c.conn p).Agrees (c'.conn p) :=
  ⟨hc.readData, by simp only [Client.conn, hc.output_eq], rfl⟩

/-- `on_read_cb` leaves the same store, and connections that agree again. -/
theorem onReadable_agrees (hc : c.Agrees c') (i : Nat) (bytes : List UInt8) :
    Option.Rel (fun a a' => a'.1 = a.1 ∧ Member.Related Client.Agrees a.2 a'.2)
      (c.onReadable i bytes x) (c'.onReadable i bytes x) := by
  obtain ⟨hexit, hdata, hhost, hdelivered⟩ :=
    onReadCb_agrees id connectionHandler (hc.conn x.proxy) bytes
  simp only [Client.onReadable, Client.readBy]
  generalize onReadCb id connectionHandler (c.conn x.proxy) bytes = read at *
  generalize onReadCb id connectionHandler (c'.conn x.proxy) bytes = read' at *
  obtain ⟨exit, conn⟩ := read
  obtain ⟨exit', conn'⟩ := read'
  obtain rfl : exit' = exit := hexit
  cases exit' with
  | finished =>
      dsimp only at hhost hdelivered ⊢
      rw [hhost, hdelivered, hc.writing_eq, hc.received_eq, hc.readData.curBufferSize_eq]
      exact .some ⟨rfl, .present ⟨hdata, rfl, rfl, rfl⟩⟩
  | closed => exact .some ⟨rfl, .left hc⟩
  | stopped => exact .none
  | fault => exact .none

/-- `on_write_cb` writes the same bytes. -/
theorem onWritable_agrees (hc : c.Agrees c') (byteWrite : Nat) :
    Option.Rel Client.Agrees (c.onWritable byteWrite) (c'.onWritable byteWrite) := by
  simp only [Client.onWritable, hc.writing_eq, hc.output_eq]
  split
  · split
    · exact .none
    · split
      · cases c.output.step (.writable byteWrite) with
        | none => exact .none
        | some o => exact .some ⟨hc.readData, rfl, rfl, hc.received_eq⟩
      · exact .some hc
  · exact .some hc

end Callbacks

/-- No callback of a connection depends on the memory that it was allocated on. -/
theorem serverRules_respects : serverRules.Respects Client.Agrees where
  join := onAcceptCb_agrees
  act := by
    intro i b x c c' hc
    cases b with
    | readable bytes => exact onReadable_agrees hc i bytes
    | failed => exact .some ⟨rfl, .left hc⟩
    | writable byteWrite =>
        have hwrite := onWritable_agrees hc byteWrite
        show Option.Rel _ ((c.onWritable byteWrite).map fun c => (x, Member.present c))
          ((c'.onWritable byteWrite).map fun c => (x, Member.present c))
        generalize c.onWritable byteWrite = o at hwrite ⊢
        generalize c'.onWritable byteWrite = o' at hwrite ⊢
        cases hwrite with
        | none => exact .none
        | some hc₁ => exact .some ⟨rfl, .present hc₁⟩

/-- Whatever was in the memory that connections are allocated on, the same callbacks do the same:
the worker survives them or not, executes the same requests on the same store, and leaves every
connection with the same bytes sent, the same bytes waiting, and a parser in a state that agrees. -/
theorem indeterminate_unseen {r : DumpStatus} {db : Hstore} {events events' : List ServerEvent}
    (hevents : List.Forall₂ Event.SameButJoin events events') :
    Option.Rel (System.Related Client.Agrees) (Server.run r db events)
      (Server.run r db events') :=
  serverRules_respects.run ⟨rfl, fun _ => .absent⟩ hevents

/-- Memory that was cleared. -/
def clearedAllocated : Allocated where
  readData := ⟨⟨none, 0, 0, ⟨0, false, none, 0, 0⟩, .arrayWait⟩, 0, List.replicate bufferSize 0,
    .notAll⟩
  length_eq := by simp

/-- The callbacks of `twoClients`, on cleared memory. -/
def twoClientsCleared : List ServerEvent :=
  .join 0 clearedAllocated :: .join 1 clearedAllocated :: twoClients.drop 2

theorem indeterminate_unseen_two :
    ∃ s s', Server.run .defferDump (fun _ => none) twoClients = some s ∧
      Server.run .defferDump (fun _ => none) twoClientsCleared = some s' ∧
      System.Related Client.Agrees s s' := by
  have hevents : List.Forall₂ Event.SameButJoin twoClients twoClientsCleared :=
    .cons (.join 0 _ _) (.cons (.join 1 _ _) (.cons (.act 0 _) (.cons (.act 1 _) (.cons (.act 0 _)
      (.cons (.change ()) .nil)))))
  obtain ⟨s, hrun⟩ := Option.isSome_iff_exists.mp
    (by decide +kernel : (Server.run .defferDump (fun _ => none) twoClients).isSome)
  have hrel : Option.Rel _ (Server.run .defferDump (fun _ => none) twoClients)
    (Server.run .defferDump (fun _ => none) twoClientsCleared) := indeterminate_unseen hevents
  rw [hrun] at hrel
  generalize Server.run .defferDump (fun _ => none) twoClientsCleared = run' at hrel ⊢
  cases hrel with
  | some hs => exact ⟨s, _, hrun, rfl, hs⟩

end PgRedisProxy
