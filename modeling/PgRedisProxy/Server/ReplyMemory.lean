import PgRedisProxy.Base.Heap
import PgRedisProxy.Server.Serializable

/-!
# The memory of the replies

Each request of a read event gets memory for its result, unless it is a `COMMAND`, and for
its reply. `on_read_cb` frees `pg_answer` and `rd_answer` once, behind its loop, so that
only the last of them are freed. `replies_leak_iff` is the main result: over any
interleaving of callbacks, exactly the results and replies before the last ones of each read
event stay allocated, and none do if and only if no read event serves two requests.
-/

namespace PgRedisProxy

open CLang Parties

/-- `pg_answer` and `rd_answer` in `on_read_cb`, and the objects that are allocated. -/
structure AnswerPointers where
  pgAnswer : Option Nat
  rdAnswer : Option Nat
  heap : Heap

/-- The request has `process_redis_to_postgres` allocate a result: it is no `COMMAND`. -/
def Delivery.allocates (d : Delivery) : Bool :=
  d.call?.any fun c => ¬ c.IsCommand

namespace AnswerPointers

/-- `process_redis_to_postgres`, as far as `pg_answer` is concerned. -/
def process (x : AnswerPointers) (d : Delivery) : AnswerPointers :=
  if d.allocates then { x with pgAnswer := some x.heap.malloc.1, heap := x.heap.malloc.2 } else x

/-- A turn of the loop, which also allocates the reply in `define_type_req`. -/
def serve (x : AnswerPointers) (d : Delivery) : AnswerPointers :=
  let x := x.process d
  { x with rdAnswer := some x.heap.malloc.1, heap := x.heap.malloc.2 }

end AnswerPointers

/-- The requests of a read event, and what is freed behind the loop. -/
def readEventHeap (ds : List Delivery) (h : Heap) : Option Heap := do
  let x := ds.foldl AnswerPointers.serve ⟨none, none, h⟩
  let h ← x.heap.freePtr x.pgAnswer
  h.freePtr x.rdAnswer

/-- How many results and replies of a read event are not freed: all but the last ones. -/
def unfreed (ds : List Delivery) : Nat :=
  (ds.countP Delivery.allocates - 1) + (ds.length - 1)

section Event

variable {x : AnswerPointers} {h : Heap} {ps leaked : List Nat}

/-- Where the pointers point to, and what they have pointed to before. -/
structure AnswerPointers.Holds (x : AnswerPointers) (leaked ps : List Nat) : Prop where
  owns : x.heap.Owns (x.pgAnswer.toList ++ (x.rdAnswer.toList ++ (leaked ++ ps)))

/-- What `pg_answer` pointed to before is lost. -/
theorem AnswerPointers.Holds.process (hx : x.Holds leaked ps) (d : Delivery) :
    ∃ leaked', (x.process d).Holds leaked' ps ∧ (x.process d).rdAnswer = x.rdAnswer ∧
      leaked'.length + (x.process d).pgAnswer.toList.length =
        leaked.length + x.pgAnswer.toList.length + d.allocates.toNat ∧
      (x.process d).pgAnswer.toList.length =
        min 1 (x.pgAnswer.toList.length + d.allocates.toNat) := by
  have hone : x.pgAnswer.toList.length ≤ 1 := by cases x.pgAnswer <;> simp
  unfold AnswerPointers.process
  cases d.allocates with
  | false => exact ⟨leaked, hx, rfl, rfl, (Nat.min_eq_right hone).symm⟩
  | true =>
      refine ⟨x.pgAnswer.toList ++ leaked, ⟨?_⟩, rfl, by simp; omega, by simp⟩
      refine hx.owns.malloc.perm ?_
      show List.Perm _ (_ :: (x.rdAnswer.toList ++ ((x.pgAnswer.toList ++ leaked) ++ ps)))
      refine List.Perm.cons _ ?_
      rw [List.append_assoc]
      exact List.perm_append_comm_assoc _ _ _

/-- So is what `rd_answer` pointed to. -/
theorem AnswerPointers.Holds.serve (hx : x.Holds leaked ps) (d : Delivery) :
    ∃ leaked', (x.serve d).Holds leaked' ps ∧
      leaked'.length + (x.serve d).pgAnswer.toList.length =
        leaked.length + x.pgAnswer.toList.length + d.allocates.toNat +
          x.rdAnswer.toList.length ∧
      (x.serve d).pgAnswer.toList.length =
        min 1 (x.pgAnswer.toList.length + d.allocates.toNat) ∧
      (x.serve d).rdAnswer.toList.length = 1 := by
  obtain ⟨leaked₁, hx₁, hrd, hlength, hpg⟩ := hx.process d
  have howns := hx₁.owns.malloc
  rw [hrd] at howns
  refine ⟨x.rdAnswer.toList ++ leaked₁, ⟨howns.perm ?_⟩, ?_, hpg, rfl⟩
  · show List.Perm _ ((x.process d).pgAnswer.toList ++
      (_ :: ((x.rdAnswer.toList ++ leaked₁) ++ ps)))
    rw [List.append_assoc]
    exact List.perm_middle.symm
  · rw [List.length_append]
    show x.rdAnswer.toList.length + leaked₁.length + (x.process d).pgAnswer.toList.length = _
    omega

/-- The turns of a read event lose all that was allocated but what the pointers have at the end. -/
theorem AnswerPointers.Holds.serveAll (hx : x.Holds leaked ps) (ds : List Delivery) :
    ∃ leaked', (ds.foldl AnswerPointers.serve x).Holds leaked' ps ∧
      leaked'.length + (ds.foldl AnswerPointers.serve x).pgAnswer.toList.length +
          (ds.foldl AnswerPointers.serve x).rdAnswer.toList.length =
        leaked.length + x.pgAnswer.toList.length + x.rdAnswer.toList.length +
          ds.countP Delivery.allocates + ds.length ∧
      (ds.foldl AnswerPointers.serve x).pgAnswer.toList.length =
        min 1 (x.pgAnswer.toList.length + ds.countP Delivery.allocates) ∧
      (ds.foldl AnswerPointers.serve x).rdAnswer.toList.length =
        min 1 (x.rdAnswer.toList.length + ds.length) := by
  induction ds generalizing x leaked with
  | nil =>
      have hpg : x.pgAnswer.toList.length ≤ 1 := by cases x.pgAnswer <;> simp
      have hrd : x.rdAnswer.toList.length ≤ 1 := by cases x.rdAnswer <;> simp
      exact ⟨leaked, hx, by simp, (Nat.min_eq_right hpg).symm, (Nat.min_eq_right hrd).symm⟩
  | cons d ds ih =>
      obtain ⟨leaked₁, hx₁, hlength₁, hpg₁, hrd₁⟩ := hx.serve d
      obtain ⟨leaked', hx', hlength, hpg, hrd⟩ := ih hx₁
      have hcount : (d :: ds).countP Delivery.allocates =
          ds.countP Delivery.allocates + d.allocates.toNat := by
        rw [List.countP_cons]
        cases d.allocates <;> rfl
      have hrdx : x.rdAnswer.toList.length ≤ 1 := by cases x.rdAnswer <;> simp
      refine ⟨leaked', hx', ?_, ?_, ?_⟩
      · rw [List.foldl_cons, hlength, hcount, List.length_cons]
        omega
      · rw [List.foldl_cons, hpg, hcount]
        omega
      · rw [List.foldl_cons, hrd, List.length_cons]
        omega

/-- A read event frees what the pointers have at the end. -/
theorem readEventHeap_owns (hh : h.Owns ps) (ds : List Delivery) :
    ∃ leaked h', readEventHeap ds h = some h' ∧ h'.Owns (leaked ++ ps) ∧
      leaked.length = unfreed ds := by
  have hfresh : AnswerPointers.Holds ⟨none, none, h⟩ [] ps := ⟨hh⟩
  obtain ⟨leaked, hx, hlength, hpg, hrd⟩ := hfresh.serveAll ds
  obtain ⟨h₁, hfree₁, hh₁⟩ := hx.owns.freePtr
  obtain ⟨h₂, hfree₂, hh₂⟩ := hh₁.freePtr
  refine ⟨leaked, h₂, ?_, hh₂, ?_⟩
  · simp only [readEventHeap, hfree₁, Option.bind_eq_bind, Option.bind_some, hfree₂]
  · simp only [Option.toList_none, List.length_nil] at hlength hpg hrd
    unfold unfreed
    omega

end Event

/-! ## The worker -/

/-- The request of an entry. -/
def Entry.delivery? : Entry → Option Delivery
  | .request _ d => some d
  | .sync => none

/-- The requests that one callback serves. -/
def servedBy (x x' : Shared) : List Delivery :=
  (x'.history.drop x.history.length).filterMap Entry.delivery?

/-- The requests that each callback serves. -/
def servedByEach (s : Server) : List ServerEvent → List (List Delivery)
  | [] => []
  | e :: events =>
      match serverRules.step s e with
      | none => []
      | some s' => servedBy s.shared s'.shared :: servedByEach s' events

/-- The worker and its heap. -/
structure ServerHeap where
  server : Server
  heap : Heap

/-- A callback, with the memory of the replies to what it serves. -/
def ServerHeap.step (w : ServerHeap) (e : ServerEvent) : Option ServerHeap := do
  let s ← serverRules.step w.server e
  let h ← readEventHeap (servedBy w.server.shared s.shared) w.heap
  some ⟨s, h⟩

/-- Callbacks in any order. -/
def ServerHeap.run (w : ServerHeap) (events : List ServerEvent) : Option ServerHeap :=
  Machine.runFrom ServerHeap.step w events

/-- The callbacks serve the requests of the history, in order. -/
theorem servedByEach_flatten {s s' : Server} {events : List ServerEvent}
    (hrun : Machine.runFrom serverRules.step s events = some s') :
    s'.shared.history.filterMap Entry.delivery? =
      s.shared.history.filterMap Entry.delivery? ++ (servedByEach s events).flatten := by
  induction events generalizing s with
  | nil =>
      cases hrun
      simp [servedByEach]
  | cons e events ih =>
      obtain ⟨s₁, hstep, hrest⟩ := Machine.runFrom_cons_eq_some.mp hrun
      have hone : Machine.runFrom serverRules.step s [e] = some s₁ :=
        Machine.runFrom_cons_eq_some.mpr ⟨s₁, hstep, rfl⟩
      obtain ⟨entries, hentries⟩ := history_prefix hone
      have hserved : servedBy s.shared s₁.shared = entries.filterMap Entry.delivery? := by
        rw [servedBy, ← hentries, List.drop_left]
      rw [ih hrest, servedByEach, hstep]
      simp only [hserved, ← hentries, List.filterMap_append, List.flatten_cons, List.append_assoc]

/-- The results and replies that a run of callbacks does not free. -/
theorem ServerHeap.run_owns {s s' : Server} {events : List ServerEvent}
    (hrun : Machine.runFrom serverRules.step s events = some s') {h : Heap} {ps : List Nat}
    (hh : h.Owns ps) :
    ∃ leaked h', ServerHeap.run ⟨s, h⟩ events = some ⟨s', h'⟩ ∧ h'.Owns (leaked ++ ps) ∧
      leaked.length = ((servedByEach s events).map unfreed).sum := by
  induction events generalizing s h ps with
  | nil =>
      cases hrun
      exact ⟨[], h, rfl, hh, rfl⟩
  | cons e events ih =>
      obtain ⟨s₁, hstep, hrest⟩ := Machine.runFrom_cons_eq_some.mp hrun
      obtain ⟨first, h₁, hevent, hh₁, hfirst⟩ :=
        readEventHeap_owns hh (servedBy s.shared s₁.shared)
      obtain ⟨leaked, h', hrun', hh', hleaked⟩ := ih hrest hh₁
      refine ⟨leaked ++ first, h', ?_, by rwa [List.append_assoc], ?_⟩
      · refine Machine.runFrom_cons_eq_some.mpr ⟨⟨s₁, h₁⟩, ?_, hrun'⟩
        simp only [ServerHeap.step, hstep, hevent, Option.bind_eq_bind, Option.bind_some]
      · rw [List.length_append, hleaked, hfirst, servedByEach, hstep]
        simp only [List.map_cons, List.sum_cons]
        omega

/-- Nothing of a read event stays allocated exactly if it serves one request at most. -/
theorem unfreed_eq_zero_iff (ds : List Delivery) : unfreed ds = 0 ↔ ds.length ≤ 1 := by
  have hle : ds.countP Delivery.allocates ≤ ds.length := List.countP_le_length
  unfold unfreed
  omega

/-- Over any interleaving of callbacks that the worker survives, of each read event all results but
the last one and all replies but the last one stay allocated, besides what was before; nothing is
freed twice. So none do if and only if no callback serves two requests. -/
theorem replies_leak_iff {r : DumpStatus} {db : Hstore} {events : List ServerEvent} {s : Server}
    (hrun : Server.run r db events = some s) {h : Heap} {ps : List Nat} (hh : h.Owns ps) :
    (servedByEach (Server.start r db) events).flatten =
        s.shared.history.filterMap Entry.delivery? ∧
      ∃ leaked h', ServerHeap.run ⟨Server.start r db, h⟩ events = some ⟨s, h'⟩ ∧
        h'.Owns (leaked ++ ps) ∧
        leaked.length = ((servedByEach (Server.start r db) events).map unfreed).sum ∧
        (leaked = [] ↔ ∀ ds ∈ servedByEach (Server.start r db) events, ds.length ≤ 1) := by
  obtain ⟨leaked, h', hrun', hh', hleaked⟩ := ServerHeap.run_owns hrun hh
  refine ⟨(servedByEach_flatten hrun).symm, leaked, h', hrun', hh', hleaked, ?_⟩
  rw [← List.length_eq_zero_iff, hleaked, List.sum_eq_zero_iff_forall_eq_nat]
  simp only [List.forall_mem_map, unfreed_eq_zero_iff]

/-- A SET and a GET of two clients, each in a read event of its own. -/
theorem replies_leak_iff_two :
    ∃ s h', ServerHeap.run ⟨Server.start .defferDump fun _ => none, []⟩ twoClients =
        some ⟨s, h'⟩ ∧ h'.Owns [] := by
  obtain ⟨s, hrun⟩ := Option.isSome_iff_exists.mp
    (by decide +kernel : (Server.run .defferDump (fun _ => none) twoClients).isSome)
  have hempty : Heap.Owns [] [] := ⟨List.nodup_nil, fun p => by simp [Heap.Live]⟩
  obtain ⟨-, leaked, h', hrun', hh', -, hnone⟩ := replies_leak_iff hrun hempty
  have hsingle : ∀ ds ∈ servedByEach (Server.start .defferDump fun _ => none) twoClients,
      ds.length ≤ 1 := by
    decide +kernel
  rw [hnone.mpr hsingle] at hh'
  exact ⟨s, h', hrun', hh'⟩

end PgRedisProxy
