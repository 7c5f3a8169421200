import PgRedisProxy.Base.Heap
import PgRedisProxy.Store.LogNodes

/-!
# The memory of the log

`LogHeap` is the log with the objects it has allocated: `struct logger`, and one for each
node. `clear_log` keeps the nodes for the next batch, so that the log has as many of them as
the longest batch so far had operations. `log_reuses_nodes` is the main result: this is so
after any calls, and `free_log` then frees each object of the log once, and nothing else.
-/

namespace PgRedisProxy

open CLang

/-- The log, the object of `logger_op`, and the object of each node. -/
structure LogHeap where
  memory : LogMemory
  heap : Heap
  logger : Nat
  objects : List Nat

/-- The most operations that a log with `n` operations holds at once during some calls. -/
def longestBatch (n : Nat) : List LogMemory.Call → Nat
  | [] => n
  | .add _ fails :: calls =>
      max (n + 1) (longestBatch (if n + 1 = maxCountOperation ∧ fails = false then 0 else n + 1)
        calls)
  | .clear :: calls => max n (longestBatch 0 calls)

namespace LogHeap

/-- `init_logger` -/
def initLogger (h : Heap) : LogHeap :=
  ⟨.init, h.malloc.2, h.malloc.1, []⟩

/-- `add_log`, which allocates an object for a node that it creates. -/
def addLog (fails : Bool) (x : LogHeap) (e : LogEntry) : Option (Int × LogHeap) := do
  let (rc, m) ← x.memory.addLog fails e
  if x.memory.nodes.length < m.nodes.length then
    some (rc, { x with
      memory := m
      heap := x.heap.malloc.2
      objects := x.objects ++ [x.heap.malloc.1] })
  else some (rc, { x with memory := m })

/-- A sequence of calls. -/
def run (x : LogHeap) : List LogMemory.Call → Option LogHeap
  | [] => some x
  | .add e fails :: calls => do
      let (_, x) ← x.addLog fails e
      x.run calls
  | .clear :: calls => run { x with memory := x.memory.clearLog } calls

/-- The loop of `free_log` from the node `cur_free` on, which reads `next_op` before it frees the
node. The first argument bounds its turns. -/
def freeFrom (x : LogHeap) : Nat → Option Nat → Heap → Option Heap
  | _, none, h => some h
  | 0, some _, _ => none
  | turns + 1, some curFree, h => do
      let node ← x.memory.nodes[curFree]?
      let object ← x.objects[curFree]?
      h.use object
      let h ← h.free object
      x.freeFrom turns node.nextOp h

/-- `free_log` -/
def freeLog (turns : Nat) (x : LogHeap) : Option Heap := do
  x.heap.use x.logger
  let h ← x.freeFrom turns x.memory.firstOp x.heap
  h.free x.logger

end LogHeap

/-! ## How many nodes there are -/

section Nodes

variable {m m' : LogMemory} {es : List LogEntry}

/-- `add_log` creates a node exactly if all of them hold operations. -/
theorem LogMemory.Tracks.length_findNode (hm : m.Tracks es) (hfind : m.findNode = some m') :
    m'.nodes.length = max m.nodes.length (es.length + 1) := by
  obtain ⟨hlinked, hcount, hle⟩ := hm.linked
  have hcur := hm.cur_eq
  rw [hlinked.pointerAt_eq, hcount] at hcur
  rw [hcount] at hle
  unfold LogMemory.findNode at hfind
  by_cases hlt : es.length - 1 < m.nodes.length
  · rw [if_pos hlt] at hcur
    have hnode : m.nodes[es.length - 1]? = some m.nodes[es.length - 1] :=
      List.getElem?_eq_getElem hlt
    have hnext := hlinked.next_eq _ _ hnode
    simp only [hcur, hnode, Option.bind_eq_bind, Option.bind_some] at hfind
    have hsum : m.sumSizeOperation = 0 ↔ es.length = 0 := by
      rw [hm.sum_eq_zero_iff, hcount]
    split at hfind
    · rename_i hnew
      cases hfind
      rw [hnext] at hnew
      have hlast : ¬ es.length - 1 + 1 < m.nodes.length := by
        intro hmore
        simp [hmore] at hnew
      have hpos : es.length ≠ 0 := fun hzero => hnew.2 (hsum.mpr hzero)
      simp only [List.length_append, List.length_set, List.length_singleton]
      omega
    · rename_i hold
      split at hfind
      · rename_i hsome
        cases hfind
        have hmore : es.length - 1 + 1 < m.nodes.length := by
          by_contra hlast
          exact hold ⟨by rw [hnext, if_neg hlast], hsome⟩
        show m.nodes.length = _
        omega
      · rename_i hnone
        cases hfind
        have hzero := hsum.mp (not_not.mp hnone)
        omega
  · -- no node was ever created
    rw [if_neg hlt] at hcur
    simp only [hcur] at hfind
    cases hfind
    simp only [List.length_append, List.length_singleton]
    omega

/-- What follows in `add_log` keeps the nodes. -/
theorem LogMemory.Tracks.length_addLog (hm : m.Tracks es) {e : LogEntry} {fails : Bool} {rc : Int}
    (hadd : m.addLog fails e = some (rc, m')) :
    m'.nodes.length = max m.nodes.length (es.length + 1) := by
  simp only [LogMemory.addLog, Option.bind_eq_bind, Option.bind_eq_some_iff] at hadd
  obtain ⟨m₁, hfind, m₂, hwrite, hadd⟩ := hadd
  have hwritten : m₂.nodes.length = m₁.nodes.length := by
    simp only [LogMemory.writeNode, Option.bind_eq_bind, Option.bind_eq_some_iff] at hwrite
    obtain ⟨cur, -, node, -, hwrite⟩ := hwrite
    split at hwrite
    · cases hwrite
      simp
    · cases hwrite
  have hsynced : m'.nodes = m₂.nodes := by
    split at hadd
    · unfold LogMemory.syncWithDb at hadd
      split at hadd
      · cases hadd
        rfl
      · simp only [Option.bind_eq_bind, Option.bind_eq_some_iff] at hadd
        obtain ⟨ops, -, hadd⟩ := hadd
        split at hadd
        · cases hadd
          rfl
        · cases hadd
          rfl
    · cases hadd
      rfl
  rw [hsynced, hwritten, hm.length_findNode hfind]

end Nodes

/-! ## The objects -/

namespace LogHeap

/-- Each node has an object, and the objects of the log are live besides these. -/
structure Owned (x : LogHeap) (ps : List Nat) : Prop where
  length_eq : x.objects.length = x.memory.nodes.length
  owns : x.heap.Owns (x.logger :: (x.objects ++ ps))

variable {h : Heap} {ps : List Nat} {x : LogHeap} {es : List LogEntry}

theorem initLogger_owned (hh : h.Owns ps) : (initLogger h).Owned ps :=
  ⟨rfl, hh.malloc⟩

/-- A call of `add_log` has as many nodes as the batch needs. -/
theorem Owned.addLog (hx : x.Owned ps) (hm : x.memory.Tracks es) {e : LogEntry} (he : e.Fits)
    (fails : Bool) :
    ∃ rc x', x.addLog fails e = some (rc, x') ∧ x'.Owned ps ∧
      x'.memory.Tracks (LogMemory.flushed (es ++ [e]) fails) ∧
      x'.objects.length = max x.objects.length (es.length + 1) := by
  obtain ⟨rc, m', hadd, hm'⟩ := hm.addLog he fails
  have hlength := hm.length_addLog hadd
  rw [← hx.length_eq] at hlength
  unfold LogHeap.addLog
  simp only [hadd, Option.bind_eq_bind, Option.bind_some, ← hx.length_eq]
  by_cases hlt : x.objects.length < m'.nodes.length
  · have hle := hm.linked.2.2
    rw [hm.linked.2.1, ← hx.length_eq] at hle
    have hone : m'.nodes.length = x.objects.length + 1 := by omega
    rw [if_pos hlt]
    refine ⟨rc, _, rfl, ⟨by simp [hone], ?_⟩, hm', by simp; omega⟩
    refine hx.owns.malloc.perm ?_
    rw [List.append_assoc]
    exact ((List.perm_middle.cons x.logger).trans (List.Perm.swap _ _ _)).symm
  · rw [if_neg hlt]
    refine ⟨rc, _, rfl, ⟨?_, hx.owns⟩, hm', ?_⟩
    · show x.objects.length = m'.nodes.length
      omega
    · show x.objects.length = _
      omega

/-- After some calls there are as many nodes as the longest batch has needed. -/
theorem Owned.run (hx : x.Owned ps) (hm : x.memory.Tracks es) {calls : List LogMemory.Call}
    (hcalls : ∀ call ∈ calls, call.Fits) :
    ∃ x', x.run calls = some x' ∧ x'.Owned ps ∧ x'.memory.Tracks (logged es calls) ∧
      x'.objects.length = max x.objects.length (longestBatch es.length calls) := by
  induction calls generalizing x es with
  | nil =>
      have hle := hm.linked.2.2
      rw [hm.linked.2.1, ← hx.length_eq] at hle
      exact ⟨x, rfl, hx, hm, by simp only [longestBatch]; omega⟩
  | cons call calls ih =>
      have hrest := fun call' hcall' => hcalls call' (List.mem_cons_of_mem call hcall')
      cases call with
      | add e fails =>
          obtain ⟨rc, x₁, hadd, hx₁, hm₁, hlength₁⟩ :=
            hx.addLog hm (hcalls _ List.mem_cons_self) fails
          obtain ⟨x', hrun, hx', hm', hlength⟩ := ih hx₁ hm₁ hrest
          refine ⟨x', ?_, hx', ?_, ?_⟩
          · simp only [LogHeap.run, hadd, Option.bind_eq_bind, Option.bind_some, hrun]
          · simpa [logged, LogMemory.flushed] using hm'
          · have hflushed : (LogMemory.flushed (es ++ [e]) fails).length =
                if es.length + 1 = maxCountOperation ∧ fails = false then 0
                else es.length + 1 := by
              unfold LogMemory.flushed
              rw [List.length_append, List.length_singleton]
              split <;> simp
            rw [hlength, hlength₁, hflushed, longestBatch, Nat.max_assoc]
      | clear =>
          have hle := hm.linked.2.2
          rw [hm.linked.2.1, ← hx.length_eq] at hle
          obtain ⟨x', hrun, hx', hm', hlength⟩ :=
            ih (x := { x with memory := x.memory.clearLog }) ⟨hx.length_eq, hx.owns⟩ hm.clearLog
              hrest
          refine ⟨x', hrun, hx', hm', hlength.trans ?_⟩
          simp only [longestBatch, List.length_nil]
          omega

/-- From the node `a` on, the loop of `free_log` frees the nodes that are left, once each. -/
theorem Owned.freeFrom (hx : x.Owned ps) (hlinked : x.memory.Linked) {turns a : Nat} {qs : List Nat}
    (hh : h.Owns (x.objects.drop a ++ qs)) (ha : a ≤ x.objects.length)
    (hturns : x.objects.length ≤ a + turns) :
    ∃ h', x.freeFrom turns (if a < x.objects.length then some a else none) h = some h' ∧
      h'.Owns qs := by
  induction turns generalizing a h with
  | zero =>
      have hend : a = x.objects.length := by omega
      rw [hend, List.drop_length, List.nil_append] at hh
      exact ⟨h, by simp [LogHeap.freeFrom, hend], hh⟩
  | succ turns ih =>
      by_cases hlt : a < x.objects.length
      · obtain ⟨node, hnode⟩ : ∃ node, x.memory.nodes[a]? = some node :=
          ⟨_, List.getElem?_eq_getElem (hx.length_eq ▸ hlt)⟩
        have hnext := hlinked.next_eq a _ hnode
        rw [← hx.length_eq] at hnext
        rw [List.drop_eq_getElem_cons hlt, List.cons_append] at hh
        obtain ⟨hfree, hrest⟩ := hh.free
        obtain ⟨h', hloop, hh'⟩ := ih hrest hlt (by omega)
        refine ⟨h', ?_, hh'⟩
        rw [if_pos hlt]
        simp only [LogHeap.freeFrom, hnode, List.getElem?_eq_getElem hlt, hnext, hfree,
          hh.use_eq List.mem_cons_self, Option.bind_eq_bind, Option.bind_some, hloop]
      · have hend : a = x.objects.length := by omega
        rw [hend, List.drop_length, List.nil_append] at hh
        exact ⟨h, by simp [LogHeap.freeFrom, hend], hh⟩

/-- `free_log` frees the objects of the log and nothing else. -/
theorem Owned.freeLog (hx : x.Owned ps) (hlinked : x.memory.Linked) {turns : Nat}
    (hturns : x.objects.length ≤ turns) :
    ∃ h', x.freeLog turns = some h' ∧ h'.Owns ps := by
  have hfirst : x.memory.firstOp = if 0 < x.objects.length then some 0 else none := by
    rw [hlinked.first_eq, hx.length_eq]
    by_cases hnil : x.memory.nodes = []
    · simp [hnil]
    · rw [if_neg hnil, if_pos (List.length_pos_of_ne_nil hnil)]
  have howns : x.heap.Owns (x.objects.drop 0 ++ x.logger :: ps) :=
    hx.owns.perm List.perm_middle.symm
  have hbound : x.objects.length ≤ 0 + turns := by omega
  obtain ⟨h₁, hloop, hh₁⟩ := hx.freeFrom hlinked howns (Nat.zero_le _) hbound
  obtain ⟨hfree, hh⟩ := hh₁.free
  refine ⟨_, ?_, hh⟩
  simp only [LogHeap.freeLog, hx.owns.use_eq List.mem_cons_self, hfirst, hloop, hfree,
    Option.bind_eq_bind, Option.bind_some]

end LogHeap

/-- Where every forced synchronization succeeds, no batch gets longer than a full log. -/
theorem longestBatch_le {n : Nat} (hn : n < maxCountOperation) {calls : List LogMemory.Call}
    (hcalls : ∀ call ∈ calls, call.Succeeds) : longestBatch n calls ≤ maxCountOperation := by
  induction calls generalizing n with
  | nil => exact Nat.le_of_lt hn
  | cons call calls ih =>
      have hrest := fun call' hcall' => hcalls call' (List.mem_cons_of_mem call hcall')
      have hpos : 0 < maxCountOperation := by decide
      cases call with
      | add e fails =>
          have hfails : fails = false := hcalls _ List.mem_cons_self
          refine Nat.max_le.mpr ⟨hn, ih ?_ hrest⟩
          split
          · exact hpos
          · rename_i hfull
            exact Nat.lt_of_le_of_ne hn fun heq => hfull ⟨heq, hfails⟩
      | clear => exact Nat.max_le.mpr ⟨Nat.le_of_lt hn, ih hpos hrest⟩

/-- After any calls of `add_log` and `clear_log` whose keys and values fit a node, the log has
allocated as many nodes as its longest batch so far had operations, at most `MAX_COUNT_OPERATION` if
the forced synchronizations succeed. All of them are live besides what was live before, and
`free_log` ends, reads no freed node, and leaves exactly what was live before. -/
theorem log_reuses_nodes {calls : List LogMemory.Call} (hfits : ∀ call ∈ calls, call.Fits)
    {h : Heap} {ps : List Nat} (hh : h.Owns ps) :
    ∃ x, (LogHeap.initLogger h).run calls = some x ∧
      x.objects.length = longestBatch 0 calls ∧
      ((∀ call ∈ calls, call.Succeeds) → x.objects.length ≤ maxCountOperation) ∧
      x.heap.Owns (x.logger :: (x.objects ++ ps)) ∧
      ∀ turns, x.objects.length ≤ turns → ∃ h', x.freeLog turns = some h' ∧ h'.Owns ps := by
  have hinit : (LogHeap.initLogger h).memory.Tracks [] :=
    ⟨.init, LogMemory.init_represents, Logger.init_logs⟩
  obtain ⟨x, hrun, hx, hm, hlength⟩ := (LogHeap.initLogger_owned hh).run hinit hfits
  have hlongest : x.objects.length = longestBatch 0 calls := by
    rw [hlength]
    exact Nat.max_eq_right (Nat.zero_le _)
  refine ⟨x, hrun, hlongest, fun hsyncs => ?_, hx.owns, fun turns => hx.freeLog hm.linked.1⟩
  rw [hlongest]
  exact longestBatch_le (by decide) hsyncs

/-- A batch of two operations, and one of one that uses the first node again. -/
theorem log_reuses_nodes_two :
    let calls : List LogMemory.Call :=
      [.add ⟨.set, ⟨ascii "key", by decide⟩, some ⟨ascii "value", by decide⟩⟩ false,
        .add ⟨.del, ⟨ascii "k", by decide⟩, none⟩ false, .clear,
        .add ⟨.del, ⟨ascii "k", by decide⟩, none⟩ false]
    ∃ x h', (LogHeap.initLogger [true]).run calls = some x ∧ x.objects.length = 2 ∧
      x.freeLog 2 = some h' ∧ h'.Owns [0] := by
  intro calls
  have hfits : ∀ call ∈ calls, call.Fits := by decide
  have howns : Heap.Owns [true] [0] := ⟨by simp, fun p => by cases p <;> simp [Heap.Live]⟩
  obtain ⟨x, hrun, hlength, -, -, hfree⟩ := log_reuses_nodes hfits howns
  have htwo : longestBatch 0 calls = 2 := by decide
  rw [htwo] at hlength
  obtain ⟨h', hfreed, hh'⟩ := hfree 2 hlength.le
  exact ⟨x, h', hrun, hlength, hfreed, hh'⟩

end PgRedisProxy
