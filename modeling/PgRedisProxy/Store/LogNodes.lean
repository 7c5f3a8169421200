import Mathlib.Algebra.GroupWithZero.Nat
import Mathlib.Data.List.Forall2
import PgRedisProxy.Store.Logger

/-!
# The log as a linked list

`LogMemory` has the nodes of the log by their address, with the pointers `next_op`,
`cur_op`, and `first_op`. `addLog` and `clearLog` follow the branches of the source,
and `Represents` relates the list to the `Logger` it stands for. `logged` is what a
sequence of calls leaves in the log; `log_is_fifo` is the main result: a walk of
`count_operation` nodes from `first_op` meets exactly these operations, in order.
-/

namespace PgRedisProxy

open CLang

/-! ## Entries -/

/-- The arguments of a call of `add_log`. -/
structure LogEntry where
  opName : OperationName
  key : CString
  value : Option CString

namespace LogEntry

/-- The key and the value fit the arrays of a node, with their terminators. -/
def Fits (e : LogEntry) : Prop :=
  e.key.strlen < keySize ∧ ∀ v ∈ e.value, v.strlen < valueSize

instance (e : LogEntry) : Decidable e.Fits :=
  inferInstanceAs (Decidable (_ ∧ ∀ v ∈ e.value, _))

/-- `value_size`, which is zero without a value. -/
def valueLength (e : LogEntry) : Nat :=
  (e.value.map CString.strlen).getD 0

/-- What an operation adds to `sum_size_operation`. -/
def size (e : LogEntry) : Nat :=
  e.key.strlen + e.valueLength + curTableName.strlen +
    match e.opName with
    | .set => updateReqvSize
    | .del => deleteReqvSize

end LogEntry

/-- A node that holds an operation: its name, key, and sizes, and the value if there is one. -/
structure Operation.Holds (o : Operation) (e : LogEntry) : Prop where
  opName_eq : o.opName = e.opName
  key_eq : o.key.str = e.key
  keySize_eq : o.keySize = e.key.strlen
  value_eq : ∀ v ∈ e.value, o.value.str = v
  valueSize_eq : o.valueSize = e.valueLength

/-- A filled node holds the operation, whatever was in it before. -/
theorem holds_fill (o : Operation) {e : LogEntry} (he : e.Fits) :
    (o.fill e.opName e.key e.value).Holds e := by
  obtain ⟨opName, key, value⟩ := e
  obtain ⟨hkey, hvalue⟩ := he
  cases value with
  | none =>
      refine ⟨rfl, ?_, rfl, by simp, rfl⟩
      simp [Operation.fill, hkey]
  | some value =>
      have hvalue' : value.strlen < valueSize := hvalue value rfl
      refine ⟨rfl, ?_, rfl, ?_, rfl⟩
      · simp [Operation.fill, hkey]
      · intro v hv
        cases hv
        simp [Operation.fill, hvalue']

/-- The log holds these operations, first to last, and the counters count them. -/
structure Logger.Logs (lg : Logger) (es : List LogEntry) : Prop where
  inv : lg.Inv
  count_eq : lg.countOperation = es.length
  sum_eq : lg.sumSizeOperation = (es.map LogEntry.size).sum
  holds : List.Forall₂ Operation.Holds (lg.nodes.take lg.countOperation) es

namespace Logger

theorem init_logs : init.Logs [] :=
  ⟨init_inv, rfl, rfl, .nil⟩

theorem clear_logs (lg : Logger) : lg.clear.Logs [] where
  inv := lg.clear_inv
  count_eq := rfl
  sum_eq := rfl
  holds := by simp [clear]

/-- Clearing keeps the nodes. -/
theorem nodes_clear (lg : Logger) : lg.clear.nodes = lg.nodes := by
  unfold nodes clear
  cases lg.chain with
  | none => rfl
  | some c =>
      obtain ⟨before, cur, next⟩ := c
      cases before with
      | nil => rfl
      | cons first rest => simp [Chain.nodes]

/-- `add_log` appends its operation, whatever name it has. -/
theorem record_logs {lg : Logger} {es : List LogEntry} (hlg : lg.Logs es) {e : LogEntry}
    (he : e.Fits) :
    (lg.record lg.target e.opName e.key e.value).Logs (es ++ [e]) := by
  obtain ⟨hlen, hnodes⟩ := target_spec hlg.inv
  refine ⟨record_inv hlen _, ?_, ?_, ?_⟩
  · simp [record, hlg.count_eq]
  · have hkey := (holds_fill lg.target.cur he).keySize_eq
    have hvalue := (holds_fill lg.target.cur he).valueSize_eq
    simp only [record, hlg.sum_eq, hkey, hvalue, List.map_append, List.map_cons, List.map_nil,
      List.sum_append, List.sum_cons, List.sum_nil, LogEntry.size]
    cases e.opName with
    | set =>
        simp only
        omega
    | del =>
        simp only
        omega
  · rw [take_nodes_record hlen hnodes]
    exact List.rel_append hlg.holds (.cons (holds_fill _ he) .nil)

end Logger

/-! ## The list in memory -/

/-- A node of the list: the operation, and `next_op`. -/
structure LogNode where
  op : Operation
  nextOp : Option Nat

/-- The nodes that were allocated, by their address, and `struct logger`. -/
structure LogMemory where
  nodes : List LogNode
  curOp : Option Nat
  firstOp : Option Nat
  sumSizeOperation : Nat
  countOperation : Nat

namespace LogMemory

/-- `init_logger` -/
def init : LogMemory :=
  ⟨[], none, none, 0, 0⟩

/-- The pointer that `n` steps along `next_op` lead to from `first_op`. -/
def pointerAt (m : LogMemory) : Nat → Option Nat
  | 0 => m.firstOp
  | n + 1 => do
      let a ← m.pointerAt n
      let node ← m.nodes[a]?
      node.nextOp

/-- The operations in `n` nodes from `p` on, unless `NULL` is met before. -/
def walk (m : LogMemory) (p : Option Nat) : Nat → Option (List Operation)
  | 0 => some []
  | n + 1 => do
      let a ← p
      let node ← m.nodes[a]?
      let rest ← m.walk node.nextOp n
      some (node.op :: rest)

/-- The traversal of `sync_with_db`. -/
def traverse (m : LogMemory) : Option (List Operation) :=
  m.walk m.firstOp m.countOperation

/-- The branches at the beginning of `add_log`: create the first node, create the next one, move on
to the next one, or stay. -/
def findNode (m : LogMemory) : Option LogMemory :=
  match m.curOp with
  | none =>
      some { m with
        nodes := m.nodes ++ [⟨.uninit, none⟩]
        curOp := some m.nodes.length
        firstOp := if m.firstOp = none then some m.nodes.length else m.firstOp }
  | some cur => do
      let node ← m.nodes[cur]?
      if node.nextOp = none ∧ m.sumSizeOperation ≠ 0 then
        some { m with
          nodes := m.nodes.set cur { node with nextOp := some m.nodes.length } ++ [⟨.uninit, none⟩]
          curOp := some m.nodes.length }
      else if m.sumSizeOperation ≠ 0 then some { m with curOp := node.nextOp }
      else some m

/-- The rest of `add_log` before the test of `MAX_COUNT_OPERATION`. The key and the value must fit
the arrays they are copied to. -/
def writeNode (m : LogMemory) (e : LogEntry) : Option LogMemory := do
  let cur ← m.curOp
  let node ← m.nodes[cur]?
  if e.Fits then
    let op := node.op.fill e.opName e.key e.value
    some { m with
      nodes := m.nodes.set cur { node with op := op }
      sumSizeOperation := m.sumSizeOperation + (op.keySize + op.valueSize) + curTableName.strlen +
        match e.opName with
        | .set => updateReqvSize
        | .del => deleteReqvSize
      countOperation := m.countOperation + 1 }
  else none

/-- `clear_log` -/
def clearLog (m : LogMemory) : LogMemory :=
  { m with sumSizeOperation := 0, countOperation := 0, curOp := m.firstOp }

/-- `sync_with_db`, as far as it is about the list; `fails` says whether the transaction fails. -/
def syncWithDb (fails : Bool) (m : LogMemory) : Option (Int × LogMemory) :=
  if m.firstOp = none ∨ m.sumSizeOperation = 0 then some (0, m)
  else do
    let _ ← m.traverse
    if fails then some (-1, m) else some (0, m.clearLog)

/-- `add_log`, where a forced synchronization may fail. -/
def addLog (fails : Bool) (m : LogMemory) (e : LogEntry) : Option (Int × LogMemory) := do
  let m ← m.findNode
  let m ← m.writeNode e
  if m.countOperation = maxCountOperation then m.syncWithDb fails else some (0, m)

/-- A call of `add_log`, with the outcome of the synchronization it may force, or of `clear_log`. -/
inductive Call where
  | add (e : LogEntry) (fails : Bool)
  | clear

/-- A sequence of calls. -/
def run (m : LogMemory) : List Call → Option LogMemory
  | [] => some m
  | .add e fails :: calls => do
      let (_, m) ← m.addLog fails e
      m.run calls
  | .clear :: calls => m.clearLog.run calls

end LogMemory

/-- What a sequence of calls leaves in a log with the operations `es`: those added since it was last
cleared, where a synchronization that succeeds clears it. -/
def logged (es : List LogEntry) : List LogMemory.Call → List LogEntry
  | [] => es
  | .add e fails :: calls =>
      logged (if es.length + 1 = maxCountOperation ∧ fails = false then [] else es ++ [e]) calls
  | .clear :: calls => logged [] calls

/-! ## What the list stands for -/

namespace LogMemory

/-- The nodes lie one after the other, each with a pointer to the next one. -/
structure Linked (m : LogMemory) : Prop where
  first_eq : m.firstOp = if m.nodes = [] then none else some 0
  next_eq : ∀ a node, m.nodes[a]? = some node →
    node.nextOp = if a + 1 < m.nodes.length then some (a + 1) else none

/-- The list holds the nodes of a chain, and `cur_op` points to the current one. -/
structure At (m : LogMemory) (c : Chain) : Prop where
  linked : m.Linked
  ops_eq : m.nodes.map LogNode.op = c.nodes
  cur_eq : m.curOp = some c.before.length

/-- The list and its counters are those of a log. -/
structure Represents (m : LogMemory) (lg : Logger) : Prop where
  linked : m.Linked
  ops_eq : m.nodes.map LogNode.op = lg.nodes
  cur_eq : m.curOp = lg.chain.map fun c => c.before.length
  sum_eq : m.sumSizeOperation = lg.sumSizeOperation
  count_eq : m.countOperation = lg.countOperation

theorem init_represents : init.Represents .init where
  linked := ⟨rfl, by simp [init]⟩
  ops_eq := rfl
  cur_eq := rfl
  sum_eq := rfl
  count_eq := rfl

section Linked

variable {m : LogMemory} (hm : m.Linked)
include hm

/-- The nodes are met in the order of their addresses. -/
theorem Linked.pointerAt_eq (n : Nat) :
    m.pointerAt n = if n < m.nodes.length then some n else none := by
  induction n with
  | zero =>
      rw [pointerAt, hm.first_eq]
      by_cases hnil : m.nodes = []
      · simp [hnil]
      · rw [if_neg hnil, if_pos (List.length_pos_of_ne_nil hnil)]
  | succ n ih =>
      rw [pointerAt, ih]
      by_cases hn : n < m.nodes.length
      · have hnode : m.nodes[n]? = some m.nodes[n] := List.getElem?_eq_getElem hn
        rw [if_pos hn]
        simp only [Option.bind_eq_bind, Option.bind_some, hnode]
        exact hm.next_eq n _ hnode
      · rw [if_neg hn, if_neg (by omega)]
        rfl

/-- A walk meets the operations from its beginning on, as long as there are nodes. -/
theorem Linked.walk_eq (n a : Nat) (hle : a + n ≤ m.nodes.length) :
    m.walk (if a < m.nodes.length then some a else none) n =
      some (((m.nodes.map LogNode.op).drop a).take n) := by
  induction n generalizing a with
  | zero => simp [walk]
  | succ n ih =>
      have ha : a < m.nodes.length := by omega
      have hnode : m.nodes[a]? = some m.nodes[a] := List.getElem?_eq_getElem ha
      have hdrop : (m.nodes.map LogNode.op).drop a =
          m.nodes[a].op :: (m.nodes.map LogNode.op).drop (a + 1) := by
        rw [List.drop_eq_getElem_cons (by simpa using ha), List.getElem_map]
      rw [if_pos ha, walk]
      simp only [Option.bind_eq_bind, Option.bind_some, hnode]
      rw [hm.next_eq a _ hnode, ih (a + 1) (by omega), hdrop, List.take_succ_cons]
      rfl

/-- The traversal meets the first `count_operation` operations. -/
theorem Linked.traverse_eq (hcount : m.countOperation ≤ m.nodes.length) :
    m.traverse = some ((m.nodes.map LogNode.op).take m.countOperation) := by
  have hwalk := hm.walk_eq m.countOperation 0 (by omega)
  rw [List.drop_zero] at hwalk
  rw [traverse, ← hwalk, hm.first_eq]
  by_cases hnil : m.nodes = []
  · simp [hnil]
  · rw [if_neg hnil, if_pos (List.length_pos_of_ne_nil hnil)]

/-- Changing an operation keeps the pointers. -/
theorem Linked.set_op {a : Nat} {node : LogNode} (hnode : m.nodes[a]? = some node) (op : Operation)
    (sum count : Nat) :
    Linked { m with
      nodes := m.nodes.set a { node with op := op }
      sumSizeOperation := sum
      countOperation := count } where
  first_eq := by simpa using hm.first_eq
  next_eq := by
    intro b node' hnode'
    rw [List.length_set]
    by_cases hab : a = b
    · subst hab
      rw [List.getElem?_set_self (List.getElem?_eq_some_iff.mp hnode).1] at hnode'
      cases hnode'
      exact hm.next_eq a node hnode
    · rw [List.getElem?_set_ne hab] at hnode'
      exact hm.next_eq b node' hnode'

/-- A new node behind the last one. -/
theorem Linked.link_last {a : Nat} {node : LogNode} (hnode : m.nodes[a]? = some node)
    (hlast : a + 1 = m.nodes.length) (op : Operation) (cur : Option Nat) :
    Linked { m with
      nodes := m.nodes.set a { node with nextOp := some m.nodes.length } ++ [⟨op, none⟩]
      curOp := cur } where
  first_eq := by
    have hne : m.nodes ≠ [] := by
      intro hnil
      simp [hnil] at hnode
    have hfirst := hm.first_eq
    rw [if_neg hne] at hfirst
    simpa using hfirst
  next_eq := by
    intro b node' hnode'
    simp only [List.length_append, List.length_set, List.length_singleton]
    by_cases hb : b < m.nodes.length
    · rw [List.getElem?_append_left (by simpa using hb)] at hnode'
      by_cases hab : a = b
      · subst hab
        rw [List.getElem?_set_self hb] at hnode'
        cases hnode'
        rw [if_pos (by omega), hlast]
      · rw [List.getElem?_set_ne hab] at hnode'
        rw [hm.next_eq b node' hnode', if_pos (by omega), if_pos (by omega)]
    · rw [List.getElem?_append_right (by simpa using hb), List.length_set] at hnode'
      have hzero : b - m.nodes.length = 0 := by
        by_contra hpos
        rw [List.getElem?_eq_none (by simp; omega)] at hnode'
        cases hnode'
      rw [hzero] at hnode'
      cases hnode'
      rw [if_neg (by omega)]

end Linked

/-! ## The calls -/

section Calls

variable {m : LogMemory} {lg : Logger}

/-- The current node. -/
theorem At.current {c : Chain} (hm : m.At c) :
    ∃ node, m.nodes[c.before.length]? = some node ∧ node.op = c.cur ∧
      c.before.length + 1 + c.next.length = m.nodes.length := by
  have hlength : m.nodes.length = c.nodes.length := by
    rw [← hm.ops_eq, List.length_map]
  rw [Chain.nodes, List.length_append, List.length_cons] at hlength
  have hlt : c.before.length < m.nodes.length := by omega
  refine ⟨m.nodes[c.before.length], List.getElem?_eq_getElem hlt, ?_, by omega⟩
  have hop : (m.nodes.map LogNode.op)[c.before.length]? = some c.cur := by
    rw [hm.ops_eq, Chain.nodes]
    simp
  rw [List.getElem?_map, List.getElem?_eq_getElem hlt] at hop
  exact Option.some.inj hop

theorem Represents.at {c : Chain} (hm : m.Represents lg) (hc : lg.chain = some c) : m.At c where
  linked := hm.linked
  ops_eq := by simp [hm.ops_eq, Logger.nodes, hc]
  cur_eq := by simp [hm.cur_eq, hc]

/-- `add_log` finds the node after the logged ones, or creates it. -/
theorem findNode_at (hm : m.Represents lg) :
    ∃ m', m.findNode = some m' ∧ m'.At lg.target ∧
      m'.sumSizeOperation = m.sumSizeOperation ∧ m'.countOperation = m.countOperation := by
  cases hchain : lg.chain with
  | none =>
      -- no node was ever created
      have hnil : m.nodes = [] := by
        have hops := hm.ops_eq
        simpa [Logger.nodes, hchain] using hops
      have hcur : m.curOp = none := by simp [hm.cur_eq, hchain]
      have hfirst : m.firstOp = none := by simp [hm.linked.first_eq, hnil]
      have htarget : lg.target = ⟨[], .uninit, []⟩ := by simp [Logger.target, hchain]
      refine ⟨⟨[⟨.uninit, none⟩], some 0, some 0, m.sumSizeOperation, m.countOperation⟩,
        by simp [findNode, hcur, hfirst, hnil], ⟨⟨rfl, ?_⟩, ?_, ?_⟩, rfl, rfl⟩
      · intro b node hnode
        cases b with
        | zero =>
            cases hnode
            rfl
        | succ b => cases hnode
      · rw [htarget]
        rfl
      · rw [htarget]
        rfl
  | some c =>
      have hat := hm.at hchain
      obtain ⟨node, hnode, hop, hlength⟩ := hat.current
      have hnext := hm.linked.next_eq _ node hnode
      by_cases hsum : m.sumSizeOperation = 0
      · -- the first operation of a batch is written where the log stands
        have hsum' : lg.sumSizeOperation = 0 := hm.sum_eq.symm.trans hsum
        have htarget : lg.target = c := by simp [Logger.target, hchain, hsum']
        exact ⟨m, by simp [findNode, hat.cur_eq, hnode, hsum], htarget ▸ hat, rfl, rfl⟩
      · have hsum' : lg.sumSizeOperation ≠ 0 := fun h => hsum (hm.sum_eq.trans h)
        cases hrest : c.next with
        | nil =>
            -- the batch is longer than all before it, and gets a new node
            have htarget : lg.target = ⟨c.before ++ [c.cur], .uninit, []⟩ := by
              simp [Logger.target, hchain, hsum', hrest]
            rw [hrest, List.length_nil] at hlength
            rw [if_neg (by omega)] at hnext
            refine ⟨_, by simp [findNode, hat.cur_eq, hnode, hnext, hsum],
              ⟨hm.linked.link_last hnode (by omega) .uninit (some m.nodes.length), ?_, ?_⟩,
              rfl, rfl⟩
            · have hops := hat.ops_eq
              rw [Chain.nodes, hrest] at hops
              rw [htarget]
              show ((m.nodes.set c.before.length _ ++ _).map LogNode.op) = _
              rw [List.map_append, List.map_set, hops, hop]
              simp [Chain.nodes]
            · rw [htarget]
              show some m.nodes.length = _
              rw [List.length_append, List.length_singleton, ← hlength]
        | cons node' rest =>
            -- a node of an earlier batch is used again
            have htarget : lg.target = ⟨c.before ++ [c.cur], node', rest⟩ := by
              simp [Logger.target, hchain, hsum', hrest]
            rw [hrest, List.length_cons] at hlength
            rw [if_pos (by omega)] at hnext
            refine ⟨{ m with curOp := some (c.before.length + 1) },
              by simp [findNode, hat.cur_eq, hnode, hnext, hsum],
              ⟨⟨hm.linked.first_eq, hm.linked.next_eq⟩, ?_, ?_⟩, rfl, rfl⟩
            · rw [htarget]
              show m.nodes.map LogNode.op = _
              rw [hat.ops_eq, Chain.nodes, hrest]
              simp [Chain.nodes]
            · rw [htarget]
              simp

/-- The operation is written to the current node. -/
theorem writeNode_represents {c : Chain} (hm : m.At c)
    (hsum : m.sumSizeOperation = lg.sumSizeOperation)
    (hcount : m.countOperation = lg.countOperation) {e : LogEntry} (he : e.Fits) :
    ∃ m', m.writeNode e = some m' ∧ m'.Represents (lg.record c e.opName e.key e.value) := by
  obtain ⟨node, hnode, hop, -⟩ := hm.current
  refine ⟨{ m with
    nodes := m.nodes.set c.before.length
      { node with op := node.op.fill e.opName e.key e.value }
    sumSizeOperation := (lg.record c e.opName e.key e.value).sumSizeOperation
    countOperation := lg.countOperation + 1 }, ?_, ?_⟩
  · cases hname : e.opName <;>
      simp only [writeNode, hm.cur_eq, hnode, Option.bind_eq_bind, Option.bind_some, he, if_true,
        hsum, hcount, Logger.record, hop, hname]
  · exact
      { linked := hm.linked.set_op hnode _ _ _
        ops_eq := by
          simp only [Logger.record, Logger.nodes, Option.map_some, Option.getD_some, Chain.nodes]
          rw [List.map_set, hm.ops_eq, hop, Chain.nodes]
          simp
        cur_eq := by simp [Logger.record, hm.cur_eq]
        sum_eq := rfl
        count_eq := rfl }

theorem clearLog_represents (hm : m.Represents lg) : m.clearLog.Represents lg.clear where
  linked := ⟨hm.linked.first_eq, hm.linked.next_eq⟩
  ops_eq := by rw [lg.nodes_clear, ← hm.ops_eq]; rfl
  cur_eq := by
    have hfirst : m.clearLog.curOp = m.firstOp := rfl
    have hops := hm.ops_eq
    rw [hfirst, hm.linked.first_eq]
    unfold Logger.clear
    cases hchain : lg.chain with
    | none =>
        rw [Logger.nodes, hchain] at hops
        have hnil : m.nodes = [] := by simpa using hops
        simp [hnil]
    | some c =>
        have hne : m.nodes ≠ [] := by
          intro hnil
          rw [hnil, Logger.nodes, hchain] at hops
          simp [Chain.nodes] at hops
        rw [if_neg hne]
        cases hbefore : c.before with
        | nil => simp [hbefore]
        | cons first rest => simp [hbefore]
  sum_eq := rfl
  count_eq := rfl

end Calls

/-- The list stands for a log with these operations. -/
def Tracks (m : LogMemory) (es : List LogEntry) : Prop :=
  ∃ lg, m.Represents lg ∧ lg.Logs es

section Tracks

variable {m : LogMemory} {es : List LogEntry}

/-- The nodes are linked, and there is one for each operation. -/
theorem Tracks.linked (hm : m.Tracks es) :
    m.Linked ∧ m.countOperation = es.length ∧ m.countOperation ≤ m.nodes.length := by
  obtain ⟨lg, hrep, hlogs⟩ := hm
  have hle := hlogs.inv.count_le_length
  rw [← hrep.ops_eq, List.length_map, ← hrep.count_eq] at hle
  exact ⟨hrep.linked, hrep.count_eq.trans hlogs.count_eq, hle⟩

/-- The traversal meets the operations. -/
theorem Tracks.traverse_eq (hm : m.Tracks es) :
    ∃ ops, m.traverse = some ops ∧ List.Forall₂ Operation.Holds ops es := by
  obtain ⟨hlinked, -, hle⟩ := hm.linked
  obtain ⟨lg, hrep, hlogs⟩ := hm
  refine ⟨_, hlinked.traverse_eq hle, ?_⟩
  rw [hrep.ops_eq, hrep.count_eq]
  exact hlogs.holds

/-- `sum_size_operation` adds up the sizes of the operations. -/
theorem Tracks.sum_eq (hm : m.Tracks es) :
    m.sumSizeOperation = (es.map LogEntry.size).sum := by
  obtain ⟨lg, hrep, hlogs⟩ := hm
  exact hrep.sum_eq.trans hlogs.sum_eq

theorem Tracks.sum_eq_zero_iff (hm : m.Tracks es) :
    m.sumSizeOperation = 0 ↔ m.countOperation = 0 := by
  obtain ⟨lg, hrep, hlogs⟩ := hm
  rw [hrep.sum_eq, hrep.count_eq]
  exact hlogs.inv.sum_eq_zero_iff

/-- `sync_with_db` has nothing to do exactly if there are no operations. -/
theorem Tracks.nothing_iff (hm : m.Tracks es) :
    m.firstOp = none ∨ m.sumSizeOperation = 0 ↔ es = [] := by
  obtain ⟨hlinked, hcount, hle⟩ := hm.linked
  have hfirst : m.firstOp = none → es.length = 0 := by
    intro hnone
    by_contra hne
    have hpos : 0 < m.nodes.length := by omega
    rw [hlinked.first_eq, if_neg (List.ne_nil_of_length_pos hpos)] at hnone
    cases hnone
  rw [hm.sum_eq_zero_iff, hcount, ← List.length_eq_zero_iff]
  exact ⟨fun h => h.elim hfirst id, Or.inr⟩

/-- `cur_op` is the last node with an operation, or `first_op`. -/
theorem Tracks.cur_eq (hm : m.Tracks es) : m.curOp = m.pointerAt (m.countOperation - 1) := by
  obtain ⟨hlinked, -, hle⟩ := hm.linked
  obtain ⟨lg, hrep, hlogs⟩ := hm
  rw [hlinked.pointerAt_eq, hrep.cur_eq]
  rw [hrep.count_eq] at hle ⊢
  by_cases hcount : lg.countOperation = 0
  · cases hchain : lg.chain with
    | none =>
        have hops := hrep.ops_eq
        rw [Logger.nodes, hchain] at hops
        have hnil : m.nodes = [] := by simpa using hops
        simp [hnil]
    | some c =>
        have hpos : 0 < m.nodes.length := by
          rw [← List.length_map LogNode.op, hrep.ops_eq, Logger.nodes, hchain]
          simp [Chain.nodes]
        simp [hlogs.inv.before_of_zero hcount c hchain, hcount, hpos]
  · obtain ⟨c, hchain, hlength⟩ := hlogs.inv.before_of_pos hcount
    rw [if_pos (by omega), hchain, ← hlength]
    rfl

theorem Tracks.clearLog (hm : m.Tracks es) : m.clearLog.Tracks [] := by
  obtain ⟨lg, hrep, -⟩ := hm
  exact ⟨lg.clear, clearLog_represents hrep, lg.clear_logs⟩

/-- What is left of some operations by the test of `MAX_COUNT_OPERATION`. -/
def flushed (es : List LogEntry) (fails : Bool) : List LogEntry :=
  if es.length = maxCountOperation ∧ fails = false then [] else es

/-- A call of `add_log` appends its operation, and clears a full log if its synchronization
succeeds. -/
theorem Tracks.addLog (hm : m.Tracks es) {e : LogEntry} (he : e.Fits) (fails : Bool) :
    ∃ rc m', m.addLog fails e = some (rc, m') ∧ m'.Tracks (flushed (es ++ [e]) fails) := by
  obtain ⟨lg, hrep, hlogs⟩ := hm
  obtain ⟨m₁, hfind, hat, hsum, hcount⟩ := findNode_at hrep
  obtain ⟨m₂, hwrite, hrep₂⟩ := writeNode_represents hat (hsum.trans hrep.sum_eq)
    (hcount.trans hrep.count_eq) he
  have hm₂ : m₂.Tracks (es ++ [e]) := ⟨_, hrep₂, Logger.record_logs hlogs he⟩
  obtain ⟨hlinked, hlength, -⟩ := hm₂.linked
  unfold LogMemory.addLog flushed
  simp only [hfind, hwrite, Option.bind_eq_bind, Option.bind_some, hlength]
  by_cases hfull : (es ++ [e]).length = maxCountOperation
  · obtain ⟨ops, htraverse, -⟩ := hm₂.traverse_eq
    have hpos : ¬ (m₂.firstOp = none ∨ m₂.sumSizeOperation = 0) := by
      simp [hm₂.nothing_iff]
    simp only [hfull, if_true, true_and, LogMemory.syncWithDb, hpos, if_false, htraverse,
      Option.bind_eq_bind, Option.bind_some]
    cases fails with
    | true => exact ⟨-1, m₂, rfl, by simpa using hm₂⟩
    | false => exact ⟨0, m₂.clearLog, rfl, by simpa using hm₂.clearLog⟩
  · simp only [hfull, if_false, false_and]
    exact ⟨0, m₂, rfl, hm₂⟩

end Tracks

/-- What is added fits the node. -/
def Call.Fits : Call → Prop
  | .add e _ => e.Fits
  | .clear => True

/-- The synchronization that a call may force does not fail. -/
def Call.Succeeds : Call → Prop
  | .add _ fails => fails = false
  | .clear => True

instance : (call : Call) → Decidable call.Fits
  | .add e _ => inferInstanceAs (Decidable e.Fits)
  | .clear => inferInstanceAs (Decidable True)

/-- A sequence of calls leaves the operations it logs. -/
theorem Tracks.run {m : LogMemory} {es : List LogEntry} (hm : m.Tracks es) {calls : List Call}
    (hcalls : ∀ call ∈ calls, call.Fits) :
    ∃ m', m.run calls = some m' ∧ m'.Tracks (logged es calls) := by
  induction calls generalizing m es with
  | nil => exact ⟨m, rfl, hm⟩
  | cons call calls ih =>
      have hrest := fun call' hcall' => hcalls call' (List.mem_cons_of_mem call hcall')
      cases call with
      | add e fails =>
          obtain ⟨rc, m₁, hadd, hm₁⟩ := hm.addLog (hcalls _ List.mem_cons_self) fails
          obtain ⟨m', hrun, hm'⟩ := ih hm₁ hrest
          refine ⟨m', ?_, ?_⟩
          · simp only [LogMemory.run, hadd, Option.bind_eq_bind, Option.bind_some, hrun]
          · simpa [logged, flushed] using hm'
      | clear => exact ih hm.clearLog hrest

end LogMemory

/-- Where every forced synchronization succeeds, the log is never full. -/
theorem length_logged_lt {es : List LogEntry} (hes : es.length < maxCountOperation)
    {calls : List LogMemory.Call} (hcalls : ∀ call ∈ calls, call.Succeeds) :
    (logged es calls).length < maxCountOperation := by
  induction calls generalizing es with
  | nil => exact hes
  | cons call calls ih =>
      have hrest := fun call' hcall' => hcalls call' (List.mem_cons_of_mem call hcall')
      cases call with
      | add e fails =>
          have hfails : fails = false := hcalls _ List.mem_cons_self
          refine ih ?_ hrest
          by_cases hfull : es.length + 1 = maxCountOperation
          · rw [if_pos ⟨hfull, hfails⟩]
            decide
          · rw [if_neg (fun h => hfull h.1), List.length_append, List.length_singleton]
            omega
      | clear => exact ih (by decide) hrest

/-- After any calls of `add_log` and `clear_log` whose keys and values fit a node, where the forced
synchronizations succeed, the log is a queue: a walk of `count_operation` nodes from `first_op`
meets the operations added since it was last cleared, in order, and no null pointer. The current
node is the last of them, every node that was ever allocated is in the list, and the log is not
full. -/
theorem log_is_fifo {calls : List LogMemory.Call} (hfits : ∀ call ∈ calls, call.Fits)
    (hsyncs : ∀ call ∈ calls, call.Succeeds) :
    ∃ m ops, LogMemory.init.run calls = some m ∧ m.traverse = some ops ∧
      List.Forall₂ Operation.Holds ops (logged [] calls) ∧
      m.curOp = m.pointerAt (m.countOperation - 1) ∧
      (m.sumSizeOperation = 0 ↔ m.countOperation = 0) ∧
      (∀ a < m.nodes.length, ∃ n, m.pointerAt n = some a) ∧
      m.countOperation < maxCountOperation := by
  have hinit : LogMemory.init.Tracks [] :=
    ⟨.init, LogMemory.init_represents, Logger.init_logs⟩
  obtain ⟨m, hrun, hm⟩ := hinit.run hfits
  obtain ⟨ops, htraverse, hops⟩ := hm.traverse_eq
  obtain ⟨hlinked, hcount, -⟩ := hm.linked
  refine ⟨m, ops, hrun, htraverse, hops, hm.cur_eq, hm.sum_eq_zero_iff, ?_, ?_⟩
  · intro a ha
    exact ⟨a, by rw [hlinked.pointerAt_eq, if_pos ha]⟩
  · rw [hcount]
    exact length_logged_lt (by decide) hsyncs

/-- A batch of two operations, and a DEL that is written over the node of the first of them. -/
theorem log_is_fifo_reused :
    let calls : List LogMemory.Call :=
      [.add ⟨.set, ⟨ascii "key", by decide⟩, some ⟨ascii "value", by decide⟩⟩ false,
        .add ⟨.del, ⟨ascii "k", by decide⟩, none⟩ false, .clear,
        .add ⟨.del, ⟨ascii "k", by decide⟩, none⟩ false]
    ∃ m ops, LogMemory.init.run calls = some m ∧ m.traverse = some ops ∧
      List.Forall₂ Operation.Holds ops (logged [] calls) ∧
      m.countOperation < maxCountOperation := by
  intro calls
  have hfits : ∀ call ∈ calls, call.Fits := by decide
  have hsyncs : ∀ call ∈ calls, call.Succeeds := by
    simp [calls, LogMemory.Call.Succeeds]
  obtain ⟨m, ops, hrun, htraverse, hops, -, -, -, hcount⟩ := log_is_fifo hfits hsyncs
  exact ⟨m, ops, hrun, htraverse, hops, hcount⟩

end PgRedisProxy
