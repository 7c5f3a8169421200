import PgRedisProxy.Base.Block
import PgRedisProxy.Base.KeyValue
import PgRedisProxy.Cache.ProxyHash

/-!
# The log of deferred operations (`logger`)

The log is a linked list of nodes that are kept and overwritten from batch to
batch. `Chain` is the list seen from the current node, so that a chain always has
one. `Logger.Inv` relates the chain to the two counters, and `append_spec` says
that adding an operation appends it to `Logger.pending`, the operations a walk of
`countOperation` nodes from the first one meets.
-/

namespace PgRedisProxy

open CLang

/-- `MAX_COUNT_OPERATION` -/
def maxCountOperation : Nat := 10000

/-- `UPDATE_REQV_SIZE` -/
def updateReqvSize : Nat := 21

/-- `DELETE_REQV_SIZE` -/
def deleteReqvSize : Nat := 30

/-- `proxy_configure->cur_table_name`, which `init_proxy_status` sets and nothing changes. -/
def curTableName : CString := ⟨ascii "redis_0", by decide⟩

/-- `enum operation_name` -/
inductive OperationName where
  | set
  | del
  deriving DecidableEq, Repr

/-- A node of the log. The arrays keep what earlier batches left in them. -/
structure Operation where
  opName : OperationName
  key : CharArray PgRedisProxy.keySize
  value : CharArray PgRedisProxy.valueSize
  keySize : Nat
  valueSize : Nat

namespace Operation

/-- A node as `malloc` returns it. -/
def uninit : Operation :=
  ⟨.set, .uninit _, .uninit _, 0, 0⟩

/-- What `add_log` writes into the node. Without a value the old value bytes stay. -/
def fill (o : Operation) (opName : OperationName) (key : CString) (value : Option CString) :
    Operation :=
  { opName := opName
    key := o.key.write 0 (Block.ofBytes key.buffer)
    keySize := key.strlen
    value :=
      match value with
      | some value => o.value.write 0 (Block.ofBytes value.buffer)
      | none => o.value
    valueSize :=
      match value with
      | some value => value.strlen
      | none => 0 }

/-- The effect of the statement that `sync_with_db` builds from the node. -/
def toWrite (o : Operation) : KeyValue.Write CString CString :=
  match o.opName with
  | .set => (o.key.str, some o.value.str)
  | .del => (o.key.str, none)

end Operation

/-- A nonempty chain of nodes, split at `cur_op`. -/
structure Chain where
  before : List Operation
  cur : Operation
  next : List Operation

/-- The nodes from `first_op` on. -/
def Chain.nodes (c : Chain) : List Operation :=
  c.before ++ c.cur :: c.next

/-- `struct logger`. Without a chain, `cur_op` and `first_op` are `NULL`. -/
structure Logger where
  chain : Option Chain
  sumSizeOperation : Nat
  countOperation : Nat

namespace Logger

/-- `init_logger` -/
def init : Logger :=
  ⟨none, 0, 0⟩

/-- The nodes from `first_op` on, none when it is `NULL`. -/
def nodes (lg : Logger) : List Operation :=
  (lg.chain.map Chain.nodes).getD []

/-- The operations in the log, as the traversal of `sync_with_db` meets them. -/
def pending (lg : Logger) : List (KeyValue.Write CString CString) :=
  (lg.nodes.take lg.countOperation).map Operation.toWrite

/-- `clear_log`: the nodes stay, and the first one becomes current again. -/
def clear (lg : Logger) : Logger :=
  { chain := lg.chain.map fun c =>
      match c.before with
      | [] => c
      | first :: rest => ⟨[], first, rest ++ c.cur :: c.next⟩
    sumSizeOperation := 0
    countOperation := 0 }

/-- How the part of `add_log` before the forced synchronization ends. -/
inductive Append where
  | added (lg : Logger)
  | noMemory
  | nullPointer

/-- The operation written to the current node of `c`, and the counters advanced. -/
def record (lg : Logger) (c : Chain) (opName : OperationName) (key : CString)
    (value : Option CString) : Logger :=
  let cur := c.cur.fill opName key value
  { chain := some { c with cur := cur }
    sumSizeOperation := lg.sumSizeOperation + (cur.keySize + cur.valueSize) +
      curTableName.strlen +
      match opName with
      | .set => updateReqvSize
      | .del => deleteReqvSize
    countOperation := lg.countOperation + 1 }

/-- `add_log` up to the test of `MAX_COUNT_OPERATION`. -/
def append (allocFails : Bool) (lg : Logger) (opName : OperationName) (key : CString)
    (value : Option CString) : Append :=
  match lg.chain with
  | none =>
      if allocFails then .noMemory
      else .added (lg.record ⟨[], .uninit, []⟩ opName key value)
  | some c =>
      if lg.sumSizeOperation ≠ 0 then
        match c.next with
        | [] =>
            -- the check after this `malloc` looks at `cur_op`, so a failure goes unnoticed and
            -- the node is then written through a null pointer
            if allocFails then .nullPointer
            else .added (lg.record ⟨c.before ++ [c.cur], .uninit, []⟩ opName key value)
        | node :: rest => .added (lg.record ⟨c.before ++ [c.cur], node, rest⟩ opName key value)
      else .added (lg.record c opName key value)

/-- The counters and the position of the current node agree: with operations in the log the
current node is the last of them, and without any it is the first node. -/
structure Inv (lg : Logger) : Prop where
  sum_eq_zero_iff : lg.sumSizeOperation = 0 ↔ lg.countOperation = 0
  before_of_pos : lg.countOperation ≠ 0 →
    ∃ c, lg.chain = some c ∧ c.before.length + 1 = lg.countOperation
  before_of_zero : lg.countOperation = 0 → ∀ c, lg.chain = some c → c.before = []

theorem init_inv : init.Inv where
  sum_eq_zero_iff := by simp [init]
  before_of_pos := by simp [init]
  before_of_zero := by simp [init]

@[simp] theorem pending_clear (lg : Logger) : lg.clear.pending = [] := by
  simp [pending, clear]

theorem clear_inv (lg : Logger) : lg.clear.Inv where
  sum_eq_zero_iff := by simp [clear]
  before_of_pos := by simp [clear]
  before_of_zero := by
    intro _ c hc
    obtain ⟨old, _, hold⟩ := Option.map_eq_some_iff.mp hc
    split at hold
    · subst hold
      assumption
    · subst hold
      rfl

/-- With the counters in order, the traversal of `sync_with_db` stays on the chain. -/
theorem Inv.count_le_length {lg : Logger} (h : lg.Inv) : lg.countOperation ≤ lg.nodes.length := by
  by_cases hcount : lg.countOperation = 0
  · omega
  · obtain ⟨c, hc, hlen⟩ := h.before_of_pos hcount
    simp only [nodes, hc, Option.map_some, Option.getD_some, Chain.nodes, List.length_append,
      List.length_cons]
    omega

theorem Inv.length_pending {lg : Logger} (h : lg.Inv) :
    lg.pending.length = lg.countOperation := by
  simp [pending, h.count_le_length]

/-- The operation name the callers of `add_log` pass with a value, or with `NULL`. -/
def nameOf (value : Option CString) : OperationName :=
  if value.isSome then .set else .del

/-- A filled node stands for the operation it was filled with. -/
theorem toWrite_fill (o : Operation) {key : CString} {value : Option CString}
    (hkey : key.strlen < keySize) (hvalue : ∀ v ∈ value, v.strlen < valueSize) :
    (o.fill (nameOf value) key value).toWrite = (key, value) := by
  cases value with
  | none => simp [nameOf, Operation.toWrite, Operation.fill, hkey]
  | some value => simp [nameOf, Operation.toWrite, Operation.fill, hkey, hvalue value rfl]

section Record

variable {lg : Logger} {c : Chain} {key : CString} {value : Option CString}
  (hbefore : c.before.length = lg.countOperation)
include hbefore

theorem record_inv (opName : OperationName) : (lg.record c opName key value).Inv where
  sum_eq_zero_iff := by
    have hname : 0 < curTableName.strlen := by decide
    simp only [record]
    omega
  before_of_pos := fun _ => ⟨_, rfl, by simp [record, hbefore]⟩
  before_of_zero := by simp [record]

/-- Writing the node after the logged ones adds it to them. -/
theorem take_nodes_record (hnodes : lg.nodes.take lg.countOperation = c.before)
    (opName : OperationName) :
    (lg.record c opName key value).nodes.take (lg.record c opName key value).countOperation =
      lg.nodes.take lg.countOperation ++ [c.cur.fill opName key value] := by
  rw [hnodes]
  simp only [record, nodes, Option.map_some, Option.getD_some, Chain.nodes]
  rw [← hbefore, List.take_append, List.take_of_length_le (by omega)]
  simp

/-- Writing the node after the logged ones appends the operation to the log. -/
theorem pending_record (hnodes : lg.nodes.take lg.countOperation = c.before)
    (hkey : key.strlen < keySize) (hvalue : ∀ v ∈ value, v.strlen < valueSize) :
    (lg.record c (nameOf value) key value).pending = lg.pending ++ [(key, value)] := by
  rw [pending, take_nodes_record hbefore hnodes, List.map_append, List.map_singleton,
    toWrite_fill c.cur hkey hvalue]
  rfl

end Record

/-- The chain with the node that `add_log` finds or creates as the current one. -/
def target (lg : Logger) : Chain :=
  match lg.chain with
  | none => ⟨[], .uninit, []⟩
  | some c =>
      if lg.sumSizeOperation ≠ 0 then
        match c.next with
        | [] => ⟨c.before ++ [c.cur], .uninit, []⟩
        | node :: rest => ⟨c.before ++ [c.cur], node, rest⟩
      else c

/-- When the allocation succeeds, `add_log` writes the operation to that node. -/
theorem append_eq_record (lg : Logger) (opName : OperationName) (key : CString)
    (value : Option CString) :
    lg.append false opName key value = .added (lg.record lg.target opName key value) := by
  unfold append target
  cases lg.chain with
  | none => rfl
  | some c =>
      by_cases hsum : lg.sumSizeOperation = 0
      · simp [hsum]
      · cases hnext : c.next with
        | nil => simp [hsum, hnext]
        | cons node rest => simp [hsum, hnext]

/-- The node is the one after the logged ones. -/
theorem target_spec {lg : Logger} (hinv : lg.Inv) :
    lg.target.before.length = lg.countOperation ∧
      lg.nodes.take lg.countOperation = lg.target.before := by
  unfold target
  cases hchain : lg.chain with
  | none =>
      have hzero : lg.countOperation = 0 := by
        by_contra hpos
        obtain ⟨c, hc, -⟩ := hinv.before_of_pos hpos
        simp [hchain] at hc
      simp [hzero]
  | some c =>
      by_cases hsum : lg.sumSizeOperation = 0
      · -- the first operation of a batch goes to the node `clear_log` made current
        have hzero := hinv.sum_eq_zero_iff.mp hsum
        simp [hsum, hzero, hinv.before_of_zero hzero c hchain]
      · obtain ⟨c', hc', hlen⟩ := hinv.before_of_pos (mt hinv.sum_eq_zero_iff.mpr hsum)
        obtain rfl : c = c' := Option.some.inj (hchain.symm.trans hc')
        have hnodes : lg.nodes.take lg.countOperation = c.before ++ [c.cur] := by
          simp only [nodes, hchain, Option.map_some, Option.getD_some, Chain.nodes, ← hlen]
          rw [List.take_append, List.take_of_length_le (by omega)]
          simp
        cases hnext : c.next with
        | nil => simp [hsum, hlen, hnodes, hnext]
        | cons node rest => simp [hsum, hlen, hnodes, hnext]

/-- `add_log` appends the operation. -/
theorem append_spec {lg : Logger} (hinv : lg.Inv) {key : CString} {value : Option CString}
    (hkey : key.strlen < keySize) (hvalue : ∀ v ∈ value, v.strlen < valueSize) :
    ∃ lg', lg.append false (nameOf value) key value = .added lg' ∧ lg'.Inv ∧
      lg'.pending = lg.pending ++ [(key, value)] := by
  obtain ⟨hlen, hnodes⟩ := target_spec hinv
  exact ⟨_, append_eq_record lg _ _ _, record_inv hlen _, pending_record hlen hnodes hkey hvalue⟩

end Logger

end PgRedisProxy
