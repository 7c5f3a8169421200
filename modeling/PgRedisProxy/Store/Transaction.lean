import PgRedisProxy.Store.LogNodes
import PgRedisProxy.Store.Statements

/-!
# The text of a deferred transaction

`sync_with_db` allocates a buffer from `sum_size_operation` and lets `init_transaction`,
`add_op_in_transaction`, and `do_transaction` fill it. `Transaction` is what they keep
of it in globals. `transaction_fills`, the main result, says that the buffer is filled
exactly: with `BEGIN;`, the statements that `set_value` and `del_value` would send for
the logged operations, `COMMIT;`, and a NUL.
-/

namespace PgRedisProxy

open CLang

/-- `BEGIN;` -/
def beginText : List UInt8 := ascii "BEGIN;"

/-- `COMMIT;` -/
def commitText : List UInt8 := ascii "COMMIT;"

/-- `BEGIN_REQV_SIZE` -/
def beginReqvSize : Nat := 6

/-- `COMMIT_REQV_SIZE` -/
def commitReqvSize : Nat := 7

/-- `TRANSACTION_REQV_SIZE` -/
def transactionReqvSize : Nat := beginReqvSize + commitReqvSize

/-- `transaction`, which is `NULL` between transactions, `cur_position`, and
`full_transaction_size`. -/
structure Transaction where
  buffer : Option Block
  curPosition : Int
  fullTransactionSize : Nat

/-- `snprintf` into `size` bytes, for a text it formats: at most `size - 1` bytes of the text and a
NUL are written, and the length of the whole text is returned. -/
def snprintfTo (b : Block) (size : Nat) (text : List UInt8) : Option (Int × Block) :=
  if size = 0 then some (text.length, b)
  else do
    let b ← b.write? 0 (Block.ofBytes (text.take (size - 1) ++ [0]))
    some (text.length, b)

namespace Transaction

/-- `init_transaction` -/
def init (transactionSize : Nat) : Option Transaction := do
  let full := transactionSize + transactionReqvSize + 1
  let b ← Block.malloc full
  let b ← b.write? 0 (Block.ofBytes (List.replicate full 0))
  let b ← b.copy? 0 (Block.ofBytes (beginText ++ [0])) 0 beginReqvSize
  some ⟨some b, beginReqvSize, full⟩

/-- `free_transaction` -/
def free (t : Transaction) : Transaction :=
  { t with buffer := none, curPosition := 0 }

/-- What `add_set` and `add_del` do with the text they format, where `reqvSize` is the length they
expect of it. -/
def addText (t : Transaction) (reqvSize : Int) (text : List UInt8) :
    Option (Int × Transaction) := do
  let reqv ← Block.malloc (reqvSize + 1)
  let (written, reqv) ← snprintfTo reqv (reqvSize + 1).toNat text
  if written ≠ reqvSize then some (-1, t.free)
  else if t.curPosition < 0 then none
  else do
    let b ← t.buffer
    let b ← b.copy? t.curPosition.toNat reqv 0 reqvSize
    some (0, { t with buffer := some b, curPosition := wrap32 (t.curPosition + reqvSize) })

/-- `add_set` -/
def addSet (t : Transaction) (paramSize : Int) (key value tableName : CString) :
    Option (Int × Transaction) :=
  t.addText (wrap32 (updateReqvSize + paramSize)) (addSetText tableName key value)

/-- `add_del` -/
def addDel (t : Transaction) (paramSize : Int) (key tableName : CString) :
    Option (Int × Transaction) :=
  t.addText (wrap32 (deleteReqvSize + paramSize)) (addDelText tableName key)

/-- `add_op_in_transaction` -/
def addOpInTransaction (t : Transaction) (opName : OperationName) (paramSize : Int)
    (key value tableName : CString) : Option (Int × Transaction) :=
  if t.buffer = none then some (-1, t)
  else
    match opName with
    | .set => t.addSet paramSize key value tableName
    | .del => t.addDel paramSize key tableName

/-- `do_transaction` up to the call of `PQexec`, with the buffer it passes. -/
def doTransaction (t : Transaction) : Option Block := do
  let b ← t.buffer
  if t.curPosition < 0 then none
  else do
    let b ← b.copy? t.curPosition.toNat (Block.ofBytes (commitText ++ [0])) 0 commitReqvSize
    b.write? (t.fullTransactionSize - 1) (Block.ofBytes [0])

end Transaction

namespace LogMemory

/-- The loop of `sync_with_db` over `n` nodes from `curOp` on. -/
def addOps (m : LogMemory) (curOp : Option Nat) (t : Transaction) :
    Nat → Option (Int × Transaction)
  | 0 => some (0, t)
  | n + 1 => do
      let cur ← curOp
      let node ← m.nodes[cur]?
      let paramSize := node.op.valueSize + node.op.keySize + curTableName.strlen
      let (rc, t) ← t.addOpInTransaction node.op.opName (wrap32 paramSize) node.op.key.str
        node.op.value.str curTableName
      if rc = -1 then some (-1, t) else m.addOps node.nextOp t n

/-- How `sync_with_db` gets to `PQexec`, if it does. -/
inductive Sync where
  | nothing
  | failed
  | sent (transaction : Block)
  deriving DecidableEq

/-- `sync_with_db` up to the call of `PQexec`. -/
def startSync (m : LogMemory) : Option Sync :=
  if m.firstOp = none ∨ m.sumSizeOperation = 0 then some .nothing
  else do
    let t ← Transaction.init m.sumSizeOperation
    let (rc, t) ← m.addOps m.firstOp t m.countOperation
    if rc = -1 then some .failed
    else do
      let b ← t.doTransaction
      some (.sent b)

end LogMemory

/-! ## What the transaction is meant to be -/

/-- The statement that would be sent at once for an operation. -/
def LogEntry.statementText (e : LogEntry) : List UInt8 :=
  match e.value with
  | some value => setValueText curTableName e.key value
  | none => delValueText curTableName e.key

/-- The statements for some operations, as one transaction. -/
def transactionText (es : List LogEntry) : List UInt8 :=
  beginText ++ es.flatMap LogEntry.statementText ++ commitText

/-- Updates come with a value, and deletions without one. -/
def LogEntry.Named (e : LogEntry) : Prop :=
  e.opName = Logger.nameOf e.value

instance (e : LogEntry) : Decidable e.Named :=
  inferInstanceAs (Decidable (_ = _))

theorem length_setValueText (table key value : CString) :
    (setValueText table key value).length =
      updateReqvSize + (value.strlen + key.strlen + table.strlen) := by
  have htext : setValueText table key value = ascii "UPDATE " ++ (table.bytes ++
      (ascii " SET h['" ++ (key.bytes ++ (ascii "']='" ++ (value.bytes ++ ascii "';"))))) := rfl
  rw [htext]
  simp [ascii, CString.strlen, updateReqvSize]
  omega

theorem length_delValueText (table key : CString) :
    (delValueText table key).length = deleteReqvSize + (key.strlen + table.strlen) := by
  have htext : delValueText table key = ascii "UPDATE " ++ (table.bytes ++
      (ascii " SET h = delete(h, '" ++ (key.bytes ++ ascii "');"))) := rfl
  rw [htext]
  simp [ascii, CString.strlen, deleteReqvSize]
  omega

/-- The size of a statement without its parameters. -/
def OperationName.reqvSize : OperationName → Nat
  | .set => updateReqvSize
  | .del => deleteReqvSize

/-- The length of a statement is the one that `add_set` and `add_del` expect. -/
theorem LogEntry.length_statementText {e : LogEntry} (he : e.Named) :
    e.statementText.length =
      e.opName.reqvSize + (e.valueLength + e.key.strlen + curTableName.strlen) := by
  obtain ⟨opName, key, value⟩ := e
  have hname : opName = Logger.nameOf value := he
  subst hname
  cases value with
  | some value => exact length_setValueText curTableName key value
  | none =>
      refine (length_delValueText curTableName key).trans ?_
      simp [Logger.nameOf, OperationName.reqvSize, valueLength]

/-- It is also what `add_log` counts for the operation. -/
theorem LogEntry.size_eq {e : LogEntry} (he : e.Named) : e.size = e.statementText.length := by
  rw [length_statementText he, size]
  cases e.opName with
  | set =>
      show _ + updateReqvSize = updateReqvSize + _
      omega
  | del =>
      show _ + deleteReqvSize = deleteReqvSize + _
      omega

/-- The statements are as long together as `sum_size_operation` says. -/
theorem length_statements {es : List LogEntry} (hes : ∀ e ∈ es, e.Named) :
    (es.flatMap LogEntry.statementText).length = (es.map LogEntry.size).sum := by
  rw [List.length_flatMap]
  congr 1
  exact List.map_congr_left fun e he => (LogEntry.size_eq (hes e he)).symm

/-! ## Filling the buffer -/

/-- The buffer holds these bytes up to the current position, with room for so many more. -/
structure Transaction.Filled (t : Transaction) (text : List UInt8) (room : Nat) : Prop where
  buffer : ∃ b, t.buffer = some b ∧ b.Holds text room
  curPosition_eq : t.curPosition = text.length
  size_eq : t.fullTransactionSize = text.length + room

/-- A string without its terminator, copied right after what the block holds. -/
theorem copy_string {b : Block} {done : List UInt8} {room : Nat} (hb : b.Holds done room)
    (off : Nat) (bytes : List UInt8) (hoff : off = done.length) (h : bytes.length ≤ room) :
    ∃ b', b.copy? off (Block.ofBytes (bytes ++ [0])) 0 bytes.length = some b' ∧
      b'.Holds (done ++ bytes) (room - bytes.length) := by
  obtain ⟨b', hwrite, hb'⟩ := hb.write off bytes hoff h
  have hread : (Block.ofBytes (bytes ++ [0])).read 0 bytes.length = Block.ofBytes bytes := by
    rw [Block.ofBytes_append]
    exact Block.read_ofBytes [] bytes (Block.ofBytes [0]) rfl
  refine ⟨b', ?_, hb'⟩
  rw [Block.copy?, if_neg (by omega), Int.toNat_natCast, hread, hwrite]

/-- A text that fits its buffer is written with its terminator. -/
theorem snprintfTo_alloc (text : List UInt8) :
    snprintfTo (Block.alloc (text.length + 1)) (text.length + 1) text =
      some ((text.length : Int), Block.ofBytes (text ++ [0])) := by
  obtain ⟨b, hwrite, hb⟩ := (Block.holds_alloc (text.length + 1)).write 0 (text ++ [0]) rfl
    (by simp)
  rw [List.length_append, List.length_singleton, Nat.sub_self] at hb
  rw [snprintfTo, if_neg (by omega), Nat.add_sub_cancel, List.take_length]
  rw [hwrite, hb.eq_ofBytes]
  rfl

section Filled

variable {t : Transaction} {text : List UInt8} {room : Nat}

/-- Text of the expected length is appended to what the buffer holds. -/
theorem Transaction.Filled.addText (ht : t.Filled text room) {bytes : List UInt8} {reqvSize : Int}
    (hsize : reqvSize = bytes.length) (hroom : bytes.length ≤ room)
    (hint : text.length + bytes.length < 2 ^ 31) :
    ∃ t', t.addText reqvSize bytes = some (0, t') ∧
      t'.Filled (text ++ bytes) (room - bytes.length) := by
  obtain ⟨⟨b, hbuffer, hb⟩, hposition, hfull⟩ := ht
  subst hsize
  have hmalloc : Block.malloc ((bytes.length : Int) + 1) = some (.alloc (bytes.length + 1)) := by
    rw [Block.malloc, if_neg (by omega)]
    rfl
  have hreqv : ((bytes.length : Int) + 1).toNat = bytes.length + 1 := by omega
  obtain ⟨b', hcopy, hb'⟩ := copy_string hb text.length bytes rfl hroom
  have hwrap : wrap32 ((text.length : Int) + bytes.length) = (text ++ bytes).length := by
    rw [wrap32_of_range (by omega) (by omega), List.length_append, Nat.cast_add]
  refine ⟨{ t with buffer := some b', curPosition := (text ++ bytes).length }, ?_,
    ⟨⟨b', rfl, hb'⟩, rfl, ?_⟩⟩
  · have hposition' : ¬ (text.length : Int) < 0 := by omega
    simp only [Transaction.addText, hmalloc, hreqv, snprintfTo_alloc, hbuffer, hposition,
      hposition', hcopy, hwrap, Int.toNat_natCast, ne_eq, not_true_eq_false, if_false,
      Option.bind_eq_bind, Option.bind_some]
  · rw [List.length_append]
    show t.fullTransactionSize = _
    omega

/-- The size computed for a statement, where it fits an `int`. -/
theorem wrap32_reqvSize {base paramSize : Nat} (h : base + paramSize < 2 ^ 31) :
    wrap32 (base + wrap32 paramSize) = (base + paramSize : Nat) := by
  have hparam : wrap32 (paramSize : Int) = paramSize := wrap32_of_range (by omega) (by omega)
  rw [hparam, ← Nat.cast_add]
  exact wrap32_of_range (by omega) (by omega)

/-- An operation is added as the statement that would be sent at once. -/
theorem Transaction.Filled.addOp (ht : t.Filled text room) {o : Operation} {e : LogEntry}
    (ho : o.Holds e) (he : e.Named) (hroom : e.statementText.length ≤ room)
    (hint : text.length + e.statementText.length < 2 ^ 31) :
    ∃ t', t.addOpInTransaction o.opName
        (wrap32 (o.valueSize + o.keySize + curTableName.strlen : Nat))
        o.key.str o.value.str curTableName = some (0, t') ∧
      t'.Filled (text ++ e.statementText) (room - e.statementText.length) := by
  obtain ⟨b, hbuffer, -⟩ := ht.buffer
  have hsome : t.buffer ≠ none := by simp [hbuffer]
  have hlength := LogEntry.length_statementText he
  have hsize : wrap32 (e.opName.reqvSize +
      wrap32 (e.valueLength + e.key.strlen + curTableName.strlen : Nat)) =
        e.statementText.length := by
    rw [hlength]
    exact wrap32_reqvSize (by omega)
  unfold Transaction.addOpInTransaction
  rw [if_neg hsome, ho.opName_eq, ho.key_eq, ho.keySize_eq, ho.valueSize_eq]
  obtain ⟨opName, key, value⟩ := e
  have hname : opName = Logger.nameOf value := he
  subst hname
  cases value with
  | some value =>
      have hvalue : o.value.str = value := ho.value_eq value rfl
      rw [hvalue]
      exact ht.addText hsize hroom hint
  | none => exact ht.addText hsize hroom hint

/-- The loop of `sync_with_db` adds the statements of the operations it meets, in order. -/
theorem Transaction.Filled.addOps {m : LogMemory} {n : Nat} {p : Option Nat} {ops : List Operation}
    {es : List LogEntry} (ht : t.Filled text room) (hwalk : m.walk p n = some ops)
    (hops : List.Forall₂ Operation.Holds ops es) (hes : ∀ e ∈ es, e.Named)
    (hroom : (es.flatMap LogEntry.statementText).length ≤ room)
    (hint : text.length + (es.flatMap LogEntry.statementText).length < 2 ^ 31) :
    ∃ t', m.addOps p t n = some (0, t') ∧
      t'.Filled (text ++ es.flatMap LogEntry.statementText)
        (room - (es.flatMap LogEntry.statementText).length) := by
  induction n generalizing p t text room ops es with
  | zero =>
      cases hwalk
      cases hops
      exact ⟨t, rfl, by simpa using ht⟩
  | succ n ih =>
      simp only [LogMemory.walk, Option.bind_eq_bind, Option.bind_eq_some_iff] at hwalk
      obtain ⟨cur, rfl, node, hnode, rest, hrest, hcons⟩ := hwalk
      cases hcons
      cases hops with
      | @cons _ e _ es ho hops =>
          rw [List.flatMap_cons, List.length_append] at hroom hint
          obtain ⟨t₁, hadd, ht₁⟩ := ht.addOp ho (hes e List.mem_cons_self) (by omega) (by omega)
          obtain ⟨t', hloop, ht'⟩ := ih ht₁ hrest hops
            (fun e' he' => hes e' (List.mem_cons_of_mem e he')) (by omega)
            (by rw [List.length_append]; omega)
          refine ⟨t', ?_, ?_⟩
          · simp only [LogMemory.addOps, hnode, Option.bind_eq_bind, Option.bind_some, hadd, hloop]
            rfl
          · rw [List.flatMap_cons, List.length_append, ← List.append_assoc, ← Nat.sub_sub]
            exact ht'

end Filled

/-- `init_transaction` leaves the room that was asked for, and that for `COMMIT;` and a NUL. -/
theorem Transaction.init_filled (transactionSize : Nat) :
    ∃ t, init transactionSize = some t ∧
      t.Filled beginText (transactionSize + (commitReqvSize + 1)) := by
  have hfull : transactionSize + transactionReqvSize + 1 =
      beginText.length + (transactionSize + (commitReqvSize + 1)) := by
    show transactionSize + (6 + 7) + 1 = 6 + (transactionSize + (7 + 1))
    omega
  obtain ⟨b, hmalloc, hb⟩ := 
    Block.holds_malloc (n := (transactionSize + transactionReqvSize + 1 : Nat)) rfl
  obtain ⟨b₁, hmemset, hb₁⟩ := hb.write 0
    (List.replicate (transactionSize + transactionReqvSize + 1) 0) rfl (by simp)
  have hzeros : b₁.Holds [] (transactionSize + transactionReqvSize + 1) := by
    rw [List.length_replicate, Nat.sub_self] at hb₁
    exact ⟨b₁, rfl, by rw [hb₁.eq_ofBytes]; simp⟩
  obtain ⟨b₂, hcopy, hb₂⟩ := copy_string hzeros 0 beginText rfl (by omega)
  refine ⟨⟨some b₂, beginReqvSize, transactionSize + transactionReqvSize + 1⟩, ?_,
    ⟨⟨b₂, rfl, ?_⟩, rfl, hfull⟩⟩
  · unfold init
    simp only [hmalloc, hmemset, Option.bind_eq_bind, Option.bind_some]
    show (Block.copy? b₁ 0 _ 0 (beginText.length : Nat)).bind _ = _
    rw [hcopy]
    rfl
  · have hroom : transactionSize + transactionReqvSize + 1 - beginText.length =
        transactionSize + (commitReqvSize + 1) := by omega
    rw [List.nil_append, hroom] at hb₂
    exact hb₂

/-- `do_transaction` ends the transaction where the buffer ends. -/
theorem Transaction.Filled.doTransaction {t : Transaction} {text : List UInt8}
    (ht : t.Filled text (commitReqvSize + 1)) :
    t.doTransaction = some (Block.ofBytes (text ++ commitText ++ [0])) := by
  obtain ⟨⟨b, hbuffer, hb⟩, hposition, hfull⟩ := ht
  obtain ⟨b₁, hcopy, hb₁⟩ := copy_string hb text.length commitText rfl (by decide)
  have hend : t.fullTransactionSize - 1 = (text ++ commitText).length := by
    rw [hfull, List.length_append]
    rfl
  obtain ⟨b₂, hwrite, hb₂⟩ := hb₁.write (t.fullTransactionSize - 1) [0] hend (by decide)
  have hposition' : ¬ (text.length : Int) < 0 := by omega
  unfold Transaction.doTransaction
  simp only [hbuffer, hposition, hposition', Int.toNat_natCast, if_false, Option.bind_eq_bind,
    Option.bind_some]
  show (Block.copy? b text.length _ 0 (commitText.length : Nat)).bind _ = _
  rw [hcopy, Option.bind_some, hwrite]
  exact congrArg some (Block.Holds.eq_ofBytes hb₂)

/-! ## The result -/

/-- Every operation that is added comes with a value exactly if it is an update. -/
def LogMemory.Call.Named : LogMemory.Call → Prop
  | .add e _ => e.Named
  | .clear => True

instance : (call : LogMemory.Call) → Decidable call.Named
  | .add e _ => inferInstanceAs (Decidable e.Named)
  | .clear => inferInstanceAs (Decidable True)

/-- What is in the log was added by one of the calls. -/
theorem logged_named {es : List LogEntry} (hes : ∀ e ∈ es, e.Named) {calls : List LogMemory.Call}
    (hcalls : ∀ call ∈ calls, call.Named) : ∀ e ∈ logged es calls, e.Named := by
  induction calls generalizing es with
  | nil => exact hes
  | cons call calls ih =>
      have hrest := fun call' hcall' => hcalls call' (List.mem_cons_of_mem call hcall')
      cases call with
      | add e fails =>
          have he : e.Named := hcalls _ List.mem_cons_self
          refine ih ?_ hrest
          intro e' he'
          split at he'
          · cases he'
          · rcases List.mem_append.mp he' with hold | hnew
            · exact hes e' hold
            · rw [List.mem_singleton.mp hnew]
              exact he
      | clear => exact ih (by simp) hrest

/-- After any calls of `add_log` and `clear_log` with keys and values that fit a node, the buffer
that `sync_with_db` allocates is filled exactly, if the text is shorter than `2 ^ 31`: it holds
`BEGIN;`, the statement that would be sent at once for each operation in the log, in order,
`COMMIT;`, and a NUL. An empty log sends nothing. -/
theorem transaction_fills {calls : List LogMemory.Call} (hfits : ∀ call ∈ calls, call.Fits)
    (hnamed : ∀ call ∈ calls, call.Named)
    (hsize : (transactionText (logged [] calls)).length < 2 ^ 31) :
    ∃ m, LogMemory.init.run calls = some m ∧
      m.startSync = some (if logged [] calls = [] then .nothing
        else .sent (Block.ofBytes (transactionText (logged [] calls) ++ [0]))) := by
  have hinit : LogMemory.init.Tracks [] :=
    ⟨.init, LogMemory.init_represents, Logger.init_logs⟩
  obtain ⟨m, hrun, hm⟩ := hinit.run hfits
  have hes := @logged_named [] (by simp) calls hnamed
  generalize logged [] calls = es at hsize hm hes ⊢
  refine ⟨m, hrun, ?_⟩
  unfold LogMemory.startSync
  by_cases hnil : es = []
  · rw [if_pos (hm.nothing_iff.mpr hnil), if_pos hnil]
  · rw [if_neg (mt hm.nothing_iff.mp hnil), if_neg hnil]
    obtain ⟨ops, htraverse, hops⟩ := hm.traverse_eq
    have hsum : m.sumSizeOperation = (es.flatMap LogEntry.statementText).length := by
      rw [hm.sum_eq, length_statements hes]
    obtain ⟨t, ht, hfilled⟩ := Transaction.init_filled m.sumSizeOperation
    rw [transactionText, List.length_append, List.length_append] at hsize
    obtain ⟨t', hloop, hfilled'⟩ := hfilled.addOps htraverse hops hes (by omega) (by omega)
    have hroom : m.sumSizeOperation + (commitReqvSize + 1) -
        (es.flatMap LogEntry.statementText).length = commitReqvSize + 1 := by omega
    rw [hroom] at hfilled'
    simp only [ht, hloop, hfilled'.doTransaction, Option.bind_eq_bind, Option.bind_some]
    rfl

/-- An update, a deletion, and an update of the same key, after a synchronization. -/
theorem transaction_fills_mixed :
    ∃ m, LogMemory.init.run
        [.add ⟨.set, ⟨ascii "old", by decide⟩, some ⟨ascii "x", by decide⟩⟩ false, .clear,
          .add ⟨.set, ⟨ascii "k", by decide⟩, some ⟨ascii "v", by decide⟩⟩ false,
          .add ⟨.del, ⟨ascii "other", by decide⟩, none⟩ false] = some m ∧
      m.startSync = some (.sent (Block.ofBytes (ascii ("BEGIN;UPDATE redis_0 SET h['k']='v';" ++
        "UPDATE redis_0 SET h = delete(h, 'other');COMMIT;") ++ [0]))) :=
  @transaction_fills
    [.add ⟨.set, ⟨ascii "old", by decide⟩, some ⟨ascii "x", by decide⟩⟩ false, .clear,
      .add ⟨.set, ⟨ascii "k", by decide⟩, some ⟨ascii "v", by decide⟩⟩ false,
      .add ⟨.del, ⟨ascii "other", by decide⟩, none⟩ false] (by decide) (by decide) (by decide)

end PgRedisProxy
