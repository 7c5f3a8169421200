import PgRedisProxy.Cache.ArgumentReads
import PgRedisProxy.Store.Conversation

/-!
# Requests whose statements may fail

`Database` is what becomes of the statements of `work_with_db`. `getValueOn`, `setValueOn`,
and `delValueOn` format their texts into buffers whose sizes are `int`s and have the
database execute them; `reqGetOn`, `reqSetOn`, and `reqDelOn` are the requests over them,
which copy a key into its cell with the memory behind it. Without a result the worker is
gone: a statement could not be formatted, or failed, which raises an error, or a copy went
past a cell. `GetSucceeds`, `SetSucceeds`, and `DelSucceeds` say when there is a result, and
`reqGetOn_keeps`, `reqSetOn_keeps`, and `reqDelOn_keeps` what it leaves.
-/

namespace PgRedisProxy

open CLang KeyValue SqlText

/-- What becomes of the row of the worker's table when a statement is executed, each named by what
it is sent for, and what the statement returns. Without a result it fails. -/
structure Database where
  select : CString → Hstore → Option (CString × Hstore)
  update : CString → CString → Hstore → Option Hstore
  exist : CString → Hstore → Option (Bool × Hstore)
  delete : CString → Hstore → Option Hstore
  transaction : List LogEntry → Hstore → Option Hstore

/-! ## Formatting and executing -/

/-- `SELCT_REQV_SIZE` -/
def selctReqvSize : Nat := 19

/-- `FIND_REQV_SIZE` -/
def findReqvSize : Nat := 26

/-- What `snprintf` returns for a text: its length, or -1 if that is no `int`. -/
def snprintfResult (text : List UInt8) : Int :=
  if text.length < 2 ^ 31 then text.length else -1

/-- A statement in a buffer, as `PQexec` gets it. The size of the text is an `int`, and so is the
size of the buffer, which is one more. -/
def formatReqv (reqvSize : Nat) (text : List UInt8) : Option CString := do
  let size := wrap32 reqvSize
  let reqv ← Block.malloc (wrap32 (size + 1))
  let (_, reqv) ← snprintfTo reqv (wrap32 (size + 1)).toNat text
  if snprintfResult text ≠ size then none else reqv.cstr

/-- `PQgetlength`, which is an `int`. There is no result with a longer value. -/
def pqGetlength (value : CString) : Option Nat :=
  if value.strlen < 2 ^ 31 then some value.strlen else none

/-- `get_value` -/
def getValueOn (D : Database) (db : Hstore) (key : CString) : Option (GetReply × Hstore) := do
  let _ ← formatReqv (selctReqvSize + key.strlen + curTableName.strlen)
    (getValueText curTableName key)
  let (value, db) ← D.select key db
  let length ← pqGetlength value
  if value = CString.empty then some (⟨.non, none, length + 1⟩, db)
  else some (⟨.ok, some value, length + 1⟩, db)

/-- `set_value` -/
def setValueOn (D : Database) (db : Hstore) (key value : CString) :
    Option (ReqResult × Hstore) := do
  let _ ← formatReqv (updateReqvSize + curTableName.strlen + key.strlen + value.strlen)
    (setValueText curTableName key value)
  let db ← D.update key value db
  some (.ok, db)

/-- `del_value`, which formats both statements before it sends the first one. -/
def delValueOn (D : Database) (db : Hstore) (key : CString) : Option (ReqResult × Hstore) := do
  let _ ← formatReqv (deleteReqvSize + key.strlen + curTableName.strlen)
    (delValueText curTableName key)
  let _ ← formatReqv (findReqvSize + key.strlen + curTableName.strlen) (findText curTableName key)
  let (found, db) ← D.exist key db
  if found then do
    let db ← D.delete key db
    some (.ok, db)
  else some (.non, db)

/-- `set_hash_table`, where the copy of the key stays inside its cell. -/
def setHashTableOn (t : Htab) (key : Argument) (value : Option CString) (newStatus : UInt8) :
    Option Htab :=
  if key.strlenNext ≤ dataSize then
    some (hashEnter t key.text fun c =>
      c.fillFrom key (value.map fun value => ⟨value, []⟩) newStatus)
  else none

/-- The operations in the log, as `sync_with_db` adds them to its transaction. -/
def Logger.entries (lg : Logger) : List LogEntry :=
  (lg.nodes.take lg.countOperation).map Operation.entry

/-- `sync_with_db` -/
def syncWithDbOn (D : Database) (p : Proxy) : Option (Int × Proxy) :=
  match p.logger with
  | none => some (-1, p)
  | some lg =>
      if lg.nodes = [] ∨ lg.sumSizeOperation = 0 then some (0, p)
      else if lg.nodes.length < lg.countOperation then none
      else do
        let db ← D.transaction lg.entries p.db
        some (0, { p with db := db, logger := some lg.clear })

/-- `add_log` -/
def addLogOn (D : Database) (p : Proxy) (opName : OperationName) (key : CString)
    (value : Option CString) : Option (Int × Proxy) :=
  match p.logger with
  | none => some (-1, p)
  | some lg =>
      match lg.append false opName key value with
      | .noMemory => some (-1, p)
      | .nullPointer => none
      | .added lg =>
          let p := { p with logger := some lg }
          if lg.countOperation = maxCountOperation then syncWithDbOn D p else some (0, p)

/-- `req_get` -/
def reqGetOn (D : Database) (p : Proxy) (key : Argument) : Option (GetReply × Proxy) :=
  if (p.cachingRegime = .getCache ∨ p.cachingRegime = .onlyCache ∨
      p.cachingRegime = .defferDump) ∧ keyFits key.text then
    match checkHashTable p.hashes key.text with
    | (some value, _) => some (⟨.ok, some value, value.strlen + 1⟩, p)
    | (none, true) => some (⟨.non, none, 0⟩, p)
    | (none, false) => do
        let (r, db) ← getValueOn D p.db key.text
        let p := { p with db := db }
        if r.res = .non then do
          let hashes ← setHashTableOn p.hashes key r.value 1
          some (r, { p with hashes := hashes })
        else
          match r.value with
          | some value =>
              if r.res = .ok ∧ valueFits value then do
                let hashes ← setHashTableOn p.hashes key (some value) 0
                some (r, { p with hashes := hashes })
              else some (r, p)
          | none => some (r, p)
  else if p.cachingRegime = .noCache ∨ ¬ keyFits key.text then do
    let (r, db) ← getValueOn D p.db key.text
    some (r, { p with db := db })
  else some (⟨.errReq, none, 0⟩, p)

/-- `req_set` -/
def reqSetOn (D : Database) (p : Proxy) (key : Argument) (value : CString) :
    Option (ReqResult × Proxy) :=
  let fitInCache := keyFits key.text && valueFits value
  if p.cachingRegime = .getCache ∧ fitInCache then do
    let (res, db) ← setValueOn D p.db key.text value
    let p := { p with db := db }
    if res ≠ .errReq then do
      let hashes ← setHashTableOn p.hashes key (some value) 0
      some (res, { p with hashes := hashes })
    else some (res, p)
  else if (p.cachingRegime = .onlyCache ∨ p.cachingRegime = .defferDump) ∧ fitInCache then do
    let hashes ← setHashTableOn p.hashes key (some value) 0
    let p := { p with hashes := hashes }
    if p.cachingRegime = .defferDump then
      (addLogOn D p .set key.text (some value)).map (afterLog .ok)
    else some (.ok, p)
  else if p.cachingRegime = .noCache ∨ ¬ fitInCache then do
    let (res, db) ← setValueOn D p.db key.text value
    some (res, { p with db := db })
  else some (.errReq, p)

/-- What `req_del` learns about the key before it marks it deleted, when the regime asks the cache
first. -/
def delCachedOn (D : Database) (p : Proxy) (key : CString) : Option (ReqResult × Hstore) :=
  match checkHashTable p.hashes key with
  | (some _, true) => some (.ok, p.db)
  | (none, true) => some (.non, p.db)
  | (_, false) => delValueOn D p.db key

/-- `req_del` -/
def reqDelOn (D : Database) (p : Proxy) (key : Argument) : Option (ReqResult × Proxy) :=
  if p.cachingRegime = .getCache ∧ keyFits key.text then do
    let (res, db) ← delValueOn D p.db key.text
    let p := { p with db := db }
    if res ≠ .errReq then do
      let hashes ← setHashTableOn p.hashes key none 1
      some (res, { p with hashes := hashes })
    else some (res, p)
  else if (p.cachingRegime = .onlyCache ∨ p.cachingRegime = .defferDump) ∧ keyFits key.text then do
    let (res, db) ← delCachedOn D p key.text
    let hashes ← setHashTableOn p.hashes key none 1
    let p := { p with db := db, hashes := hashes }
    if p.cachingRegime = .defferDump then
      (addLogOn D p .del key.text none).map (afterLog res)
    else some (res, p)
  else if p.cachingRegime = .noCache ∨ ¬ keyFits key.text then do
    let (res, db) ← delValueOn D p.db key.text
    some (res, { p with db := db })
  else some (.errReq, p)

/-! ## When there is a result -/

/-- The size of a buffer for a text and its terminator is an `int`. -/
def FitsInt (text : List UInt8) : Prop :=
  text.length + 1 < 2 ^ 31

instance (text : List UInt8) : Decidable (FitsInt text) :=
  inferInstanceAs (Decidable (_ < _))

/-- The copy of a key, which takes `strlen(key + 1)` bytes, stays inside its cell. -/
def Argument.InCell (key : Argument) : Prop :=
  key.strlenNext ≤ dataSize

instance (key : Argument) : Decidable key.InCell :=
  inferInstanceAs (Decidable (_ ≤ _))

/-- The value that is selected for a key, in a result of libpq. -/
def Database.fetch (D : Database) (key : CString) (db : Hstore) : Option (CString × Hstore) :=
  (D.select key db).filter fun a => a.1.strlen < 2 ^ 31

/-- A row looked up for a key and, if it has the key, with the key deleted. -/
def Database.remove (D : Database) (key : CString) (db : Hstore) : Option (Bool × Hstore) :=
  (D.exist key db).bind fun (found, db) =>
    if found then (D.delete key db).map fun db => (true, db) else some (false, db)

/-- The regime has a cache, and the key fits it. -/
def Proxy.caches (p : Proxy) (key : CString) : Bool :=
  p.cachingRegime ≠ .noCache && keyFits key

/-- The size of the result for a value, with the mark and the terminator, is an `int`. -/
def GetReply.FitsInt (r : GetReply) : Prop :=
  ∀ value ∈ r.value, value.strlen + 2 < 2 ^ 31

/-- Unless the cache knows the key, the statement of a GET can be formatted and executed, the size
of its result is an `int`, and what the cache takes of it stays inside its cell. -/
def Proxy.GetSucceeds (D : Database) (p : Proxy) (key : Argument) : Prop :=
  (p.caches key.text && (cached p.hashes key.text).isSome) = false →
    FitsInt (getValueText curTableName key.text) ∧
      ∃ a ∈ D.select key.text p.db, a.1.strlen + 2 < 2 ^ 31 ∧
        ((p.caches key.text && valueFits a.1) = true → key.InCell)

/-- The statement of a SET can be formatted and executed. -/
def UpdateSucceeds (D : Database) (key value : CString) (db : Hstore) : Prop :=
  FitsInt (setValueText curTableName key value) ∧ (D.update key value db).isSome

/-- The statements of a DEL can be formatted and executed. The one that looks the key up is shorter
than the one that deletes it. -/
def RemoveSucceeds (D : Database) (key : CString) (db : Hstore) : Prop :=
  FitsInt (delValueText curTableName key) ∧ (D.remove key db).isSome

/-- If an operation fills the log, the deferred transaction can be executed. -/
def LogSucceeds (D : Database) (db : Hstore) (logger : Option Logger) (key : CString)
    (value : Option CString) : Prop :=
  ∀ lg ∈ logger, (lg.record lg.target (Logger.nameOf value) key value).countOperation =
      maxCountOperation →
    (D.transaction (lg.record lg.target (Logger.nameOf value) key value).entries db).isSome

/-- What a SET sends can be formatted and executed, and what the cache takes stays inside its
cell. -/
def Proxy.SetSucceeds (D : Database) (p : Proxy) (key : Argument) (value : CString) : Prop :=
  if (p.caches key.text && valueFits value) = true then
    key.InCell ∧
      (p.cachingRegime = .getCache → UpdateSucceeds D key.text value p.db) ∧
      (p.cachingRegime = .defferDump → LogSucceeds D p.db p.logger key.text (some value))
  else UpdateSucceeds D key.text value p.db

/-- What a DEL of one key sends can be formatted and executed, and what the cache takes stays inside
its cell. Under `ONLY_CACHE` and `DEFFER_DUMP` the database is asked for a key without an entry. -/
def Proxy.DelSucceeds (D : Database) (p : Proxy) (key : Argument) : Prop :=
  if p.caches key.text = true then
    let asks := p.cachingRegime = .getCache ∨ cached p.hashes key.text = none
    key.InCell ∧ (asks → RemoveSucceeds D key.text p.db) ∧
      (p.cachingRegime = .defferDump →
        ∀ row ∈ (if asks then (D.remove key.text p.db).map Prod.snd else some p.db),
          LogSucceeds D row p.logger key.text none)
  else RemoveSucceeds D key.text p.db

section Format

variable {text : List UInt8}

theorem snprintf_noNul {format : List UInt8} (hformat : 0 ∉ format) (args : List CString) :
    0 ∉ snprintf format args := by
  induction format, args using snprintf.induct with
  | case1 format arg args ih =>
      simp only [List.mem_cons, not_or] at hformat
      simp only [snprintf, List.mem_append, not_or]
      exact ⟨arg.noNul, ih hformat.2.2⟩
  | case2 c format args hno ih =>
      simp only [List.mem_cons, not_or] at hformat
      rw [snprintf]
      · simp only [List.mem_cons, not_or]
        exact ⟨hformat.1, ih hformat.2⟩
      · exact hno
  | case3 => simp [snprintf]

/-- A text is formatted as a whole, or its buffer is too large. -/
theorem formatReqv_eq (htext : 0 ∉ text) :
    formatReqv text.length text = if FitsInt text then some ⟨text, htext⟩ else none := by
  by_cases hfits : FitsInt text
  · have hlt : text.length + 1 < 2 ^ 31 := hfits
    have hsize : wrap32 (text.length : Int) = text.length := wrap32_of_range (by omega) (by omega)
    have hbuffer : wrap32 ((text.length : Int) + 1) = (text.length + 1 : Nat) := by
      rw [wrap32_of_range (by omega) (by omega)]
      omega
    have hresult : snprintfResult text = text.length := if_pos (by omega)
    have hmalloc : Block.malloc (text.length + 1 : Nat) = some (.alloc (text.length + 1)) := rfl
    have hcstr : (Block.ofBytes (text ++ [0])).cstr = some ⟨text, htext⟩ := by
      have hbuffered := Block.cstr_buffer ⟨text, htext⟩ []
      rwa [List.append_nil] at hbuffered
    rw [if_pos hfits]
    simp only [formatReqv, hsize, hbuffer, hmalloc, Int.toNat_natCast, snprintfTo_alloc, hresult,
      Option.bind_eq_bind, Option.bind_some, ne_eq, not_true_eq_false, if_false, hcstr]
  · have hle : 2 ^ 31 ≤ text.length + 1 := Nat.le_of_not_lt hfits
    rw [if_neg hfits]
    by_cases hwrapped : wrap32 (text.length : Int) = -1
    · -- the buffer is empty, and `snprintf` fails with just that size
      have hbuffer : wrap32 (wrap32 (text.length : Int) + 1) = 0 := by
        rw [hwrapped]
        rfl
      have hmalloc : Block.malloc 0 = some [] := rfl
      have hprinted : snprintfTo [] (Int.toNat 0) text = some ((text.length : Int), []) := rfl
      simp only [formatReqv, hbuffer, hmalloc, hprinted, Option.bind_eq_bind, Option.bind_some,
        Block.cstr, ite_self]
    · have hdiffers : snprintfResult text ≠ wrap32 text.length ∨
          wrap32 (wrap32 (text.length : Int) + 1) < 0 := by
        by_cases hlast : text.length = 2 ^ 31 - 1
        · right
          rw [hlast]
          decide
        · left
          rw [snprintfResult, if_neg (by omega)]
          exact Ne.symm hwrapped
      rcases hdiffers with hdiffers | hnegative
      · simp [formatReqv, hdiffers]
      · simp only [formatReqv, Block.malloc, if_pos hnegative, Option.bind_eq_bind,
          Option.bind_none]

end Format

section Statements

variable {D : Database} {db : Hstore} {key value : CString}

theorem getValueText_noNul (key : CString) : 0 ∉ getValueText curTableName key :=
  snprintf_noNul (by decide) _

theorem setValueText_noNul (key value : CString) : 0 ∉ setValueText curTableName key value :=
  snprintf_noNul (by decide) _

theorem delValueText_noNul (key : CString) : 0 ∉ delValueText curTableName key :=
  snprintf_noNul (by decide) _

theorem findText_noNul (key : CString) : 0 ∉ findText curTableName key :=
  snprintf_noNul (by decide) _

theorem length_getValueText (table key : CString) :
    (getValueText table key).length = selctReqvSize + key.strlen + table.strlen := by
  have htext : getValueText table key =
      ascii "SELECT h['" ++ (key.bytes ++ (ascii "'] FROM " ++ (table.bytes ++ [semicolon]))) := rfl
  rw [htext]
  simp [ascii, CString.strlen, selctReqvSize]
  omega

theorem length_findText (table key : CString) :
    (findText table key).length = findReqvSize + key.strlen + table.strlen := by
  have htext : findText table key = ascii "SELECT exist(h, '" ++ (key.bytes ++
      (ascii "') FROM " ++ (table.bytes ++ [semicolon]))) := rfl
  rw [htext]
  simp [ascii, CString.strlen, findReqvSize]
  omega

/-- What `get_value` replies to a text: the empty string stands for no value. -/
def GetReply.ofText (text : CString) : GetReply :=
  .of ((some text).filter (· ≠ CString.empty))

/-- `get_value` replies with the value that is fetched. -/
theorem getValueOn_eq (D : Database) (db : Hstore) (key : CString) :
    getValueOn D db key =
      if FitsInt (getValueText curTableName key) then
        (D.fetch key db).map fun a => (.ofText a.1, a.2)
      else none := by
  have hreply : ∀ text : CString, (if text = CString.empty then
      (⟨.non, none, text.strlen + 1⟩ : GetReply) else ⟨.ok, some text, text.strlen + 1⟩) =
        .ofText text := by
    intro text
    by_cases htext : text = CString.empty
    · subst htext
      rfl
    · simp [GetReply.ofText, Option.filter, htext, GetReply.of]
  unfold getValueOn
  rw [← length_getValueText, formatReqv_eq (getValueText_noNul key)]
  split
  · unfold Database.fetch pqGetlength
    cases D.select key db with
    | none => rfl
    | some a =>
        by_cases hlength : a.1.strlen < 2 ^ 31
        · simp only [Option.bind_eq_bind, Option.bind_some, Option.filter_some, hlength,
            decide_true, if_true, Option.map_some, ← hreply]
          split <;> simp [*]
        · simp only [Option.bind_eq_bind, Option.bind_some, Option.filter_some, hlength,
            decide_false, Bool.false_eq_true, if_false, Option.bind_none, Option.map_none]
  · rfl

/-- `set_value` has the row updated. -/
theorem setValueOn_eq (D : Database) (db : Hstore) (key value : CString) :
    setValueOn D db key value =
      if FitsInt (setValueText curTableName key value) then
        (D.update key value db).map fun db => (.ok, db)
      else none := by
  have hlength : updateReqvSize + curTableName.strlen + key.strlen + value.strlen =
      (setValueText curTableName key value).length := by
    rw [length_setValueText]
    omega
  unfold setValueOn
  rw [hlength, formatReqv_eq (setValueText_noNul key value)]
  split
  · cases D.update key value db <;> rfl
  · rfl

theorem FitsInt.find (h : FitsInt (delValueText curTableName key)) :
    FitsInt (findText curTableName key) := by
  unfold FitsInt at h ⊢
  rw [length_delValueText, deleteReqvSize] at h
  rw [length_findText, findReqvSize]
  omega

/-- `del_value` has the key deleted if it is there. -/
theorem delValueOn_eq (D : Database) (db : Hstore) (key : CString) :
    delValueOn D db key =
      if FitsInt (delValueText curTableName key) then
        (D.remove key db).map fun a => (Tiers.deleted a.1, a.2)
      else none := by
  have hlength : deleteReqvSize + key.strlen + curTableName.strlen =
      (delValueText curTableName key).length := by
    rw [length_delValueText]
    omega
  unfold delValueOn
  rw [hlength, formatReqv_eq (delValueText_noNul key), ← length_findText,
    formatReqv_eq (findText_noNul key)]
  split
  · rename_i hfits
    rw [if_pos hfits.find]
    simp only [Option.bind_eq_bind, Option.bind_some, Database.remove]
    cases D.exist key db with
    | none => rfl
    | some a =>
        obtain ⟨found, row⟩ := a
        cases found with
        | false => rfl
        | true =>
            simp only [Option.bind_some, if_true]
            cases D.delete key row <;> rfl
  · rfl

theorem GetReply.ofText_fitsInt {text : CString} :
    (GetReply.ofText text).FitsInt ↔ text.strlen + 2 < 2 ^ 31 := by
  by_cases htext : text = CString.empty
  · subst htext
    simp [GetReply.ofText, Option.filter, GetReply.of, GetReply.FitsInt, CString.strlen,
      CString.empty]
  · simp [GetReply.ofText, Option.filter, htext, GetReply.of, GetReply.FitsInt]

/-- A result of libpq fits if the value selected does. -/
theorem exists_fetch_iff {P : CString × Hstore → Prop} :
    (∃ a ∈ D.fetch key db, a.1.strlen + 2 < 2 ^ 31 ∧ P a) ↔
      ∃ a ∈ D.select key db, a.1.strlen + 2 < 2 ^ 31 ∧ P a := by
  simp only [Database.fetch, Option.mem_def, Option.filter_eq_some_iff, decide_eq_true_eq]
  constructor
  · rintro ⟨a, ⟨ha, -⟩, h⟩
    exact ⟨a, ha, h⟩
  · rintro ⟨a, ha, h⟩
    exact ⟨a, ⟨ha, by omega⟩, h⟩

theorem setValueOn_isSome_iff :
    (setValueOn D db key value).isSome ↔ UpdateSucceeds D key value db := by
  rw [setValueOn_eq, UpdateSucceeds]
  split <;> simp [*]

theorem delValueOn_isSome_iff : (delValueOn D db key).isSome ↔ RemoveSucceeds D key db := by
  rw [delValueOn_eq, RemoveSucceeds]
  split <;> simp [*]

end Statements

section Requests

variable {D : Database} {p : Proxy} {key : Argument} {value : CString}

theorem setHashTableOn_isSome_iff {t : Htab} {stored : Option CString} {st : UInt8} :
    (setHashTableOn t key stored st).isSome ↔ key.InCell := by
  unfold setHashTableOn Argument.InCell
  split <;> simp [*]

theorem Proxy.caches_iff {k : CString} :
    p.caches k = true ↔ (p.cachingRegime = .getCache ∨ p.cachingRegime = .onlyCache ∨
      p.cachingRegime = .defferDump) ∧ keyFits k = true := by
  unfold Proxy.caches
  cases p.cachingRegime <;> simp

theorem Proxy.not_caches_iff {k : CString} :
    p.caches k = false ↔ p.cachingRegime = .noCache ∨ keyFits k = false := by
  unfold Proxy.caches
  cases p.cachingRegime <;> simp

/-- A GET that bypasses the cache. -/
theorem reqGetOn_direct (hc : p.caches key.text = false) :
    reqGetOn D p key =
      (getValueOn D p.db key.text).map fun a => (a.1, { p with db := a.2 }) := by
  have hcache : ¬ ((p.cachingRegime = .getCache ∨ p.cachingRegime = .onlyCache ∨
      p.cachingRegime = .defferDump) ∧ keyFits key.text = true) := by
    rw [← Proxy.caches_iff, hc]
    exact Bool.false_ne_true
  have hdirect : p.cachingRegime = .noCache ∨ ¬ keyFits key.text = true := by
    simpa using Proxy.not_caches_iff.mp hc
  unfold reqGetOn
  rw [if_neg hcache, if_pos hdirect]
  cases getValueOn D p.db key.text <;> rfl

/-- The reply for an entry of the cache. -/
def GetReply.ofEntry : Option CString → GetReply
  | some value => ⟨.ok, some value, value.strlen + 1⟩
  | none => ⟨.non, none, 0⟩

/-- A GET that the cache answers. -/
theorem reqGetOn_known (hc : p.caches key.text = true) {entry : Option CString}
    (hentry : cached p.hashes key.text = some entry) :
    reqGetOn D p key = some (.ofEntry entry, p) := by
  unfold reqGetOn
  rw [if_pos (Proxy.caches_iff.mp hc), checkHashTable_eq, hentry]
  cases entry <;> rfl

/-- A GET that asks the database has the cache know that there is no value, or the value if it
fits. -/
theorem reqGetOn_asks (hc : p.caches key.text = true) (hnone : cached p.hashes key.text = none) :
    reqGetOn D p key = (getValueOn D p.db key.text).bind fun a =>
      if a.1.value.all valueFits then
        (setHashTableOn p.hashes key a.1.value (if a.1.value = none then 1 else 0)).map
          fun hashes => (a.1, { p with db := a.2, hashes := hashes })
      else some (a.1, { p with db := a.2 }) := by
  have hreply : ∀ a ∈ getValueOn D p.db key.text, ∃ stored, a.1 = .of stored := by
    rw [getValueOn_eq]
    intro a ha
    split at ha
    · obtain ⟨b, -, rfl⟩ := Option.map_eq_some_iff.mp ha
      exact ⟨_, rfl⟩
    · cases ha
  unfold reqGetOn
  rw [if_pos (Proxy.caches_iff.mp hc), checkHashTable_eq, hnone]
  cases hget : getValueOn D p.db key.text with
  | none => rfl
  | some a =>
      obtain ⟨r, db⟩ := a
      obtain ⟨stored, rfl⟩ : ∃ stored, r = .of stored := hreply (r, db) hget
      cases stored with
      | none =>
          simp only [GetReply.of, Option.join_none, Option.isSome_none, Option.bind_eq_bind,
            Option.bind_some, if_true, Option.all_none]
          cases setHashTableOn p.hashes key none 1 <;> rfl
      | some value =>
          simp only [GetReply.of, Option.join_none, Option.isSome_none, Option.bind_eq_bind,
            Option.bind_some, reduceCtorEq, if_false, true_and, Option.all_some]
          split
          · cases setHashTableOn p.hashes key (some value) 0 <;> rfl
          · rfl

/-- The values in the cache are short. -/
theorem cached_strlen {t : Htab} {k v : CString} (hentry : cached t k = some (some v)) :
    v.strlen < dataSize := by
  obtain ⟨c, -, hvalue⟩ := Option.map_eq_some_iff.mp hentry
  have hsize : c.bytes.length = dataSize := c.size
  split at hvalue
  · cases hvalue
  · cases hvalue
    unfold Cell.value Block.str
    cases hcstr : Block.cstr (c.bytes.drop (keySize + 1)) with
    | none => decide
    | some s =>
        obtain ⟨rest, hbytes⟩ := Block.cstr_eq_some_iff.mp hcstr
        have hlength := congrArg List.length hbytes
        simp only [List.length_drop, hsize, List.length_append, Block.length_ofBytes,
          CString.length_buffer] at hlength
        simp only [Option.getD_some]
        omega

/-- The result for an entry of the cache is short. -/
theorem GetReply.ofEntry_fitsInt {t : Htab} {k : CString} {entry : Option CString}
    (hentry : cached t k = some entry) : (GetReply.ofEntry entry).FitsInt := by
  cases entry with
  | none => simp [GetReply.ofEntry, GetReply.FitsInt]
  | some value =>
      intro v hv
      cases hv
      have hlt := cached_strlen hentry
      simp only [dataSize] at hlt
      omega

theorem GetReply.all_ofText (text : CString) :
    (GetReply.ofText text).value.all valueFits = valueFits text := by
  by_cases htext : text = CString.empty
  · subst htext
    rfl
  · simp [GetReply.ofText, Option.filter, htext, GetReply.of]

/-- When a GET that asks the database has a result whose size is an `int`. -/
theorem reqGetOn_asks_fitsInt_iff (hc : p.caches key.text = true)
    (hnone : cached p.hashes key.text = none) :
    (∃ a ∈ reqGetOn D p key, a.1.FitsInt) ↔ p.GetSucceeds D key := by
  unfold Proxy.GetSucceeds
  rw [reqGetOn_asks hc hnone, getValueOn_eq]
  simp only [hc, hnone, Option.isSome_none, Bool.and_false, true_implies, Bool.true_and,
    ← exists_fetch_iff]
  by_cases hfits : FitsInt (getValueText curTableName key.text)
  · rw [if_pos hfits]
    simp only [hfits, true_and]
    cases D.fetch key.text p.db with
    | none => simp
    | some a =>
        obtain ⟨text, row⟩ := a
        simp only [Option.map_some, Option.bind_some, GetReply.all_ofText, Option.mem_def,
          Option.some_inj, exists_eq_left']
        by_cases hvalue : valueFits text = true
        · -- the value is copied into the cell, behind the key
          have hcell := @setHashTableOn_isSome_iff key p.hashes (GetReply.ofText text).value
            (if (GetReply.ofText text).value = none then 1 else 0)
          rw [Option.isSome_iff_exists] at hcell
          simp only [hvalue, if_true, Option.map_eq_some_iff, ← GetReply.ofText_fitsInt,
            true_implies, ← hcell]
          constructor
          · rintro ⟨a, ⟨hashes, hhashes, rfl⟩, hfitsInt⟩
            exact ⟨hfitsInt, hashes, hhashes⟩
          · rintro ⟨hfitsInt, hashes, hhashes⟩
            exact ⟨_, ⟨hashes, hhashes, rfl⟩, hfitsInt⟩
        · simp [hvalue, GetReply.ofText_fitsInt]
  · simp [hfits]

/-- When a GET that bypasses the cache has a result whose size is an `int`. -/
theorem reqGetOn_direct_fitsInt_iff (hc : p.caches key.text = false) :
    (∃ a ∈ reqGetOn D p key, a.1.FitsInt) ↔ p.GetSucceeds D key := by
  unfold Proxy.GetSucceeds
  rw [reqGetOn_direct hc, getValueOn_eq]
  by_cases hfits : FitsInt (getValueText curTableName key.text)
  · simp only [hc, hfits, Bool.false_and, Bool.false_eq_true, if_true, false_implies,
      true_implies, true_and]
    refine Iff.trans ?_ (@exists_fetch_iff D p.db key.text fun _ => True)
    simp only [Option.mem_def, Option.map_map, Option.map_eq_some_iff]
    constructor
    · rintro ⟨_, ⟨a, ha, rfl⟩, hfitsInt⟩
      exact ⟨a, ha, GetReply.ofText_fitsInt.mp hfitsInt, trivial⟩
    · rintro ⟨a, ha, hlength, -⟩
      exact ⟨_, ⟨a, ha, rfl⟩, GetReply.ofText_fitsInt.mpr hlength⟩
  · simp [hc, hfits]

/-- When a GET has a result whose size is an `int`. -/
theorem reqGetOn_fitsInt_iff :
    (∃ a ∈ reqGetOn D p key, a.1.FitsInt) ↔ p.GetSucceeds D key := by
  by_cases hc : p.caches key.text = true
  · cases hentry : cached p.hashes key.text with
    | some entry =>
        unfold Proxy.GetSucceeds
        simp [reqGetOn_known hc hentry, hc, hentry, GetReply.ofEntry_fitsInt hentry]
    | none => exact reqGetOn_asks_fitsInt_iff hc hentry
  · exact reqGetOn_direct_fitsInt_iff (by simpa using hc)

/-- A SET that bypasses the cache. -/
theorem reqSetOn_direct (hc : (p.caches key.text && valueFits value) = false) :
    reqSetOn D p key value =
      (setValueOn D p.db key.text value).map fun a => (a.1, { p with db := a.2 }) := by
  have hdirect : p.cachingRegime = .noCache ∨ (keyFits key.text && valueFits value) = false := by
    rw [Proxy.caches, Bool.and_assoc, Bool.and_eq_false_iff] at hc
    simpa using hc
  unfold reqSetOn
  rcases hdirect with hr | hlarge
  · simp only [hr, reduceCtorEq, false_and, or_self, true_or, if_false, if_true]
    cases setValueOn D p.db key.text value <;> rfl
  · simp only [hlarge, Bool.false_eq_true, and_false, if_false, not_false_eq_true, or_true, if_true]
    cases setValueOn D p.db key.text value <;> rfl

section Fits

variable (hc : (p.caches key.text && valueFits value) = true)
include hc

theorem fitInCache_of_caches : (keyFits key.text && valueFits value) = true := by
  rw [Proxy.caches, Bool.and_assoc, Bool.and_eq_true_iff] at hc
  exact hc.2

/-- A SET that writes to the database and behind it to the cache. -/
theorem reqSetOn_getCache (hr : p.cachingRegime = .getCache) :
    reqSetOn D p key value = (setValueOn D p.db key.text value).bind fun a =>
      (setHashTableOn p.hashes key (some value) 0).map fun hashes =>
        (.ok, { p with db := a.2, hashes := hashes }) := by
  have hok : ∀ a ∈ setValueOn D p.db key.text value, a.1 = .ok := by
    rw [setValueOn_eq]
    intro a ha
    split at ha
    · obtain ⟨db, -, rfl⟩ := Option.map_eq_some_iff.mp ha
      rfl
    · cases ha
  simp only [reqSetOn, hr, fitInCache_of_caches hc, and_self, if_true]
  cases hset : setValueOn D p.db key.text value with
  | none => rfl
  | some a =>
      obtain ⟨res, db⟩ := a
      obtain rfl : res = .ok := hok (res, db) hset
      cases setHashTableOn p.hashes key (some value) 0 <;> rfl

/-- A SET that writes to the cache alone. -/
theorem reqSetOn_onlyCache (hr : p.cachingRegime = .onlyCache) :
    reqSetOn D p key value = (setHashTableOn p.hashes key (some value) 0).map fun hashes =>
      (.ok, { p with hashes := hashes }) := by
  simp only [reqSetOn, hr, fitInCache_of_caches hc, reduceCtorEq, false_and, if_false, true_or,
    and_self, if_true]
  cases setHashTableOn p.hashes key (some value) 0 <;> rfl

/-- A SET that writes to the cache and behind it to the log. -/
theorem reqSetOn_deffer (hr : p.cachingRegime = .defferDump) :
    reqSetOn D p key value = (setHashTableOn p.hashes key (some value) 0).bind fun hashes =>
      (addLogOn D { p with hashes := hashes } .set key.text (some value)).map (afterLog .ok) := by
  simp only [reqSetOn, hr, fitInCache_of_caches hc, reduceCtorEq, false_and, if_false, or_true,
    and_self, if_true]
  cases setHashTableOn p.hashes key (some value) 0 <;> rfl

end Fits

/-- A DEL that bypasses the cache. -/
theorem reqDelOn_direct (hc : p.caches key.text = false) :
    reqDelOn D p key =
      (delValueOn D p.db key.text).map fun a => (a.1, { p with db := a.2 }) := by
  unfold reqDelOn
  rcases Proxy.not_caches_iff.mp hc with hr | hlarge
  · simp only [hr, reduceCtorEq, false_and, or_self, true_or, if_false, if_true]
    cases delValueOn D p.db key.text <;> rfl
  · simp only [hlarge, Bool.false_eq_true, and_false, if_false, not_false_eq_true, or_true, if_true]
    cases delValueOn D p.db key.text <;> rfl

/-- The key is deleted from the database, unless the cache knows it. -/
theorem delCachedOn_eq (k : CString) :
    delCachedOn D p k =
      match cached p.hashes k with
      | some entry => some (Tiers.deleted entry.isSome, p.db)
      | none => delValueOn D p.db k := by
  unfold delCachedOn
  rw [checkHashTable_eq]
  cases cached p.hashes k with
  | none => rfl
  | some entry => cases entry <;> rfl

section Fits

variable (hc : p.caches key.text = true)
include hc

/-- A DEL that deletes from the database and behind it from the cache. -/
theorem reqDelOn_getCache (hr : p.cachingRegime = .getCache) :
    reqDelOn D p key = (delValueOn D p.db key.text).bind fun a =>
      (setHashTableOn p.hashes key none 1).map fun hashes =>
        (a.1, { p with db := a.2, hashes := hashes }) := by
  have hne : ∀ a ∈ delValueOn D p.db key.text, a.1 ≠ .errReq := by
    rw [delValueOn_eq]
    intro a ha
    split at ha
    · obtain ⟨b, -, rfl⟩ := Option.map_eq_some_iff.mp ha
      exact Tiers.deleted_ne_errReq b.1
    · cases ha
  have hfits := (Proxy.caches_iff.mp hc).2
  simp only [reqDelOn, hr, hfits, and_self, if_true]
  cases hdel : delValueOn D p.db key.text with
  | none => rfl
  | some a =>
      obtain ⟨res, db⟩ := a
      have hres : res ≠ .errReq := hne (res, db) hdel
      simp only [Option.bind_eq_bind, Option.bind_some, hres, ne_eq, not_false_eq_true, if_true]
      cases setHashTableOn p.hashes key none 1 <;> rfl

/-- A DEL that deletes from the cache, and from the database what the cache does not know. -/
theorem reqDelOn_onlyCache (hr : p.cachingRegime = .onlyCache) :
    reqDelOn D p key = (delCachedOn D p key.text).bind fun a =>
      (setHashTableOn p.hashes key none 1).map fun hashes =>
        (a.1, { p with db := a.2, hashes := hashes }) := by
  have hfits := (Proxy.caches_iff.mp hc).2
  simp only [reqDelOn, hr, hfits, reduceCtorEq, false_and, if_false, true_or, and_self, if_true]
  cases delCachedOn D p key.text with
  | none => rfl
  | some a => cases setHashTableOn p.hashes key none 1 <;> rfl

/-- A DEL that is logged besides. -/
theorem reqDelOn_deffer (hr : p.cachingRegime = .defferDump) :
    reqDelOn D p key = (delCachedOn D p key.text).bind fun a =>
      (setHashTableOn p.hashes key none 1).bind fun hashes =>
        (addLogOn D { p with db := a.2, hashes := hashes } .del key.text none).map
          (afterLog a.1) := by
  have hfits := (Proxy.caches_iff.mp hc).2
  simp only [reqDelOn, hr, hfits, reduceCtorEq, false_and, if_false, or_true, and_self, if_true]
  cases delCachedOn D p key.text with
  | none => rfl
  | some a => cases setHashTableOn p.hashes key none 1 <;> rfl

end Fits

/-- A key whose statement is too long for an `int` does not fit the cache. -/
theorem keyFits_of_not_fitsInt {k : CString} {n : Nat} {text : List UInt8}
    (hlength : text.length ≤ k.strlen + n) (hn : n ≤ 2 ^ 30) (htext : ¬ FitsInt text) :
    keyFits k = false := by
  unfold FitsInt at htext
  rw [keyFits, decide_eq_false_iff_not, keySize]
  omega

theorem reqGetOn_of_not_fitsInt (htext : ¬ FitsInt (getValueText curTableName key.text)) :
    reqGetOn D p key = none := by
  have hlength : (getValueText curTableName key.text).length ≤ key.text.strlen + 26 := by
    rw [length_getValueText, selctReqvSize]
    exact (by decide : curTableName.strlen = 7) ▸ by omega
  have hkey := keyFits_of_not_fitsInt hlength (by decide) htext
  rw [reqGetOn_direct (Proxy.not_caches_iff.mpr (.inr hkey)), getValueOn_eq, if_neg htext]
  rfl

theorem reqSetOn_of_not_fitsInt (hvalue : valueFits value = true)
    (htext : ¬ FitsInt (setValueText curTableName key.text value)) :
    reqSetOn D p key value = none := by
  have hlength : (setValueText curTableName key.text value).length ≤ key.text.strlen + 127 := by
    rw [valueFits, decide_eq_true_eq, valueSize, dataSize, keySize] at hvalue
    rw [length_setValueText, updateReqvSize]
    exact (by decide : curTableName.strlen = 7) ▸ by omega
  have hkey := keyFits_of_not_fitsInt hlength (by decide) htext
  rw [reqSetOn_direct (by simp [Proxy.caches, hkey]), setValueOn_eq, if_neg htext]
  rfl

theorem reqDelOn_of_not_fitsInt (htext : ¬ FitsInt (delValueText curTableName key.text)) :
    reqDelOn D p key = none := by
  have hlength : (delValueText curTableName key.text).length ≤ key.text.strlen + 37 := by
    rw [length_delValueText, deleteReqvSize]
    exact (by decide : curTableName.strlen = 7) ▸ by omega
  have hkey := keyFits_of_not_fitsInt hlength (by decide) htext
  rw [reqDelOn_direct (Proxy.not_caches_iff.mpr (.inr hkey)), delValueOn_eq, if_neg htext]
  rfl

end Requests

/-! ## What a result leaves -/

/-- The log is in order, and the regime is the same. -/
structure Proxy.Keeps (p p' : Proxy) : Prop where
  inv : p'.Inv
  cachingRegime_eq : p'.cachingRegime = p.cachingRegime

section Results

variable {D : Database} {p p' : Proxy} (hp : p.Inv) {key : Argument} {value : CString}
include hp

theorem Proxy.Inv.keeps_with (db : Hstore) (hashes : Htab) :
    p.Keeps { p with db := db, hashes := hashes } :=
  ⟨hp.with_maps db hashes, rfl⟩

/-- A log that is not empty is synchronized by its transaction. -/
theorem syncWithDbOn_eq_of_log {lg : Logger} (hlg : p.logger = some lg) :
    syncWithDbOn D p =
      if lg.countOperation = 0 then some (0, p)
      else (D.transaction lg.entries p.db).map fun db =>
        (0, { p with db := db, logger := some lg.clear }) := by
  have hinv := hp.logger_inv lg hlg
  have hempty : (lg.nodes = [] ∨ lg.sumSizeOperation = 0) ↔ lg.countOperation = 0 := by
    rw [hinv.sum_eq_zero_iff]
    refine ⟨fun h => h.elim (fun hnodes => ?_) id, .inr⟩
    have hle := hinv.count_le_length
    rw [hnodes] at hle
    exact Nat.le_zero.mp hle
  have hchain : ¬ lg.nodes.length < lg.countOperation := Nat.not_lt.mpr hinv.count_le_length
  simp only [syncWithDbOn, hlg, hempty, if_neg hchain]
  split
  · rfl
  · cases D.transaction lg.entries p.db <;> rfl

theorem syncWithDbOn_keeps {rc : Int} (hsync : syncWithDbOn D p = some (rc, p')) :
    p.Keeps p' ∧ (p.cachingRegime = .defferDump → rc = 0) := by
  cases hlg : p.logger with
  | none =>
      simp only [syncWithDbOn, hlg, Option.some.injEq, Prod.mk.injEq] at hsync
      obtain ⟨-, rfl⟩ := hsync
      refine ⟨⟨hp, rfl⟩, fun hr => ?_⟩
      obtain ⟨lg, hsome, -⟩ := hp.logger_of_deffer hr
      rw [hlg] at hsome
      cases hsome
  | some lg =>
      have hr : p.cachingRegime = .defferDump := hp.logger_isSome_iff.mp (by rw [hlg]; rfl)
      rw [syncWithDbOn_eq_of_log hp hlg] at hsync
      split at hsync
      · cases hsync
        exact ⟨⟨hp, rfl⟩, fun _ => rfl⟩
      · obtain ⟨db, -, heq⟩ := Option.map_eq_some_iff.mp hsync
        cases heq
        refine ⟨⟨⟨by simp [hr], ?_⟩, rfl⟩, fun _ => rfl⟩
        rintro lg' hlg'
        cases hlg'
        exact lg.clear_inv

omit hp in
/-- An operation is logged, and a full log synchronized. -/
theorem addLogOn_eq_of_log {lg : Logger} (hlg : p.logger = some lg) (opName : OperationName)
    (k : CString) (stored : Option CString) :
    addLogOn D p opName k stored =
      if (lg.record lg.target opName k stored).countOperation = maxCountOperation then
        syncWithDbOn D { p with logger := some (lg.record lg.target opName k stored) }
      else some (0, { p with logger := some (lg.record lg.target opName k stored) }) := by
  simp only [addLogOn, hlg, Logger.append_eq_record]

theorem Proxy.Inv.record {lg : Logger} (hlg : p.logger = some lg) (opName : OperationName)
    (k : CString) (stored : Option CString) :
    Proxy.Inv { p with logger := some (lg.record lg.target opName k stored) } where
  logger_isSome_iff := by
    have hr := hp.logger_isSome_iff
    rw [hlg] at hr
    exact hr
  logger_inv := by
    rintro lg' hlg'
    cases hlg'
    exact Logger.record_inv (Logger.target_spec (hp.logger_inv lg hlg)).1 opName

theorem addLogOn_keeps {opName : OperationName} {k : CString} {stored : Option CString} {rc : Int}
    (hlog : addLogOn D p opName k stored = some (rc, p')) :
    p.Keeps p' ∧ (p.cachingRegime = .defferDump → rc = 0) := by
  cases hlg : p.logger with
  | none =>
      simp only [addLogOn, hlg, Option.some.injEq, Prod.mk.injEq] at hlog
      obtain ⟨-, rfl⟩ := hlog
      refine ⟨⟨hp, rfl⟩, fun hr => ?_⟩
      obtain ⟨lg, hsome, -⟩ := hp.logger_of_deffer hr
      rw [hlg] at hsome
      cases hsome
  | some lg =>
      rw [addLogOn_eq_of_log hlg] at hlog
      have hrecord := hp.record hlg opName k stored
      split at hlog
      · obtain ⟨hkeeps, hrc⟩ := syncWithDbOn_keeps hrecord hlog
        exact ⟨⟨hkeeps.inv, hkeeps.cachingRegime_eq⟩, hrc⟩
      · cases hlog
        exact ⟨⟨hrecord, rfl⟩, fun _ => rfl⟩

theorem addLogOn_isSome_iff {k : CString} {stored : Option CString} :
    (addLogOn D p (Logger.nameOf stored) k stored).isSome ↔
      LogSucceeds D p.db p.logger k stored := by
  unfold LogSucceeds
  cases hlg : p.logger with
  | none => simp [addLogOn, hlg]
  | some lg =>
      rw [addLogOn_eq_of_log hlg]
      simp only [Option.mem_def, Option.some_inj, forall_eq']
      split
      · rename_i hfull
        have hcount :
            ¬ (lg.record lg.target (Logger.nameOf stored) k stored).countOperation = 0 := by
          rw [hfull]
          decide
        rw [syncWithDbOn_eq_of_log (hp.record hlg _ k stored) rfl, if_neg hcount, Option.isSome_map]
        simp [hfull]
      · rename_i hroom
        simp [hroom]

/-- A reply with a value and its length, or with none. -/
def GetReply.Known (r : GetReply) : Prop :=
  (∃ value, r = .of (some value) ∧ value.strlen < 2 ^ 31) ∨ r.res = .non ∧ r.value = none

/-- What a GET replies is known. -/
theorem reqGetOn_keeps {r : GetReply} (hget : reqGetOn D p key = some (r, p')) :
    p.Keeps p' ∧ r.Known := by
  have hreply : ∀ a ∈ getValueOn D p.db key.text, a.1.Known := by
    rw [getValueOn_eq]
    intro a ha
    split at ha
    · obtain ⟨b, hb, rfl⟩ := Option.map_eq_some_iff.mp ha
      obtain ⟨-, hlength⟩ := Option.filter_eq_some_iff.mp hb
      by_cases htext : b.1 = CString.empty
      · rw [htext]
        exact .inr ⟨rfl, rfl⟩
      · exact .inl ⟨b.1, by simp [GetReply.ofText, Option.filter, htext], by simpa using hlength⟩
    · cases ha
  by_cases hc : p.caches key.text = true
  · cases hentry : cached p.hashes key.text with
    | some entry =>
        rw [reqGetOn_known hc hentry] at hget
        cases hget
        refine ⟨⟨hp, rfl⟩, ?_⟩
        cases entry with
        | some stored =>
            have hlt := cached_strlen hentry
            simp only [dataSize] at hlt
            exact .inl ⟨stored, rfl, by omega⟩
        | none => exact .inr ⟨rfl, rfl⟩
    | none =>
        rw [reqGetOn_asks hc hentry, Option.bind_eq_some_iff] at hget
        obtain ⟨a, ha, hfill⟩ := hget
        split at hfill
        · obtain ⟨hashes, -, heq⟩ := Option.map_eq_some_iff.mp hfill
          cases heq
          exact ⟨hp.keeps_with a.2 hashes, hreply a ha⟩
        · cases hfill
          exact ⟨hp.keeps_with a.2 p.hashes, hreply a ha⟩
  · rw [reqGetOn_direct (by simpa using hc)] at hget
    obtain ⟨a, ha, heq⟩ := Option.map_eq_some_iff.mp hget
    cases heq
    exact ⟨hp.keeps_with a.2 p.hashes, hreply a ha⟩

/-- What is logged besides is no error. -/
theorem afterLog_keeps {res res' : ReqResult} {db : Hstore} {hashes : Htab}
    (hr : p.cachingRegime = .defferDump) {opName : OperationName} {k : CString}
    {stored : Option CString}
    (hlog : (addLogOn D { p with db := db, hashes := hashes } opName k stored).map (afterLog res) =
      some (res', p')) : p.Keeps p' ∧ res' = res := by
  obtain ⟨⟨rc, p₁⟩, hadd, heq⟩ := Option.map_eq_some_iff.mp hlog
  obtain ⟨hkeeps, hrc⟩ := addLogOn_keeps (hp.with_maps db hashes) hadd
  obtain rfl : rc = 0 := hrc hr
  cases heq
  exact ⟨⟨hkeeps.inv, hkeeps.cachingRegime_eq⟩, rfl⟩

/-- A SET with a result has set the value. -/
theorem reqSetOn_keeps {res : ReqResult} (hset : reqSetOn D p key value = some (res, p')) :
    p.Keeps p' ∧ res = .ok := by
  by_cases hc : (p.caches key.text && valueFits value) = true
  · cases hr : p.cachingRegime with
    | noCache => simp [Proxy.caches, hr] at hc
    | getCache =>
        rw [reqSetOn_getCache hc hr, Option.bind_eq_some_iff] at hset
        obtain ⟨a, -, hset⟩ := hset
        obtain ⟨hashes, -, heq⟩ := Option.map_eq_some_iff.mp hset
        cases heq
        exact ⟨hp.keeps_with a.2 hashes, rfl⟩
    | onlyCache =>
        rw [reqSetOn_onlyCache hc hr] at hset
        obtain ⟨hashes, -, heq⟩ := Option.map_eq_some_iff.mp hset
        cases heq
        exact ⟨hp.keeps_with p.db hashes, rfl⟩
    | defferDump =>
        rw [reqSetOn_deffer hc hr, Option.bind_eq_some_iff] at hset
        obtain ⟨hashes, -, hset⟩ := hset
        exact afterLog_keeps hp hr hset
  · rw [reqSetOn_direct (by simpa using hc), setValueOn_eq] at hset
    split at hset
    · rw [Option.map_map] at hset
      obtain ⟨db, -, heq⟩ := Option.map_eq_some_iff.mp hset
      cases heq
      exact ⟨hp.keeps_with db p.hashes, rfl⟩
    · cases hset

/-- A DEL with a result has deleted the key, or not found it. -/
theorem reqDelOn_keeps {res : ReqResult} (hdel : reqDelOn D p key = some (res, p')) :
    p.Keeps p' ∧ ∃ present, res = Tiers.deleted present := by
  have hvalue : ∀ a ∈ delValueOn D p.db key.text, ∃ present, a.1 = Tiers.deleted present := by
    rw [delValueOn_eq]
    intro a ha
    split at ha
    · obtain ⟨b, -, rfl⟩ := Option.map_eq_some_iff.mp ha
      exact ⟨b.1, rfl⟩
    · cases ha
  have hcached : ∀ a ∈ delCachedOn D p key.text, ∃ present, a.1 = Tiers.deleted present := by
    rw [delCachedOn_eq]
    intro a ha
    split at ha
    · cases ha
      exact ⟨_, rfl⟩
    · exact hvalue a ha
  by_cases hc : p.caches key.text = true
  · cases hr : p.cachingRegime with
    | noCache => simp [Proxy.caches, hr] at hc
    | getCache =>
        rw [reqDelOn_getCache hc hr, Option.bind_eq_some_iff] at hdel
        obtain ⟨a, ha, hdel⟩ := hdel
        obtain ⟨hashes, -, heq⟩ := Option.map_eq_some_iff.mp hdel
        cases heq
        exact ⟨hp.keeps_with a.2 hashes, hvalue a ha⟩
    | onlyCache =>
        rw [reqDelOn_onlyCache hc hr, Option.bind_eq_some_iff] at hdel
        obtain ⟨a, ha, hdel⟩ := hdel
        obtain ⟨hashes, -, heq⟩ := Option.map_eq_some_iff.mp hdel
        cases heq
        exact ⟨hp.keeps_with a.2 hashes, hcached a ha⟩
    | defferDump =>
        rw [reqDelOn_deffer hc hr, Option.bind_eq_some_iff] at hdel
        obtain ⟨a, ha, hdel⟩ := hdel
        obtain ⟨hashes, -, hdel⟩ := Option.bind_eq_some_iff.mp hdel
        obtain ⟨hkeeps, rfl⟩ := afterLog_keeps hp hr hdel
        exact ⟨hkeeps, hcached a ha⟩
  · rw [reqDelOn_direct (by simpa using hc)] at hdel
    obtain ⟨a, ha, heq⟩ := Option.map_eq_some_iff.mp hdel
    cases heq
    exact ⟨hp.keeps_with a.2 p.hashes, hvalue a ha⟩

/-- When a SET has a result. -/
theorem reqSetOn_isSome_iff : (reqSetOn D p key value).isSome ↔ p.SetSucceeds D key value := by
  unfold Proxy.SetSucceeds
  by_cases hc : (p.caches key.text && valueFits value) = true
  · rw [if_pos hc]
    cases hr : p.cachingRegime with
    | noCache => simp [Proxy.caches, hr] at hc
    | getCache =>
        rw [reqSetOn_getCache hc hr]
        have hset := @setValueOn_isSome_iff D p.db key.text value
        cases hvalue : setValueOn D p.db key.text value with
        | none => simp [← hset, hvalue]
        | some a => simp [← hset, hvalue, setHashTableOn_isSome_iff]
    | onlyCache =>
        rw [reqSetOn_onlyCache hc hr]
        simp [setHashTableOn_isSome_iff]
    | defferDump =>
        rw [reqSetOn_deffer hc hr]
        have hcell := @setHashTableOn_isSome_iff key p.hashes (some value) 0
        cases hhashes : setHashTableOn p.hashes key (some value) 0 with
        | none => simp [← hcell, hhashes]
        | some hashes =>
            have hlog := @addLogOn_isSome_iff D _ (hp.with_maps p.db hashes) key.text (some value)
            simp only [Logger.nameOf, Option.isSome_some, if_true] at hlog
            simp [← hcell, hhashes, hlog]
  · rw [if_neg hc, reqSetOn_direct (by simpa using hc), Option.isSome_map, setValueOn_isSome_iff]

/-- When a DEL of one key has a result. -/
theorem reqDelOn_isSome_iff : (reqDelOn D p key).isSome ↔ p.DelSucceeds D key := by
  have hcell := @setHashTableOn_isSome_iff key p.hashes none 1
  have hremove := @delValueOn_isSome_iff D p.db key.text
  unfold Proxy.DelSucceeds
  by_cases hc : p.caches key.text = true
  · rw [if_pos hc]
    cases hr : p.cachingRegime with
    | noCache => simp [Proxy.caches, hr] at hc
    | getCache =>
        rw [reqDelOn_getCache hc hr]
        cases hvalue : delValueOn D p.db key.text with
        | none => simp [← hremove, hvalue]
        | some a => simp [← hremove, ← hcell, hvalue]
    | onlyCache =>
        rw [reqDelOn_onlyCache hc hr, delCachedOn_eq]
        cases hentry : cached p.hashes key.text with
        | some entry => simp [← hcell]
        | none =>
            cases hvalue : delValueOn D p.db key.text with
            | none => simp [← hremove, hvalue]
            | some a => simp [← hremove, ← hcell, hvalue]
    | defferDump =>
        have hlog : ∀ (row : Hstore) (hashes : Htab),
            (addLogOn D { p with db := row, hashes := hashes } .del key.text none).isSome ↔
              LogSucceeds D row p.logger key.text none :=
          fun row hashes => @addLogOn_isSome_iff D _ (hp.with_maps row hashes) key.text none
        rw [reqDelOn_deffer hc hr, delCachedOn_eq]
        cases hentry : cached p.hashes key.text with
        | some entry =>
            cases hhashes : setHashTableOn p.hashes key none 1 with
            | none => simp [← hcell, hhashes]
            | some hashes => simp [← hcell, hhashes, hlog]
        | none =>
            cases hvalue : delValueOn D p.db key.text with
            | none => simp [← hremove, hvalue]
            | some a =>
                have hrow : (D.remove key.text p.db).map Prod.snd = some a.2 := by
                  rw [delValueOn_eq] at hvalue
                  split at hvalue
                  · obtain ⟨b, hb, rfl⟩ := Option.map_eq_some_iff.mp hvalue
                    rw [hb]
                    rfl
                  · cases hvalue
                cases hhashes : setHashTableOn p.hashes key none 1 with
                | none => simp [← hcell, hhashes]
                | some hashes => simp [← hcell, ← hremove, hvalue, hhashes, hlog, hrow]
  · rw [if_neg hc, reqDelOn_direct (by simpa using hc), Option.isSome_map, hremove]

end Results

end PgRedisProxy
