import PgRedisProxy.Cache.ProxyHash
import PgRedisProxy.Store.Logger
import PgRedisProxy.Store.WorkWithDb

/-!
# Requests under the four caching regimes (`send_req_postgres`)

`reqGet`, `reqSet`, and `reqDel` choose between the cache, the log, and the
database by the caching regime and by whether the key and the value fit the cache.
`syncWithDb` runs the logged operations as one transaction. Every function takes
the failures its callees report as a `Faults` record; `none` as a result is a write
or read through a null pointer. `Proxy.run` is a sequence of requests and
synchronizations in any order.
-/

namespace PgRedisProxy

open CLang

/-- `enum dump_status`, the caching regimes. -/
inductive DumpStatus where
  | noCache
  | getCache
  | onlyCache
  | defferDump
  deriving DecidableEq, Repr

/-- The state of the worker that requests act on. `logger` is `none` while `logger_op` is `NULL`,
and `hashes` is the hash table of the current database number. -/
structure Proxy where
  cachingRegime : DumpStatus
  db : Hstore
  hashes : Htab
  logger : Option Logger

/-- Which callees of a request fail: its SQL statements, the allocation of a log node, the
transaction of a synchronization. -/
structure Faults where
  sql : Bool
  alloc : Bool
  transaction : Bool

/-- Every callee succeeds. -/
def Faults.none : Faults := ⟨false, false, false⟩

/-- A key that fits the cache: `strlen(key) + 1 < KEY_SIZE`. -/
def keyFits (key : CString) : Bool :=
  key.strlen + 1 < keySize

/-- A value that fits the cache: `strlen(value) + 1 < VALUE_SIZE`. -/
def valueFits (value : CString) : Bool :=
  value.strlen + 1 < valueSize

/-- A key that fits the cache, for examples. -/
def sampleKey : CString := ⟨ascii "k", by decide⟩

/-- A value that fits the cache. -/
def smallValue : CString := ⟨ascii "a", by decide⟩

/-- A value one byte too long for the cache. -/
def largeValue : CString := ⟨List.replicate 98 98, by decide⟩

/-- The worker at start-up: the cache is empty, and only `DEFFER_DUMP` has a log. -/
def Proxy.start (regime : DumpStatus) (db : Hstore) : Proxy where
  cachingRegime := regime
  db := db
  hashes := []
  logger := if regime = .defferDump then some .init else none

/-- `sync_with_db` -/
def syncWithDb (flt : Faults) (p : Proxy) : Option (Int × Proxy) :=
  match p.logger with
  | none => some (-1, p)
  | some lg =>
      if lg.nodes = [] ∨ lg.sumSizeOperation = 0 then some (0, p)
      else if lg.nodes.length < lg.countOperation then none
      else if flt.transaction then some (-1, p)
      else some (0, { p with
        db := KeyValue.replay p.db lg.pending
        logger := some lg.clear })

/-- `add_log` -/
def addLog (flt : Faults) (p : Proxy) (opName : OperationName) (key : CString)
    (value : Option CString) : Option (Int × Proxy) :=
  match p.logger with
  | none => some (-1, p)
  | some lg =>
      match lg.append flt.alloc opName key value with
      | .noMemory => some (-1, p)
      | .nullPointer => none
      | .added lg =>
          let p := { p with logger := some lg }
          if lg.countOperation = maxCountOperation then syncWithDb flt p else some (0, p)

/-- `req_get`. A live cache entry answers, a deleted one means `NON`, and a key without an entry is
read from the database and cached if the value fits. -/
def reqGet (flt : Faults) (p : Proxy) (key : CString) : GetReply × Proxy :=
  if (p.cachingRegime = .getCache ∨ p.cachingRegime = .onlyCache ∨
      p.cachingRegime = .defferDump) ∧ keyFits key then
    match checkHashTable p.hashes key with
    | (some value, _) => (⟨.ok, some value, value.strlen + 1⟩, p)
    | (none, true) => (⟨.non, none, 0⟩, p)
    | (none, false) =>
        let r := getValue flt.sql p.db key
        if r.res = .non then
          (r, { p with hashes := setHashTable p.hashes key r.value 1 })
        else
          match r.value with
          | some value =>
              if r.res = .ok ∧ valueFits value then
                (r, { p with hashes := setHashTable p.hashes key (some value) 0 })
              else (r, p)
          | none => (r, p)
  else if p.cachingRegime = .noCache ∨ ¬ keyFits key then
    (getValue flt.sql p.db key, p)
  else (⟨.errReq, none, 0⟩, p)

/-- `req_set` -/
def reqSet (flt : Faults) (p : Proxy) (key value : CString) : Option (ReqResult × Proxy) :=
  let fitInCache := keyFits key && valueFits value
  if p.cachingRegime = .getCache ∧ fitInCache then
    let (res, db) := setValue flt.sql p.db key value
    let p := { p with db := db }
    if res ≠ .errReq then
      some (res, { p with hashes := setHashTable p.hashes key (some value) 0 })
    else some (res, p)
  else if (p.cachingRegime = .onlyCache ∨ p.cachingRegime = .defferDump) ∧ fitInCache then
    let p := { p with hashes := setHashTable p.hashes key (some value) 0 }
    if p.cachingRegime = .defferDump then
      (addLog flt p .set key (some value)).map fun (rc, p) =>
        if rc = -1 then (.errReq, p) else (.ok, p)
    else some (.ok, p)
  else if p.cachingRegime = .noCache ∨ ¬ fitInCache then
    let (res, db) := setValue flt.sql p.db key value
    some (res, { p with db := db })
  else some (.errReq, p)

/-- What `req_del` learns about the key before it marks it deleted, when the regime asks the cache
first: a key without an entry is deleted from the database. -/
def delCached (fails : Bool) (p : Proxy) (key : CString) : ReqResult × Hstore :=
  match checkHashTable p.hashes key with
  | (some _, true) => (.ok, p.db)
  | (none, true) => (.non, p.db)
  | (_, false) => delValue fails p.db key

/-- `req_del` -/
def reqDel (flt : Faults) (p : Proxy) (key : CString) : Option (ReqResult × Proxy) :=
  if p.cachingRegime = .getCache ∧ keyFits key then
    let (res, db) := delValue flt.sql p.db key
    let p := { p with db := db }
    if res ≠ .errReq then
      some (res, { p with hashes := setHashTable p.hashes key none 1 })
    else some (res, p)
  else if (p.cachingRegime = .onlyCache ∨ p.cachingRegime = .defferDump) ∧ keyFits key then
    let (res, db) := delCached flt.sql p key
    let p := { p with db := db, hashes := setHashTable p.hashes key none 1 }
    if p.cachingRegime = .defferDump then
      (addLog flt p .del key none).map fun (rc, p) =>
        if rc = -1 then (.errReq, p) else (res, p)
    else some (res, p)
  else if p.cachingRegime = .noCache ∨ ¬ keyFits key then
    let (res, db) := delValue flt.sql p.db key
    some (res, { p with db := db })
  else some (.errReq, p)

/-! ## What they come to -/

/-- What `req_set` and `req_del` return behind `add_log`. -/
def afterLog (res : ReqResult) : Int × Proxy → ReqResult × Proxy :=
  fun (rc, p) => if rc = -1 then (.errReq, p) else (res, p)

section Cases

variable (flt : Faults) (p : Proxy)

/-- `req_set` writes to the database alone, or to the database and behind it to the cache, or to the
cache alone, or to the cache and behind it to the log. -/
theorem reqSet_cases (key value : CString) :
    (p.cachingRegime = .noCache ∨ (keyFits key && valueFits value) = false) ∧
      reqSet flt p key value =
        some ((setValue flt.sql p.db key value).1,
          { p with db := (setValue flt.sql p.db key value).2 }) ∨
    (keyFits key && valueFits value) = true ∧
      (p.cachingRegime = .getCache ∧
          ((setValue flt.sql p.db key value).1 = .errReq ∧
            reqSet flt p key value =
              some (.errReq, { p with db := (setValue flt.sql p.db key value).2 }) ∨
          (setValue flt.sql p.db key value).1 ≠ .errReq ∧
            reqSet flt p key value =
              some ((setValue flt.sql p.db key value).1,
                { p with
                  db := (setValue flt.sql p.db key value).2
                  hashes := setHashTable p.hashes key (some value) 0 })) ∨
        p.cachingRegime = .onlyCache ∧
          reqSet flt p key value =
            some (.ok, { p with hashes := setHashTable p.hashes key (some value) 0 }) ∨
        p.cachingRegime = .defferDump ∧
          reqSet flt p key value =
            (addLog flt { p with hashes := setHashTable p.hashes key (some value) 0 } .set key
              (some value)).map (afterLog .ok)) := by
  unfold reqSet
  cases hfits : keyFits key && valueFits value with
  | false => exact .inl ⟨.inr rfl, by simp⟩
  | true =>
      cases hr : p.cachingRegime with
      | noCache => exact .inl ⟨.inl rfl, by simp⟩
      | getCache =>
          by_cases hres : (setValue flt.sql p.db key value).1 = .errReq
          · exact .inr ⟨rfl, .inl ⟨rfl, .inl ⟨hres, by simp [hres]⟩⟩⟩
          · exact .inr ⟨rfl, .inl ⟨rfl, .inr ⟨hres, by simp [hres]⟩⟩⟩
      | onlyCache => exact .inr ⟨rfl, .inr (.inl ⟨rfl, by simp⟩)⟩
      | defferDump =>
          refine .inr ⟨rfl, .inr (.inr ⟨rfl, ?_⟩)⟩
          simp only [reduceCtorEq, or_true, and_true, if_false, if_true]
          rfl

/-- `req_del` writes to the database alone, or to the database and behind it to the cache, or to the
cache and, where the cache does not know the key, to the database before, and then perhaps to the
log. -/
theorem reqDel_cases (key : CString) :
    (p.cachingRegime = .noCache ∨ keyFits key = false) ∧
      reqDel flt p key =
        some ((delValue flt.sql p.db key).1, { p with db := (delValue flt.sql p.db key).2 }) ∨
    keyFits key = true ∧
      (p.cachingRegime = .getCache ∧
          ((delValue flt.sql p.db key).1 = .errReq ∧
            reqDel flt p key =
              some (.errReq, { p with db := (delValue flt.sql p.db key).2 }) ∨
          (delValue flt.sql p.db key).1 ≠ .errReq ∧
            reqDel flt p key =
              some ((delValue flt.sql p.db key).1,
                { p with
                  db := (delValue flt.sql p.db key).2
                  hashes := setHashTable p.hashes key none 1 })) ∨
        p.cachingRegime = .onlyCache ∧
          reqDel flt p key =
            some ((delCached flt.sql p key).1,
              { p with
                db := (delCached flt.sql p key).2
                hashes := setHashTable p.hashes key none 1 }) ∨
        p.cachingRegime = .defferDump ∧
          reqDel flt p key =
            (addLog flt { p with
              db := (delCached flt.sql p key).2
              hashes := setHashTable p.hashes key none 1 } .del key none).map
                (afterLog (delCached flt.sql p key).1)) := by
  unfold reqDel
  cases hfits : keyFits key with
  | false => exact .inl ⟨.inr rfl, by simp⟩
  | true =>
      cases hr : p.cachingRegime with
      | noCache => exact .inl ⟨.inl rfl, by simp⟩
      | getCache =>
          by_cases hres : (delValue flt.sql p.db key).1 = .errReq
          · exact .inr ⟨rfl, .inl ⟨rfl, .inl ⟨hres, by simp [hres]⟩⟩⟩
          · exact .inr ⟨rfl, .inl ⟨rfl, .inr ⟨hres, by simp [hres]⟩⟩⟩
      | onlyCache => exact .inr ⟨rfl, .inr (.inl ⟨rfl, by simp⟩)⟩
      | defferDump =>
          refine .inr ⟨rfl, .inr (.inr ⟨rfl, ?_⟩)⟩
          simp only [reduceCtorEq, or_true, and_true, if_false, if_true]
          rfl

/-- `req_get` replies with what the cache knows about the key. Else it replies with what `get_value`
reports, and has the cache know that there is no value, or the value if it fits. -/
theorem reqGet_cases (key : CString) :
    (p.cachingRegime = .noCache ∨ keyFits key = false) ∧
      reqGet flt p key = (getValue flt.sql p.db key, p) ∨
    (p.cachingRegime ≠ .noCache ∧ keyFits key = true) ∧
      ((∃ value, cached p.hashes key = some (some value) ∧
          reqGet flt p key = (⟨.ok, some value, value.strlen + 1⟩, p)) ∨
        cached p.hashes key = some none ∧ reqGet flt p key = (⟨.non, none, 0⟩, p) ∨
        cached p.hashes key = none ∧
          ((getValue flt.sql p.db key).res = .non ∧
              reqGet flt p key =
                (getValue flt.sql p.db key, { p with hashes := setHashTable p.hashes key none 1 }) ∨
            (∃ value, getValue flt.sql p.db key = ⟨.ok, some value, value.strlen + 1⟩ ∧
              valueFits value = true ∧
              reqGet flt p key =
                (getValue flt.sql p.db key,
                  { p with hashes := setHashTable p.hashes key (some value) 0 })) ∨
            ((getValue flt.sql p.db key).res ≠ .non ∧
              ∀ value, (getValue flt.sql p.db key).value = some value → valueFits value = false) ∧
              reqGet flt p key = (getValue flt.sql p.db key, p))) := by
  by_cases hcache : p.cachingRegime ≠ .noCache ∧ keyFits key = true
  · have hregime : (p.cachingRegime = .getCache ∨ p.cachingRegime = .onlyCache ∨
        p.cachingRegime = .defferDump) ∧ keyFits key = true := by
      refine ⟨?_, hcache.2⟩
      cases hr : p.cachingRegime with
      | noCache => exact absurd hr hcache.1
      | getCache | onlyCache | defferDump => simp
    refine .inr ⟨hcache, ?_⟩
    unfold reqGet
    rw [if_pos hregime, checkHashTable_eq]
    cases cached p.hashes key with
    | some entry =>
        cases entry with
        | some value => exact .inl ⟨value, rfl, rfl⟩
        | none => exact .inr (.inl ⟨rfl, rfl⟩)
    | none =>
        refine .inr (.inr ⟨rfl, ?_⟩)
        rcases getValue_cases flt.sql p.db key with ⟨-, hget⟩ | ⟨-, hget⟩ | ⟨value, -, hget⟩
        · exact .inr (.inr ⟨by simp [hget], by simp [hget]⟩)
        · exact .inl ⟨by rw [hget], by simp [hget]⟩
        · cases hfits : valueFits value with
          | true => exact .inr (.inl ⟨value, hget, hfits, by simp [hget, hfits]⟩)
          | false => exact .inr (.inr ⟨by simp [hget, hfits], by simp [hget, hfits]⟩)
  · have hdirect : p.cachingRegime = .noCache ∨ keyFits key = false := by
      by_cases hr : p.cachingRegime = .noCache
      · exact .inl hr
      · exact .inr (by simpa [hr] using hcache)
    refine .inl ⟨hdirect, ?_⟩
    unfold reqGet
    rw [if_neg, if_pos]
    · simpa using hdirect
    · rintro ⟨hr, hfits⟩
      rcases hdirect with hno | hlarge
      · simp [hno] at hr
      · simp [hfits] at hlarge

end Cases

/-- A request of a client, or a run of the synchronization timer. -/
inductive Event where
  | get (key : CString)
  | set (key value : CString)
  | del (key : CString)
  | sync
  deriving DecidableEq

/-- What an event returns. -/
inductive Result where
  | got (reply : GetReply)
  | done (res : ReqResult)
  | synced (rc : Int)
  deriving DecidableEq

/-- One event. -/
def Proxy.step (p : Proxy) : Event → Option (Result × Proxy)
  | .get key => some (.got (reqGet .none p key).1, (reqGet .none p key).2)
  | .set key value => (reqSet .none p key value).map fun (res, p) => (.done res, p)
  | .del key => (reqDel .none p key).map fun (res, p) => (.done res, p)
  | .sync => (syncWithDb .none p).map fun (rc, p) => (.synced rc, p)

/-- A sequence of events, with their results. -/
def Proxy.run (p : Proxy) : List Event → Option (List Result × Proxy)
  | [] => some ([], p)
  | e :: events => do
      let (r, p) ← p.step e
      let (rs, p) ← p.run events
      some (r :: rs, p)

end PgRedisProxy
