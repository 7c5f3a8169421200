import PgRedisProxy.Store.Coherence

/-!
# Requests whose callees fail

`Proxy.stepWith` is an event where SQL statements, the allocation of a log node, or the
transaction of a forced synchronization may fail. `failure_kept_iff`, the main result,
says which requests may return `errReq` after they changed the cache or the log: those
that write the cache before they look at what their callees return. A failure of a
callee is a result that it returns here, as the checks of the callers have it. A failing
statement of `Server.Worker` does not return at all: there the error of PostgreSQL is
the end of the worker.
-/

namespace PgRedisProxy

open CLang KeyValue

/-- One event, with the failures of its callees. -/
def Proxy.stepWith (p : Proxy) (flt : Faults) : Event → Option (Result × Proxy)
  | .get key => some (.got (reqGet flt p key).1, (reqGet flt p key).2)
  | .set key value => (reqSet flt p key value).map fun (res, p) => (.done res, p)
  | .del key => (reqDel flt p key).map fun (res, p) => (.done res, p)
  | .sync => (syncWithDb flt p).map fun (rc, p) => (.synced rc, p)

/-- The state after some events with failures, unless a null pointer is met. -/
def Proxy.runWith (p : Proxy) : List (Faults × Event) → Option Proxy
  | [] => some p
  | (flt, e) :: events => do
      let (_, p) ← p.stepWith flt e
      p.runWith events

/-- A request failed. -/
def Result.IsErr : Result → Prop
  | .got reply => reply.res = .errReq
  | .done res => res = .errReq
  | .synced _ => False

/-- The entries of the cache and the logged operations are the same in both states. -/
structure Proxy.Kept (p p' : Proxy) : Prop where
  cached_eq : ∀ key, cached p'.hashes key = cached p.hashes key
  pending_eq : p'.tiers.pending = p.tiers.pending

/-- If the event fails, it keeps the cache and the log. -/
def FailureKept (flt : Faults) (p : Proxy) (e : Event) : Prop :=
  ∀ r p', p.stepWith flt e = some (r, p') → r.IsErr → p.Kept p'

namespace Logger

/-- `add_log` has a node to write to: there is one after the logged ones, or it can be allocated. -/
def HasNode (allocFails : Bool) (lg : Logger) : Prop :=
  allocFails = false ∨ ∃ c, lg.chain = some c ∧ (lg.sumSizeOperation = 0 ∨ c.next ≠ [])

/-- `add_log` cannot allocate the first node, and notices it. -/
def LacksFirst (allocFails : Bool) (lg : Logger) : Prop :=
  allocFails = true ∧ lg.chain = none

end Logger

/-- A request that wrote to the cache fails behind it: the first node of the log is missing, and the
write `changes` an entry; or the operation is logged, and then the forced synchronization fails, or
the request `fails` for an earlier reason. -/
def LogSpoils (flt : Faults) (lg : Logger) (changes fails : Prop) : Prop :=
  lg.LacksFirst flt.alloc ∧ changes ∨
    lg.HasNode flt.alloc ∧
      (lg.countOperation + 1 = maxCountOperation ∧ flt.transaction = true ∨ fails)

/-- The callees fail in such a way that the request fails after it changed the cache or the log. -/
def Spoils (flt : Faults) (p : Proxy) : Event → Prop
  | .get _ => False
  | .set key value =>
      p.cachingRegime = .defferDump ∧ (keyFits key && valueFits value) = true ∧
        ∃ lg, p.logger = some lg ∧
          LogSpoils flt lg (cached p.hashes key ≠ some (some value)) False
  | .del key =>
      keyFits key = true ∧
        (p.cachingRegime = .onlyCache ∧ cached p.hashes key = none ∧ flt.sql = true ∨
          p.cachingRegime = .defferDump ∧ ∃ lg, p.logger = some lg ∧
            LogSpoils flt lg (cached p.hashes key ≠ some none)
              (cached p.hashes key = none ∧ flt.sql = true))
  | .sync => False

/-! ## Adding an operation -/

namespace Logger

variable {allocFails : Bool} {lg : Logger}

theorem HasNode.not_lacksFirst (h : lg.HasNode allocFails) : ¬ lg.LacksFirst allocFails := by
  rintro ⟨halloc, hchain⟩
  rcases h with hsucceeds | ⟨c, hc, -⟩
  · rw [hsucceeds] at halloc
    cases halloc
  · rw [hc] at hchain
    cases hchain

theorem append_of_hasNode (h : lg.HasNode allocFails) (opName : OperationName) (key : CString)
    (value : Option CString) :
    lg.append allocFails opName key value = .added (lg.record lg.target opName key value) := by
  rw [← append_eq_record]
  rcases h with rfl | ⟨c, hc, hnode⟩
  · rfl
  · unfold append
    rw [hc]
    dsimp only
    rcases hnode with hsum | hnext
    · simp [hsum]
    · obtain ⟨node, rest, hcons⟩ := List.exists_cons_of_ne_nil hnext
      simp [hcons]

theorem append_of_lacksFirst (h : lg.LacksFirst allocFails) (opName : OperationName) (key : CString)
    (value : Option CString) : lg.append allocFails opName key value = .noMemory := by
  obtain ⟨rfl, hchain⟩ := h
  simp [append, hchain]

/-- A later node that cannot be allocated is written through a null pointer. -/
theorem append_eq_nullPointer (hnode : ¬ lg.HasNode allocFails) (hfirst : ¬ lg.LacksFirst allocFails)
    (opName : OperationName) (key : CString) (value : Option CString) :
    lg.append allocFails opName key value = .nullPointer := by
  unfold HasNode at hnode
  rw [not_or, Bool.not_eq_false] at hnode
  obtain ⟨rfl, hnone⟩ := hnode
  cases hchain : lg.chain with
  | none => exact absurd ⟨rfl, hchain⟩ hfirst
  | some c =>
      have hlast : ¬ (lg.sumSizeOperation = 0 ∨ c.next ≠ []) := fun h => hnone ⟨c, hchain, h⟩
      rw [not_or, not_not] at hlast
      simp [append, hchain, hlast]

end Logger

section AddLog

variable {flt : Faults} {p : Proxy} {lg : Logger}

/-- With operations in the log, only the transaction can fail. -/
theorem syncWithDb_eq (hlg : p.logger = some lg) (hinv : lg.Inv) (hcount : lg.countOperation ≠ 0) :
    syncWithDb flt p =
      if flt.transaction then some (-1, p)
      else some (0, { p with db := replay p.db lg.pending, logger := some lg.clear }) := by
  have hle := hinv.count_le_length
  have hnodes : lg.nodes ≠ [] := by
    intro hnil
    rw [hnil, List.length_nil] at hle
    omega
  have hsum : lg.sumSizeOperation ≠ 0 := mt hinv.sum_eq_zero_iff.mp hcount
  unfold syncWithDb
  rw [hlg]
  dsimp only
  rw [if_neg (not_or.mpr ⟨hnodes, hsum⟩), if_neg (not_lt.mpr hle)]

/-- What `add_log` can do: notice that the first node is missing, meet a null pointer, log the
operation and fail to synchronize the full log, or log the operation and return 0. -/
theorem addLog_cases (flt : Faults) (hlg : p.logger = some lg) (hinv : lg.Inv)
    (opName : OperationName) (key : CString) (value : Option CString) :
    lg.LacksFirst flt.alloc ∧ addLog flt p opName key value = some (-1, p) ∨
    (¬ lg.LacksFirst flt.alloc ∧ ¬ lg.HasNode flt.alloc) ∧
      addLog flt p opName key value = none ∨
    (lg.HasNode flt.alloc ∧ lg.countOperation + 1 = maxCountOperation ∧ flt.transaction = true) ∧
      addLog flt p opName key value =
        some (-1, { p with logger := some (lg.record lg.target opName key value) }) ∨
    (lg.HasNode flt.alloc ∧
        ¬ (lg.countOperation + 1 = maxCountOperation ∧ flt.transaction = true)) ∧
      ∃ db lg', addLog flt p opName key value = some (0, { p with db := db, logger := some lg' }) ∧
        lg'.Inv ∧ lg'.countOperation ≠ lg.countOperation ∧
        (lg'.pending = [] ∨ lg' = lg.record lg.target opName key value) := by
  unfold addLog
  rw [hlg]
  dsimp only
  by_cases hfirst : lg.LacksFirst flt.alloc
  · rw [Logger.append_of_lacksFirst hfirst]
    exact Or.inl ⟨hfirst, rfl⟩
  by_cases hnode : lg.HasNode flt.alloc
  · obtain ⟨hlength, -⟩ := Logger.target_spec hinv
    have hinv' : (lg.record lg.target opName key value).Inv := Logger.record_inv hlength opName
    have hcount : (lg.record lg.target opName key value).countOperation =
        lg.countOperation + 1 := rfl
    rw [Logger.append_of_hasNode hnode]
    dsimp only
    rw [hcount]
    by_cases hfull : lg.countOperation + 1 = maxCountOperation
    · rw [if_pos hfull, syncWithDb_eq rfl hinv' (by omega)]
      cases htransaction : flt.transaction with
      | true => exact Or.inr (Or.inr (Or.inl ⟨⟨hnode, hfull, rfl⟩, rfl⟩))
      | false =>
          have hzero : (Logger.clear (lg.record lg.target opName key value)).countOperation = 0 :=
            rfl
          refine Or.inr (Or.inr (Or.inr ⟨⟨hnode, by simp⟩, _, _, rfl, Logger.clear_inv _, ?_,
            Or.inl (Logger.pending_clear _)⟩))
          rw [hzero]
          -- a log that the operation fills was not empty before
          have hmax : maxCountOperation = 10000 := rfl
          omega
    · rw [if_neg hfull]
      exact Or.inr (Or.inr (Or.inr ⟨⟨hnode, fun h => hfull h.1⟩, p.db, _, rfl, hinv',
        by rw [hcount]; omega, Or.inr rfl⟩))
  · rw [Logger.append_eq_nullPointer hnode hfirst]
    exact Or.inr (Or.inl ⟨⟨hfirst, hnode⟩, rfl⟩)

/-- A state with another number of logged operations was not kept. -/
theorem Proxy.Kept.count_eq {p' : Proxy} {lg' : Logger} (h : p.Kept p') (hlg : p.logger = some lg)
    (hinv : lg.Inv) (hlg' : p'.logger = some lg') (hinv' : lg'.Inv) :
    lg'.countOperation = lg.countOperation := by
  have hpending := h.pending_eq
  simp only [Proxy.tiers, hlg, hlg', Option.map_some, Option.getD_some] at hpending
  rw [← hinv.length_pending, ← hinv'.length_pending, hpending]

/-- The part of a request behind its write to the cache keeps the cache and the log when it fails,
unless it spoils them. -/
theorem logged_kept_iff (hlg : p.logger = some lg) (hinv : lg.Inv) (db : Hstore) (hashes : Htab)
    (res : ReqResult) (opName : OperationName) (key : CString) (value : Option CString) :
    (∀ p', (addLog flt { p with db := db, hashes := hashes } opName key value).map (afterLog res) =
        some (.errReq, p') → p.Kept p') ↔
      ¬ LogSpoils flt lg (cached hashes ≠ cached p.hashes) (res = .errReq) := by
  have hlg₁ : Proxy.logger { p with db := db, hashes := hashes } = some lg := hlg
  unfold LogSpoils
  rcases addLog_cases flt hlg₁ hinv opName key value with
    ⟨hfirst, hlog⟩ | ⟨⟨hfirst, hnode⟩, hlog⟩ | ⟨⟨hnode, hfull, htransaction⟩, hlog⟩ |
      ⟨⟨hnode, hfull⟩, db', lg', hlog, hinv', hcount, -⟩
  · -- only the cache was written
    have hnode : ¬ lg.HasNode flt.alloc := fun h => h.not_lacksFirst hfirst
    rw [hlog]
    simp only [hfirst, hnode, true_and, false_and, or_false, not_not]
    refine ⟨fun h => funext (h _ rfl).cached_eq, ?_⟩
    rintro heq p' hp'
    cases hp'
    exact ⟨congrFun heq, rfl⟩
  · -- a null pointer is written through, and nothing is returned
    rw [hlog]
    simp [hfirst, hnode]
  · -- the operation stays in the log
    rw [hlog]
    simp only [hnode, hfull, htransaction, true_and, true_or, or_true, not_true_eq_false, iff_false]
    intro h
    obtain ⟨hlength, -⟩ := Logger.target_spec hinv
    have hinv' : (lg.record lg.target opName key value).Inv := Logger.record_inv hlength opName
    have hcount := (h _ rfl).count_eq hlg hinv rfl hinv'
    have hrecord : (lg.record lg.target opName key value).countOperation =
        lg.countOperation + 1 := rfl
    omega
  · -- `add_log` succeeds, so that only an error from before it is returned
    rw [hlog]
    have hfirst := hnode.not_lacksFirst
    by_cases hres : res = .errReq
    · simp only [hfirst, hnode, hres, false_and, true_and, or_true, not_true_eq_false,
        iff_false]
      intro h
      exact hcount ((h _ rfl).count_eq hlg hinv rfl hinv')
    · simp only [hfirst, hnode, hfull, hres, false_and, or_false, and_false, not_false_eq_true,
        iff_true]
      rintro p' hp'
      cases hp'
      exact absurd rfl hres

end AddLog

/-! ## The requests -/

section Requests

variable {flt : Faults} {p : Proxy}

/-- A change of the database alone keeps the cache and the log. -/
theorem Proxy.kept_with_db (p : Proxy) (db : Hstore) : p.Kept { p with db := db } :=
  ⟨fun _ => rfl, rfl⟩

/-- A write to the cache changes it, unless the entry is the one that is written. -/
theorem update_ne_iff {α β : Type*} [DecidableEq α] (f : α → β) (a : α) (b : β) :
    Function.update f a b ≠ f ↔ f a ≠ b := by
  rw [ne_eq, Function.update_eq_self_iff, eq_comm]

theorem reqGet_kept (key : CString) (herr : (reqGet flt p key).1.res = .errReq) :
    p.Kept (reqGet flt p key).2 := by
  have hself : p.Kept p := p.kept_with_db p.db
  rcases reqGet_cases flt p key with ⟨-, hget⟩ | ⟨-, ⟨value, -, hget⟩ | ⟨-, hget⟩ |
    ⟨-, ⟨hnon, hget⟩ | ⟨value, hok, -, hget⟩ | ⟨-, hget⟩⟩⟩
  · rw [hget]
    exact hself
  · rw [hget]
    exact hself
  · rw [hget]
    exact hself
  · -- the cache is only written to with what the database reported
    rw [hget, hnon] at herr
    cases herr
  · rw [hget, hok] at herr
    cases herr
  · rw [hget]
    exact hself

theorem reqSet_kept_iff (hp : p.Inv) (key value : CString) :
    (∀ p', reqSet flt p key value = some (.errReq, p') → p.Kept p') ↔
      ¬ Spoils flt p (.set key value) := by
  unfold Spoils
  rcases reqSet_cases flt p key value with ⟨hdirect, hset⟩ |
    ⟨hfits, ⟨hr, ⟨-, hset⟩ | ⟨hres, hset⟩⟩ | ⟨hr, hset⟩ | ⟨hr, hset⟩⟩
  · refine iff_of_true (fun p' hp' => ?_) ?_
    · rw [hset, Option.some_inj, Prod.mk.injEq] at hp'
      obtain ⟨-, rfl⟩ := hp'
      exact p.kept_with_db _
    · rintro ⟨hr, hfits, -⟩
      rcases hdirect with hno | hlarge
      · rw [hr] at hno
        cases hno
      · rw [hfits] at hlarge
        cases hlarge
  · refine iff_of_true (fun p' hp' => ?_) (by simp [hr])
    rw [hset] at hp'
    cases hp'
    exact p.kept_with_db _
  · refine iff_of_true (fun p' hp' => ?_) (by simp [hr])
    rw [hset, Option.some_inj, Prod.mk.injEq] at hp'
    exact absurd hp'.1 hres
  · refine iff_of_true (fun p' hp' => ?_) (by simp [hr])
    rw [hset] at hp'
    cases hp'
  · obtain ⟨lg, hlg, hinv⟩ := hp.logger_of_deffer hr
    have hkey : key.strlen + 1 < keySize := by
      simpa [keyFits] using (Bool.and_eq_true_iff.mp hfits).1
    have hvalue : value.strlen + 1 < valueSize := by
      simpa [valueFits] using (Bool.and_eq_true_iff.mp hfits).2
    rw [hset, logged_kept_iff hlg hinv p.db, cached_set_live hkey _ hvalue, update_ne_iff]
    simp [hr, hfits, hlg]

/-- What a DEL learns about the key is an error exactly if it has to ask the database, which
fails. -/
theorem delCached_eq_errReq_iff (key : CString) :
    (delCached flt.sql p key).1 = .errReq ↔ cached p.hashes key = none ∧ flt.sql = true := by
  unfold delCached
  rw [checkHashTable_eq]
  cases cached p.hashes key with
  | none =>
      cases hsql : flt.sql with
      | true => simp [delValue]
      | false =>
          cases hvalue : p.db key with
          | none => simp [delValue, hvalue]
          | some value => simp [delValue, hvalue]
  | some entry =>
      cases entry with
      | none => simp
      | some value => simp

theorem reqDel_kept_iff (hp : p.Inv) (key : CString) :
    (∀ p', reqDel flt p key = some (.errReq, p') → p.Kept p') ↔ ¬ Spoils flt p (.del key) := by
  rcases reqDel_cases flt p key with ⟨hdirect, hdel⟩ |
    ⟨hfits, ⟨hr, ⟨-, hdel⟩ | ⟨hres, hdel⟩⟩ | ⟨hr, hdel⟩ | ⟨hr, hdel⟩⟩
  · refine iff_of_true (fun p' hp' => ?_) ?_
    · rw [hdel, Option.some_inj, Prod.mk.injEq] at hp'
      obtain ⟨-, rfl⟩ := hp'
      exact p.kept_with_db _
    · rintro ⟨hfits, hspoils⟩
      rcases hdirect with hno | hlarge
      · simp [hno] at hspoils
      · rw [hfits] at hlarge
        cases hlarge
  · refine iff_of_true (fun p' hp' => ?_) (by simp [Spoils, hr])
    rw [hdel] at hp'
    cases hp'
    exact p.kept_with_db _
  · refine iff_of_true (fun p' hp' => ?_) (by simp [Spoils, hr])
    rw [hdel, Option.some_inj, Prod.mk.injEq] at hp'
    exact absurd hp'.1 hres
  · -- the cache is written whatever the database reported
    have hkey : key.strlen + 1 < keySize := by simpa [keyFits] using hfits
    have herr : (delCached flt.sql p key).1 = .errReq ↔
        cached p.hashes key = none ∧ flt.sql = true := delCached_eq_errReq_iff key
    have hspoils : Spoils flt p (.del key) ↔ (delCached flt.sql p key).1 = .errReq := by
      rw [herr]
      simp [Spoils, hr, hfits]
    rw [hspoils, hdel]
    constructor
    · intro hkept hres
      have hcached := funext (hkept _ (by rw [hres])).cached_eq
      have hne : cached p.hashes key ≠ some none := by simp [(herr.mp hres).1]
      have hhashes := cached_set_deleted hkey p.hashes
      exact (update_ne_iff _ _ _).mpr hne (hhashes.symm.trans hcached)
    · intro hres p' hp'
      rw [Option.some_inj, Prod.mk.injEq] at hp'
      exact absurd hp'.1 hres
  · obtain ⟨lg, hlg, hinv⟩ := hp.logger_of_deffer hr
    have hkey : key.strlen + 1 < keySize := by simpa [keyFits] using hfits
    rw [hdel, logged_kept_iff hlg hinv, cached_set_deleted hkey, update_ne_iff,
      delCached_eq_errReq_iff]
    simp [Spoils, hr, hfits, hlg]

end Requests

/-! ## States reached with failures -/

/-- The invariants of a worker under a caching regime. -/
structure Proxy.Sound (r : DumpStatus) (p : Proxy) : Prop where
  inv : p.Inv
  cachingRegime_eq : p.cachingRegime = r
  coherent : p.tiers.Coherent r

theorem Proxy.start_sound (r : DumpStatus) (db : Hstore) : (start r db).Sound r where
  inv := start_inv r db
  cachingRegime_eq := rfl
  coherent := by
    rw [start_tiers]
    exact Tiers.start_coherent r db

section Reached

variable {flt : Faults} {r : DumpStatus} {p p' : Proxy} (hp : p.Sound r)
include hp

/-- A change of the database alone. -/
theorem Proxy.Sound.with_db (db : Hstore) : Sound r { p with db := db } where
  inv := hp.inv.with_maps db p.hashes
  cachingRegime_eq := hp.cachingRegime_eq
  coherent := ⟨hp.coherent.key_fits, hp.coherent.value_fits, hp.coherent.pending_cached,
    hp.coherent.pending_fits, hp.coherent.noCache_empty⟩

/-- A value that is written to the cache. -/
theorem Proxy.Sound.with_live (hr : p.cachingRegime ≠ .noCache) {key value : CString}
    (hkey : keyFits key = true) (hvalue : valueFits value = true) :
    Sound r { p with hashes := setHashTable p.hashes key (some value) 0 } where
  inv := hp.inv.with_maps p.db _
  cachingRegime_eq := hp.cachingRegime_eq
  coherent := by
    have hkey' : key.strlen + 1 < keySize := by simpa [keyFits] using hkey
    have hvalue' : value.strlen + 1 < valueSize := by simpa [valueFits] using hvalue
    have hwrite := hp.coherent.cacheWrite (w := (key, some value))
      (by rwa [← hp.cachingRegime_eq]) hkey (by simpa using hvalue)
    simpa [Proxy.tiers, Tiers.cacheWrite, cached_set_live hkey' _ hvalue'] using hwrite

/-- A key that is marked as deleted. -/
theorem Proxy.Sound.with_deleted (hr : p.cachingRegime ≠ .noCache) {key : CString}
    (hkey : keyFits key = true) :
    Sound r { p with hashes := setHashTable p.hashes key none 1 } where
  inv := hp.inv.with_maps p.db _
  cachingRegime_eq := hp.cachingRegime_eq
  coherent := by
    have hkey' : key.strlen + 1 < keySize := by simpa [keyFits] using hkey
    have hwrite := hp.coherent.cacheWrite (w := (key, none))
      (by rwa [← hp.cachingRegime_eq]) hkey (by simp)
    simpa [Proxy.tiers, Tiers.cacheWrite, cached_set_deleted hkey'] using hwrite

/-- Another log in order, which is empty or has one more write. -/
theorem Proxy.Sound.with_logger {lg lg' : Logger} (hlg : p.logger = some lg) (db : Hstore)
    (hinv : lg'.Inv)
    (hpending : Tiers.Coherent r { p.tiers with pending := lg'.pending }) :
    Sound r { p with db := db, logger := some lg' } where
  inv := by
    constructor
    · rw [← hp.inv.logger_isSome_iff, hlg]
      simp
    · intro lg'' h
      cases h
      exact hinv
  cachingRegime_eq := hp.cachingRegime_eq
  coherent := ⟨hpending.key_fits, hpending.value_fits, hpending.pending_cached,
    hpending.pending_fits, hpending.noCache_empty⟩

theorem syncWithDb_sound {rc : Int} (hsync : syncWithDb flt p = some (rc, p')) : p'.Sound r := by
  unfold syncWithDb at hsync
  split at hsync
  · cases hsync
    exact hp
  · next lg hlg =>
      split at hsync
      · cases hsync
        exact hp
      · split at hsync
        · cases hsync
        · split at hsync
          · cases hsync
            exact hp
          · cases hsync
            refine hp.with_logger hlg _ lg.clear_inv ?_
            rw [Logger.pending_clear]
            exact hp.coherent.with_pending_nil

theorem addLog_sound {key : CString} {value : Option CString}
    (hcached : (cached p.hashes key).isSome) (hvalue : ∀ v ∈ value, valueFits v = true)
    {rc : Int} (hlog : addLog flt p (Logger.nameOf value) key value = some (rc, p')) :
    p'.Sound r := by
  cases hlg : p.logger with
  | none =>
      unfold addLog at hlog
      rw [hlg] at hlog
      cases hlog
      exact hp
  | some lg =>
      have hinv := hp.inv.logger_inv lg hlg
      obtain ⟨hlength, hnodes⟩ := Logger.target_spec hinv
      have hkey' : key.strlen + 1 < keySize := by
        simpa [keyFits] using hp.coherent.key_fits key hcached
      have hvalue' : ∀ v ∈ value, v.strlen + 1 < valueSize := by
        intro v hv
        simpa [valueFits] using hvalue v hv
      have hpending : (lg.record lg.target (Logger.nameOf value) key value).pending =
          lg.pending ++ [(key, value)] :=
        Logger.pending_record hlength hnodes (by omega) fun v hv =>
          lt_trans (Nat.lt_succ_self _) (hvalue' v hv)
      have hcoherent : Tiers.Coherent r { p.tiers with
          pending := (lg.record lg.target (Logger.nameOf value) key value).pending } := by
        have happend := hp.coherent.append (w := (key, value)) hcached hvalue
        rw [hpending]
        simpa [Proxy.tiers, hlg] using happend
      have hrecord := hp.with_logger hlg p.db (Logger.record_inv hlength (Logger.nameOf value))
        hcoherent
      rcases addLog_cases flt hlg hinv (Logger.nameOf value) key value with
        ⟨-, h⟩ | ⟨-, h⟩ | ⟨-, h⟩ | ⟨-, db, lg', h, hinv', -, hlg'⟩
      · rw [h] at hlog
        cases hlog
        exact hp
      · rw [h] at hlog
        cases hlog
      · rw [h] at hlog
        cases hlog
        exact hrecord
      · rw [h] at hlog
        cases hlog
        rcases hlg' with hnil | rfl
        · refine hp.with_logger hlg db hinv' ?_
          rw [hnil]
          exact hp.coherent.with_pending_nil
        · exact hrecord.with_db db

theorem afterLog_sound {key : CString} {value : Option CString}
    (hcached : (cached p.hashes key).isSome) (hvalue : ∀ v ∈ value, valueFits v = true)
    {res : ReqResult} {next : ReqResult × Proxy}
    (hlog : (addLog flt p (Logger.nameOf value) key value).map (afterLog res) = some next) :
    next.2.Sound r := by
  obtain ⟨⟨rc, p₁⟩, hadd, rfl⟩ := Option.map_eq_some_iff.mp hlog
  have hp₁ := addLog_sound hp hcached hvalue hadd
  unfold afterLog
  dsimp only
  split
  · exact hp₁
  · exact hp₁

theorem reqGet_sound (key : CString) : (reqGet flt p key).2.Sound r := by
  rcases reqGet_cases flt p key with ⟨-, hget⟩ | ⟨⟨hr, hfits⟩, ⟨value, -, hget⟩ | ⟨-, hget⟩ |
    ⟨-, ⟨-, hget⟩ | ⟨value, -, hvalue, hget⟩ | ⟨-, hget⟩⟩⟩
  · rw [hget]
    exact hp
  · rw [hget]
    exact hp
  · rw [hget]
    exact hp
  · rw [hget]
    exact hp.with_deleted hr hfits
  · rw [hget]
    exact hp.with_live hr hfits hvalue
  · rw [hget]
    exact hp

theorem reqSet_sound {key value : CString} {next : ReqResult × Proxy}
    (hset : reqSet flt p key value = some next) : next.2.Sound r := by
  rcases reqSet_cases flt p key value with ⟨-, heq⟩ |
    ⟨hfits, ⟨hr, ⟨-, heq⟩ | ⟨-, heq⟩⟩ | ⟨hr, heq⟩ | ⟨hr, heq⟩⟩
  · rw [heq] at hset
    cases hset
    exact hp.with_db _
  · rw [heq] at hset
    cases hset
    exact hp.with_db _
  · obtain ⟨hkey, hvalue⟩ := Bool.and_eq_true_iff.mp hfits
    rw [heq] at hset
    cases hset
    exact (hp.with_db (setValue flt.sql p.db key value).2).with_live (by simp [hr]) hkey hvalue
  · obtain ⟨hkey, hvalue⟩ := Bool.and_eq_true_iff.mp hfits
    rw [heq] at hset
    cases hset
    exact hp.with_live (by simp [hr]) hkey hvalue
  · obtain ⟨hkey, hvalue⟩ := Bool.and_eq_true_iff.mp hfits
    have hkey' : key.strlen + 1 < keySize := by simpa [keyFits] using hkey
    have hvalue' : value.strlen + 1 < valueSize := by simpa [valueFits] using hvalue
    have hcached : (cached (setHashTable p.hashes key (some value) 0) key).isSome := by
      simp [cached_set_live hkey' _ hvalue']
    have hvalues : ∀ v ∈ some value, valueFits v = true := by simpa using hvalue
    rw [heq] at hset
    exact afterLog_sound (hp.with_live (by simp [hr]) hkey hvalue) hcached hvalues hset

theorem reqDel_sound {key : CString} {next : ReqResult × Proxy}
    (hdel : reqDel flt p key = some next) : next.2.Sound r := by
  rcases reqDel_cases flt p key with ⟨-, heq⟩ |
    ⟨hfits, ⟨hr, ⟨-, heq⟩ | ⟨-, heq⟩⟩ | ⟨hr, heq⟩ | ⟨hr, heq⟩⟩
  · rw [heq] at hdel
    cases hdel
    exact hp.with_db _
  · rw [heq] at hdel
    cases hdel
    exact hp.with_db _
  · rw [heq] at hdel
    cases hdel
    exact (hp.with_db (delValue flt.sql p.db key).2).with_deleted (by simp [hr]) hfits
  · rw [heq] at hdel
    cases hdel
    exact (hp.with_db (delCached flt.sql p key).2).with_deleted (by simp [hr]) hfits
  · have hkey' : key.strlen + 1 < keySize := by simpa [keyFits] using hfits
    have hcached : (cached (setHashTable p.hashes key none 1) key).isSome := by
      simp [cached_set_deleted hkey']
    have hvalues : ∀ v ∈ (none : Option CString), valueFits v = true := by simp
    have hdb := hp.with_db (delCached flt.sql p key).2
    rw [heq] at hdel
    exact afterLog_sound (hdb.with_deleted (by simp [hr]) hfits) hcached hvalues hdel

/-- Every event keeps the invariants, whatever fails. -/
theorem stepWith_sound {e : Event} {result : Result}
    (hstep : p.stepWith flt e = some (result, p')) : p'.Sound r := by
  cases e with
  | get key =>
      cases hstep
      exact reqGet_sound hp key
  | set key value =>
      obtain ⟨⟨res, p₁⟩, hset, heq⟩ := Option.map_eq_some_iff.mp hstep
      cases heq
      exact reqSet_sound hp hset
  | del key =>
      obtain ⟨⟨res, p₁⟩, hdel, heq⟩ := Option.map_eq_some_iff.mp hstep
      cases heq
      exact reqDel_sound hp hdel
  | sync =>
      obtain ⟨⟨rc, p₁⟩, hsync, heq⟩ := Option.map_eq_some_iff.mp hstep
      cases heq
      exact syncWithDb_sound hp hsync

/-- So does every run. -/
theorem runWith_sound {events : List (Faults × Event)} (hrun : p.runWith events = some p') :
    p'.Sound r := by
  induction events generalizing p with
  | nil =>
      cases hrun
      exact hp
  | cons event events ih =>
      simp only [Proxy.runWith, Option.bind_eq_bind, Option.bind_eq_some_iff] at hrun
      obtain ⟨⟨result, p₁⟩, hstep, hrest⟩ := hrun
      exact ih (stepWith_sound hp hstep) hrest

end Reached

/-- An event that returns what a request returns is kept where the request is. -/
theorem failureKept_iff {flt : Faults} {p : Proxy} {e : Event} {result : Option (ReqResult × Proxy)}
    (hstep : p.stepWith flt e = result.map fun (res, p) => (.done res, p)) :
    FailureKept flt p e ↔ ∀ p', result = some (.errReq, p') → p.Kept p' := by
  unfold FailureKept
  rw [hstep]
  constructor
  · intro hkept p' hresult
    exact hkept (.done .errReq) p' (by rw [hresult]; rfl) rfl
  · intro hkept r p' hmap herr
    obtain ⟨⟨res, p₁⟩, hresult, heq⟩ := Option.map_eq_some_iff.mp hmap
    cases heq
    have hres : res = .errReq := herr
    exact hkept p' (by rw [hresult, hres])

/-- After any requests and synchronizations from start-up, whatever failed in them, an event that
fails keeps the cache and the log, unless its callees fail in a way that spoils them. -/
theorem failure_kept_iff {r : DumpStatus} {db : Hstore} {history : List (Faults × Event)} {p : Proxy}
    (hrun : (Proxy.start r db).runWith history = some p) (flt : Faults) (e : Event) :
    FailureKept flt p e ↔ ¬ Spoils flt p e := by
  have hp := (runWith_sound (Proxy.start_sound r db) hrun).inv
  cases e with
  | get key =>
      refine iff_of_true ?_ id
      intro res p' hstep herr
      cases hstep
      exact reqGet_kept key herr
  | set key value =>
      rw [← reqSet_kept_iff hp]
      exact failureKept_iff rfl
  | del key =>
      rw [← reqDel_kept_iff hp]
      exact failureKept_iff rfl
  | sync =>
      refine iff_of_true ?_ id
      intro res p' hstep herr
      obtain ⟨⟨rc, p₁⟩, -, heq⟩ := Option.map_eq_some_iff.mp hstep
      cases heq
      exact herr.elim

/-- A DEL of a cached key does not ask the database, so a failing one does not matter to it. -/
theorem failure_kept_cached :
    ∃ p, (Proxy.start .onlyCache fun _ => none).runWith [(.none, .set sampleKey smallValue)] =
        some p ∧ FailureKept ⟨true, false, false⟩ p (.del sampleKey) := by
  refine ⟨_, rfl, (@failure_kept_iff .onlyCache (fun _ => none)
    [(.none, .set sampleKey smallValue)] _ rfl _ _).mpr ?_⟩
  rintro ⟨-, ⟨-, hcached, -⟩ | ⟨hr, -⟩⟩
  · exact absurd hcached (by decide +kernel)
  · cases hr

/-- `ONLY_CACHE` marks a key as deleted whose DEL has just failed in the database. -/
theorem failed_del_marks_key :
    ¬ FailureKept ⟨true, false, false⟩ (Proxy.start .onlyCache fun _ => none) (.del sampleKey) := by
  intro h
  have hkept := h _ _ rfl rfl
  exact absurd (hkept.cached_eq sampleKey) (by decide +kernel)

end PgRedisProxy
