import PgRedisProxy.Store.Requests

/-!
# Requests as updates of three maps

`Tiers` forgets the representation of the cache and of the log: it is the entries
of the cache, the row of the database, and the writes that wait in the log. Its
steps say what each event does to them, regime by regime. `run_refines` is the main
result: in every run from a state that satisfies `Proxy.Inv`, the worker returns
what `Tiers.run` returns, no null pointer is met, and the states correspond.
-/

namespace PgRedisProxy

open CLang KeyValue

/-- The contents of the cache, the database, and the log. -/
structure Tiers where
  cache : Entries CString CString
  db : Hstore
  pending : List (Write CString CString)

namespace Tiers

/-- An empty cache and an empty log before the database. -/
def start (db : Hstore) : Tiers :=
  ⟨fun _ => none, db, []⟩

/-- The logged writes reach the database, and the log is empty. -/
def flush (t : Tiers) : Tiers :=
  { t with db := replay t.db t.pending, pending := [] }

/-- One more logged write; a full log is flushed. -/
def log (t : Tiers) (w : Write CString CString) : Tiers :=
  let t := { t with pending := t.pending ++ [w] }
  if t.pending.length = maxCountOperation then t.flush else t

/-- A write that goes to the cache. -/
def cacheWrite (t : Tiers) (w : Write CString CString) : Tiers :=
  { t with cache := Function.update t.cache w.1 (some w.2) }

@[simp] theorem cacheWrite_self (t : Tiers) (w : Write CString CString) :
    (t.cacheWrite w).cache w.1 = some w.2 := by
  simp [cacheWrite]

theorem cacheWrite_isSome (t : Tiers) (w : Write CString CString) :
    ((t.cacheWrite w).cache w.1).isSome := by
  simp

theorem cacheWrite_of_ne (t : Tiers) {w : Write CString CString} {k : CString} (hk : k ≠ w.1) :
    (t.cacheWrite w).cache k = t.cache k := by
  simp [cacheWrite, hk]

/-- A write that goes to the database. -/
def dbWrite (t : Tiers) (w : Write CString CString) : Tiers :=
  { t with db := applyWrite t.db w }

/-- The result of deleting a key that is present, or is not. -/
def deleted (present : Bool) : ReqResult :=
  if present then .ok else .non

theorem deleted_ne_errReq (present : Bool) : deleted present ≠ .errReq := by
  cases present <;> simp [deleted]

/-- A GET: from the cache if the key has an entry, else from the database, which fills the cache
with a missing key and with a value that fits. -/
def get (r : DumpStatus) (t : Tiers) (key : CString) : GetReply × Tiers :=
  if r ≠ .noCache ∧ keyFits key then
    match t.cache key with
    | some (some value) => (.of (some value), t)
    | some none => (⟨.non, none, 0⟩, t)
    | none =>
        (.of (stored t.db key),
          if (stored t.db key).all valueFits then t.cacheWrite (key, stored t.db key) else t)
  else (.of (stored t.db key), t)

/-- A SET. A request that does not fit the cache goes to the database alone. -/
def set (r : DumpStatus) (t : Tiers) (key value : CString) : Tiers :=
  if keyFits key && valueFits value then
    match r with
    | .noCache => t.dbWrite (key, some value)
    | .getCache => (t.dbWrite (key, some value)).cacheWrite (key, some value)
    | .onlyCache => t.cacheWrite (key, some value)
    | .defferDump => (t.cacheWrite (key, some value)).log (key, some value)
  else t.dbWrite (key, some value)

/-- Whether the tier that a DEL asks has the key, and what the DEL does below the cache: a key
without an entry is deleted from the database at once. -/
def delBelow (t : Tiers) (key : CString) : ReqResult × Tiers :=
  match t.cache key with
  | some entry => (deleted entry.isSome, t)
  | none => (deleted (t.db key).isSome, t.dbWrite (key, none))

/-- A DEL. -/
def del (r : DumpStatus) (t : Tiers) (key : CString) : ReqResult × Tiers :=
  if keyFits key then
    match r with
    | .noCache => (deleted (t.db key).isSome, t.dbWrite (key, none))
    | .getCache =>
        (deleted (t.db key).isSome, (t.dbWrite (key, none)).cacheWrite (key, none))
    | .onlyCache => ((t.delBelow key).1, (t.delBelow key).2.cacheWrite (key, none))
    | .defferDump =>
        ((t.delBelow key).1, ((t.delBelow key).2.cacheWrite (key, none)).log (key, none))
  else (deleted (t.db key).isSome, t.dbWrite (key, none))

/-- A SET that the cache does not take goes to the database alone. -/
theorem set_of_direct {r : DumpStatus} {t : Tiers} {key value : CString}
    (hdirect : r = .noCache ∨ (keyFits key && valueFits value) = false) :
    t.set r key value = t.dbWrite (key, some value) := by
  unfold set
  rcases hdirect with rfl | hlarge
  · split <;> rfl
  · rw [hlarge]
    rfl

/-- A DEL that the cache does not take goes to the database alone. -/
theorem del_of_direct {r : DumpStatus} {t : Tiers} {key : CString}
    (hdirect : r = .noCache ∨ keyFits key = false) :
    t.del r key = (deleted (t.db key).isSome, t.dbWrite (key, none)) := by
  unfold del
  rcases hdirect with rfl | hlarge
  · split <;> rfl
  · rw [hlarge]
    rfl

/-- One event. Only `DEFFER_DUMP` has a log to synchronize. -/
def step (r : DumpStatus) (t : Tiers) : Event → Result × Tiers
  | .get key => (.got (t.get r key).1, (t.get r key).2)
  | .set key value => (.done .ok, t.set r key value)
  | .del key => (.done (t.del r key).1, (t.del r key).2)
  | .sync => if r = .defferDump then (.synced 0, t.flush) else (.synced (-1), t)

/-- The state after a sequence of events. -/
def after (r : DumpStatus) (t : Tiers) (events : List Event) : Tiers :=
  events.foldl (fun t e => (t.step r e).2) t

/-- The results of a sequence of events. -/
def results (r : DumpStatus) (t : Tiers) : List Event → List Result
  | [] => []
  | e :: events => (t.step r e).1 :: results r (t.step r e).2 events

@[simp] theorem after_nil (r : DumpStatus) (t : Tiers) : t.after r [] = t := rfl

@[simp] theorem after_cons (r : DumpStatus) (t : Tiers) (e : Event) (events : List Event) :
    t.after r (e :: events) = (t.step r e).2.after r events := rfl

@[simp] theorem after_concat (r : DumpStatus) (t : Tiers) (e : Event) (events : List Event) :
    t.after r (events ++ [e]) = ((t.after r events).step r e).2 := by
  simp [after]

end Tiers

namespace Proxy

/-- The contents of the worker's cache, database, and log. -/
def tiers (p : Proxy) : Tiers where
  cache := cached p.hashes
  db := p.db
  pending := (p.logger.map Logger.pending).getD []

/-- There is a log exactly under `DEFFER_DUMP`, and it is in order. -/
structure Inv (p : Proxy) : Prop where
  logger_isSome_iff : p.logger.isSome ↔ p.cachingRegime = .defferDump
  logger_inv : ∀ lg, p.logger = some lg → lg.Inv

theorem start_inv (r : DumpStatus) (db : Hstore) : (start r db).Inv where
  logger_isSome_iff := by cases r <;> simp [start]
  logger_inv := by
    intro lg hlg
    cases r <;> simp [start] at hlg
    subst hlg
    exact Logger.init_inv

@[simp] theorem start_cachingRegime (r : DumpStatus) (db : Hstore) :
    (start r db).cachingRegime = r := rfl

@[simp] theorem start_tiers (r : DumpStatus) (db : Hstore) :
    (start r db).tiers = Tiers.start db := by
  cases r <;> rfl

/-- What a step of the worker has to satisfy to refine a step of the three maps. -/
structure Refines (p p' : Proxy) (t : Tiers) : Prop where
  inv : p'.Inv
  cachingRegime_eq : p'.cachingRegime = p.cachingRegime
  tiers_eq : p'.tiers = t

end Proxy

section Refinement

variable {p : Proxy} (hp : p.Inv)
include hp

theorem Proxy.Inv.logger_of_deffer (hr : p.cachingRegime = .defferDump) :
    ∃ lg, p.logger = some lg ∧ lg.Inv := by
  obtain ⟨lg, hlg⟩ := Option.isSome_iff_exists.mp (hp.logger_isSome_iff.mpr hr)
  exact ⟨lg, hlg, hp.logger_inv lg hlg⟩

omit hp in
theorem Proxy.Inv.logger_eq_none (hp : p.Inv) (hr : p.cachingRegime ≠ .defferDump) :
    p.logger = none := by
  rw [← Option.not_isSome_iff_eq_none, hp.logger_isSome_iff]
  exact hr

/-- A successful synchronization flushes the log. -/
theorem syncWithDb_refines (hr : p.cachingRegime = .defferDump) :
    ∃ p', syncWithDb .none p = some (0, p') ∧ p.Refines p' p.tiers.flush := by
  obtain ⟨lg, hlg, hinv⟩ := hp.logger_of_deffer hr
  by_cases hempty : lg.nodes = [] ∨ lg.sumSizeOperation = 0
  · -- nothing is logged, and the call returns early
    have hpending : lg.pending = [] := by
      rcases hempty with hnodes | hsum
      · simp [Logger.pending, hnodes]
      · simp [Logger.pending, hinv.sum_eq_zero_iff.mp hsum]
    refine ⟨p, by simp [syncWithDb, hlg, hempty], hp, rfl, ?_⟩
    simp [Tiers.flush, Proxy.tiers, hlg, hpending]
  · have hchain : ¬ lg.nodes.length < lg.countOperation := by
      have := hinv.count_le_length
      omega
    let p' : Proxy := { p with db := replay p.db lg.pending, logger := some lg.clear }
    have hp' : p'.Inv := by
      constructor
      · simp [p', hr]
      · intro lg' hlg'
        obtain rfl : lg.clear = lg' := Option.some.inj hlg'
        exact lg.clear_inv
    refine ⟨p', by simp [syncWithDb, hlg, hempty, hchain, Faults.none, p'], hp', rfl, ?_⟩
    simp [Tiers.flush, Proxy.tiers, hlg, p']

/-- Logging an operation whose key and value fit the node appends its write. -/
theorem addLog_refines (hr : p.cachingRegime = .defferDump) (key : CString)
    (value : Option CString) (hkey : key.strlen < keySize)
    (hvalue : ∀ v ∈ value, v.strlen < valueSize) :
    ∃ p', addLog .none p (Logger.nameOf value) key value = some (0, p') ∧
      p.Refines p' (p.tiers.log (key, value)) := by
  obtain ⟨lg, hlg, hinv⟩ := hp.logger_of_deffer hr
  obtain ⟨lg', happend, hinv', hpending⟩ := Logger.append_spec hinv hkey hvalue
  have hp' : Proxy.Inv { p with logger := some lg' } := by
    constructor
    · simp [hr]
    · intro lg'' h
      cases h
      exact hinv'
  have htiers : Proxy.tiers { p with logger := some lg' } =
      { p.tiers with pending := p.tiers.pending ++ [(key, value)] } := by
    simp [Proxy.tiers, hlg, hpending]
  have hcount : lg'.countOperation = (p.tiers.pending ++ [(key, value)]).length := by
    rw [← hinv'.length_pending, hpending]
    simp [Proxy.tiers, hlg]
  unfold addLog Tiers.log
  simp only [hlg, show Faults.none.alloc = false from rfl, happend, hcount]
  split
  · obtain ⟨p', hsync, hrefines⟩ := syncWithDb_refines hp' hr
    exact ⟨p', hsync, hrefines.inv, hrefines.cachingRegime_eq, by rw [hrefines.tiers_eq, htiers]⟩
  · exact ⟨_, rfl, hp', rfl, htiers⟩

/-- A change of the database and the cache alone keeps the log in order. -/
theorem Proxy.Inv.with_maps (db : Hstore) (hashes : Htab) :
    Proxy.Inv { p with db := db, hashes := hashes } :=
  ⟨hp.logger_isSome_iff, hp.logger_inv⟩

theorem reqGet_refines (key : CString) :
    (reqGet .none p key).1 = (p.tiers.get p.cachingRegime key).1 ∧
      p.Refines (reqGet .none p key).2 (p.tiers.get p.cachingRegime key).2 := by
  have hself : p.Refines p p.tiers := ⟨hp, rfl, rfl⟩
  have hreply : getValue Faults.none.sql p.db key = .of (stored p.tiers.db key) :=
    getValue_eq p.db key
  unfold Tiers.get
  rcases reqGet_cases .none p key with ⟨hdirect, hget⟩ | ⟨hcache, hget⟩
  · have hnot : ¬ (p.cachingRegime ≠ .noCache ∧ keyFits key = true) := by
      rintro ⟨hr, hfits⟩
      rcases hdirect with hno | hlarge
      · exact hr hno
      · rw [hfits] at hlarge
        cases hlarge
    rw [if_neg hnot, hget, hreply]
    exact ⟨rfl, hself⟩
  · have hfit : key.strlen + 1 < keySize := by simpa [keyFits] using hcache.2
    rw [if_pos hcache]
    rcases hget with ⟨value, hentry, hget⟩ | ⟨hentry, hget⟩ | ⟨hentry, hget⟩
    · have hentry' : p.tiers.cache key = some (some value) := hentry
      rw [hget, hentry']
      exact ⟨rfl, hself⟩
    · have hentry' : p.tiers.cache key = some none := hentry
      rw [hget, hentry']
      exact ⟨rfl, hself⟩
    · -- the database replies, and fills the cache with a missing key and with a value that fits
      have hentry' : p.tiers.cache key = none := hentry
      rw [hentry']
      rw [hreply] at hget
      cases hvalue : stored p.tiers.db key with
      | none =>
          rw [hvalue] at hget
          rcases hget with ⟨-, hget⟩ | ⟨value, hof, -⟩ | ⟨⟨hnon, -⟩, -⟩
          · rw [hget]
            refine ⟨rfl, hp.with_maps _ _, rfl, ?_⟩
            simp [Proxy.tiers, Tiers.cacheWrite, cached_set_deleted hfit]
          · cases hof
          · exact absurd rfl hnon
      | some value =>
          rw [hvalue] at hget
          rcases hget with ⟨hnon, -⟩ | ⟨value', hof, hfits, hget⟩ | ⟨⟨-, hlarge⟩, hget⟩
          · cases hnon
          · obtain rfl : value = value' := Option.some.inj (congrArg GetReply.value hof)
            have hlen : value.strlen + 1 < valueSize := by simpa [valueFits] using hfits
            rw [hget]
            refine ⟨rfl, hp.with_maps _ _, rfl, ?_⟩
            simp [Proxy.tiers, Tiers.cacheWrite, cached_set_live hfit _ hlen, hfits]
          · rw [hget]
            refine ⟨rfl, ?_⟩
            rw [if_neg (by simp [hlarge value rfl])]
            exact hself

theorem reqSet_refines (key value : CString) :
    ∃ p', reqSet .none p key value = some (.ok, p') ∧
      p.Refines p' (p.tiers.set p.cachingRegime key value) := by
  rcases reqSet_cases .none p key value with ⟨hdirect, hset⟩ | ⟨hfits, hset⟩
  · rw [Tiers.set_of_direct hdirect]
    exact ⟨_, hset, hp.with_maps _ _, rfl, rfl⟩
  · have hkey : key.strlen + 1 < keySize := by
      simpa [keyFits] using (Bool.and_eq_true_iff.mp hfits).1
    have hvalue : value.strlen + 1 < valueSize := by
      simpa [valueFits] using (Bool.and_eq_true_iff.mp hfits).2
    have hhashes : cached (setHashTable p.hashes key (some value) 0) =
        Function.update (cached p.hashes) key (some (some value)) :=
      cached_set_live hkey _ hvalue
    unfold Tiers.set
    rw [if_pos hfits]
    rcases hset with ⟨hr, ⟨herr, -⟩ | ⟨-, hset⟩⟩ | ⟨hr, hset⟩ | ⟨hr, hset⟩
    · cases herr
    · refine ⟨_, hset, hp.with_maps _ _, rfl, ?_⟩
      simp [hr, Tiers.dbWrite, Tiers.cacheWrite, Proxy.tiers, hhashes, setValue, Faults.none]
    · refine ⟨_, hset, hp.with_maps _ _, rfl, ?_⟩
      simp [hr, Tiers.cacheWrite, Proxy.tiers, hhashes]
    · have hp' := hp.with_maps p.db (setHashTable p.hashes key (some value) 0)
      obtain ⟨p', hlog, hrefines⟩ := addLog_refines hp' hr key (some value) (by omega)
        (by intro v hv; cases hv; omega)
      have hlog' : addLog .none { p with hashes := setHashTable p.hashes key (some value) 0 }
          .set key (some value) = some (0, p') := hlog
      refine ⟨p', ?_, hrefines.inv, hrefines.cachingRegime_eq, ?_⟩
      · rw [hset, hlog']
        rfl
      · rw [hrefines.tiers_eq]
        simp [hr, Tiers.cacheWrite, Proxy.tiers, hhashes]

omit hp in
theorem delCached_eq (key : CString) :
    delCached false p key = ((p.tiers.delBelow key).1, (p.tiers.delBelow key).2.db) := by
  have htier : p.tiers.cache key = cached p.hashes key := rfl
  unfold delCached Tiers.delBelow
  rw [checkHashTable_eq]
  cases hentry : cached p.hashes key with
  | none =>
      simp only [htier, hentry, Option.join_none, Option.isSome_none, delValue_eq]
      rfl
  | some entry =>
      cases entry <;> simp [hentry, Tiers.deleted, Proxy.tiers]

theorem reqDel_refines (key : CString) :
    ∃ p', reqDel .none p key = some ((p.tiers.del p.cachingRegime key).1, p') ∧
      p.Refines p' (p.tiers.del p.cachingRegime key).2 := by
  have hdelValue : delValue Faults.none.sql p.db key =
      (Tiers.deleted (p.db key).isSome, applyWrite p.db (key, none)) := delValue_eq p.db key
  rcases reqDel_cases .none p key with ⟨hdirect, hdel⟩ | ⟨hfits, hdel⟩
  · rw [hdelValue] at hdel
    rw [Tiers.del_of_direct hdirect]
    exact ⟨_, hdel, hp.with_maps _ _, rfl, rfl⟩
  · have hkey : key.strlen + 1 < keySize := by simpa [keyFits] using hfits
    have hhashes : cached (setHashTable p.hashes key none 1) =
        Function.update (cached p.hashes) key (some none) := cached_set_deleted hkey _
    have hbelow : (p.tiers.delBelow key).2 = { p.tiers with db := (p.tiers.delBelow key).2.db } := by
      unfold Tiers.delBelow
      cases p.tiers.cache key <;> rfl
    have htiers : ∀ db, Proxy.tiers { p with db := db, hashes := setHashTable p.hashes key none 1 } =
        ({ p.tiers with db := db } : Tiers).cacheWrite (key, none) := by
      intro db
      simp [Tiers.cacheWrite, Proxy.tiers, hhashes]
    have hcached : delCached Faults.none.sql p key =
        ((p.tiers.delBelow key).1, (p.tiers.delBelow key).2.db) := delCached_eq key
    rw [hdelValue, hcached] at hdel
    unfold Tiers.del
    rw [if_pos hfits]
    rcases hdel with ⟨hr, ⟨herr, -⟩ | ⟨-, hdel⟩⟩ | ⟨hr, hdel⟩ | ⟨hr, hdel⟩
    · unfold Tiers.deleted at herr
      split at herr <;> cases herr
    · rw [hr]
      exact ⟨_, hdel, hp.with_maps _ _, rfl, htiers _⟩
    · rw [hr]
      exact ⟨_, hdel, hp.with_maps _ _, rfl, by rw [htiers, ← hbelow]⟩
    · have hp' := hp.with_maps (p.tiers.delBelow key).2.db (setHashTable p.hashes key none 1)
      obtain ⟨p', hlog, hrefines⟩ := addLog_refines hp' hr key none (by omega) (by simp)
      have hlog' : addLog .none { p with
          db := (p.tiers.delBelow key).2.db
          hashes := setHashTable p.hashes key none 1 } .del key none = some (0, p') := hlog
      rw [hr]
      refine ⟨p', ?_, hrefines.inv, hrefines.cachingRegime_eq, ?_⟩
      · rw [hdel, hlog']
        rfl
      · rw [hrefines.tiers_eq, htiers, ← hbelow]

/-- One event of the worker is one step of the three maps. -/
theorem step_refines (e : Event) :
    ∃ p', p.step e = some ((p.tiers.step p.cachingRegime e).1, p') ∧
      p.Refines p' (p.tiers.step p.cachingRegime e).2 := by
  cases e with
  | get key =>
      obtain ⟨hreply, hrefines⟩ := reqGet_refines hp key
      exact ⟨_, by simp [Proxy.step, Tiers.step, hreply], hrefines⟩
  | set key value =>
      obtain ⟨p', hset, hrefines⟩ := reqSet_refines hp key value
      exact ⟨p', by simp [Proxy.step, Tiers.step, hset], hrefines⟩
  | del key =>
      obtain ⟨p', hdel, hrefines⟩ := reqDel_refines hp key
      exact ⟨p', by simp [Proxy.step, Tiers.step, hdel], hrefines⟩
  | sync =>
      by_cases hr : p.cachingRegime = .defferDump
      · obtain ⟨p', hsync, hrefines⟩ := syncWithDb_refines hp hr
        exact ⟨p', by simp [Proxy.step, Tiers.step, hsync, hr], by simpa [Tiers.step, hr]⟩
      · have hlogger := hp.logger_eq_none hr
        exact ⟨p, by simp [Proxy.step, Tiers.step, syncWithDb, hlogger, hr], hp, rfl,
          by simp [Tiers.step, hr]⟩

/-- A run of the worker returns what the three maps return, and never meets a null pointer. -/
theorem run_refines (events : List Event) :
    ∃ p', p.run events = some (p.tiers.results p.cachingRegime events, p') ∧
      p.Refines p' (p.tiers.after p.cachingRegime events) := by
  induction events generalizing p with
  | nil => exact ⟨p, rfl, hp, rfl, rfl⟩
  | cons e events ih =>
      obtain ⟨p₁, hstep, hrefines₁⟩ := step_refines hp e
      obtain ⟨p₂, hrun, hrefines₂⟩ := ih hrefines₁.inv
      rw [hrefines₁.cachingRegime_eq, hrefines₁.tiers_eq] at hrun hrefines₂
      refine ⟨p₂, ?_, hrefines₂.inv, ?_, ?_⟩
      · simp [Proxy.run, hstep, hrun, Tiers.results]
      · rw [hrefines₂.cachingRegime_eq, hrefines₁.cachingRegime_eq]
      · rw [hrefines₂.tiers_eq, Tiers.after_cons]

end Refinement

end PgRedisProxy
