import PgRedisProxy.Store.Coherence

/-!
# Deferred dumping

Under `DEFFER_DUMP`, updates that fit the cache wait in the log until a
synchronization replays them, while the others reach the database at once.
`synced_db_iff` says when the database then holds the last update of every key: a
large SET made while an older update of its key waits in the log is overwritten by
it. `defferDump_results_eq` says that clients cannot see the synchronizations: the
results are those of `ONLY_CACHE`, by a simulation in which the databases agree on
every key without a cache entry.
-/

namespace PgRedisProxy

open CLang KeyValue

namespace Tiers

/-! ## What a synchronization leaves in the database -/

/-- The database as the next synchronization will leave it. -/
def settled (t : Tiers) : Hstore :=
  replay t.db t.pending

/-- A SET that goes to the database while an older update of its key waits in the log. -/
def Overtakes (t : Tiers) (key value : CString) : Prop :=
  valueFits value = false ∧ ∃ w ∈ t.pending, w.1 = key

@[simp] theorem settled_cacheWrite (t : Tiers) (w : Write CString CString) :
    (t.cacheWrite w).settled = t.settled := rfl

@[simp] theorem settled_log (t : Tiers) (w : Write CString CString) :
    (t.log w).settled = applyWrite t.settled w := by
  simp only [log]
  split
  · exact replay_concat t.db t.pending w
  · exact replay_concat t.db t.pending w

section Settled

variable {t : Tiers} (h : t.Coherent .defferDump)
include h

theorem Coherent.pending_key_fits {w : Write CString CString} (hw : w ∈ t.pending) :
    keyFits w.1 = true :=
  h.key_fits w.1 (h.pending_cached w hw)

/-- A write to the database of a key without a cache entry is not overtaken. -/
theorem settled_dbWrite {w : Write CString CString} (hnone : t.cache w.1 = none) :
    (t.dbWrite w).settled = applyWrite t.settled w := by
  apply replay_applyWrite_of_notMem
  intro u hu huw
  have hcached := h.pending_cached u hu
  rw [huw, hnone] at hcached
  cases hcached

omit h in
theorem settled_get (key : CString) : (t.get .defferDump key).2.settled = t.settled := by
  rcases get_cases .defferDump t key with hsame | ⟨-, -, -, -, hfilled⟩
  · rw [hsame]
  · rw [hfilled, settled_cacheWrite]

omit h in
/-- A SET that overtakes a logged update is lost. -/
theorem settled_set_overtaking {key value : CString} (hovertakes : t.Overtakes key value) :
    (t.set .defferDump key value).settled = t.settled := by
  obtain ⟨hvalue, hpending⟩ := hovertakes
  unfold set
  rw [if_neg (by simp [hvalue])]
  exact replay_applyWrite_of_mem hpending t.db

/-- Any other SET reaches the database. -/
theorem settled_set {key value : CString} (hovertakes : ¬ t.Overtakes key value) :
    (t.set .defferDump key value).settled = applyWrite t.settled (key, some value) := by
  unfold set
  by_cases hfits : (keyFits key && valueFits value) = true
  · rw [if_pos hfits]
    simp
  · rw [if_neg hfits]
    apply replay_applyWrite_of_notMem
    intro u hu huk
    refine hovertakes ⟨?_, u, hu, huk⟩
    have hkey : keyFits key = true := by
      rw [← show u.1 = key from huk]
      exact h.pending_key_fits hu
    simpa [hkey] using hfits

/-- A DEL reaches the database. -/
theorem settled_del (key : CString) :
    (t.del .defferDump key).2.settled = applyWrite t.settled (key, none) := by
  unfold del
  by_cases hkey : keyFits key = true
  · rw [if_pos hkey]
    simp only [settled_log, settled_cacheWrite]
    unfold delBelow
    cases hentry : t.cache key with
    | some entry => rfl
    | none =>
        rw [settled_dbWrite (w := (key, none)) h hentry]
        simp [applyWrite]
  · rw [if_neg hkey]
    exact settled_dbWrite h (h.cache_eq_none _ (.inr (by simpa using hkey)))

/-- An overtaking SET leaves another value in its key than its own. -/
theorem settled_ne_of_overtakes {key value : CString} (hovertakes : t.Overtakes key value) :
    t.settled key ≠ some value := by
  obtain ⟨hvalue, hpending⟩ := hovertakes
  obtain ⟨w, hw, -, hsettled⟩ := exists_mem_of_replay hpending t.db
  intro heq
  have hfits : valueFits value = true := h.pending_fits w hw value (by
    rw [settled, hsettled] at heq
    exact heq)
  rw [hvalue] at hfits
  cases hfits

/-- An event leaves every key it does not update. -/
theorem settled_step_of_not_updates {e : Event} {key : CString} (he : ¬ e.Updates key) :
    (t.step .defferDump e).2.settled key = t.settled key := by
  cases e with
  | get k => exact congrFun (settled_get k) key
  | sync => rfl
  | set k v =>
      have hk : key ≠ k := fun hk => he (by simp [hk])
      show (t.set .defferDump k v).settled key = t.settled key
      by_cases hovertakes : t.Overtakes k v
      · rw [settled_set_overtaking hovertakes]
      · rw [settled_set h hovertakes, applyWrite, Function.update_of_ne hk]
  | del k =>
      have hk : key ≠ k := fun hk => he (by simp [hk])
      show (t.del .defferDump k).2.settled key = t.settled key
      rw [settled_del h, applyWrite, Function.update_of_ne hk]

/-- An event stores what it asks for unless it overtakes a logged update. -/
theorem settled_step_of_updates {e : Event} {w : Write CString CString}
    (he : e.update? = some w) :
    (t.step .defferDump e).2.settled w.1 = w.2 ↔
      ¬ ∃ value, e = .set w.1 value ∧ t.Overtakes w.1 value := by
  cases e with
  | get k => cases he
  | sync => cases he
  | set k v =>
      cases he
      show (t.set .defferDump k v).settled k = some v ↔ _
      by_cases hovertakes : t.Overtakes k v
      · rw [settled_set_overtaking hovertakes]
        simp [settled_ne_of_overtakes h hovertakes, hovertakes]
      · rw [settled_set h hovertakes]
        simp [applyWrite, hovertakes]
  | del k =>
      cases he
      show (t.del .defferDump k).2.settled k = none ↔ _
      rw [settled_del h]
      simp [applyWrite]

end Settled

end Tiers

/-- What the last SET or DEL of each key asks for. -/
def lastUpdate (events : List Event) : Entries CString CString :=
  lastWrite (events.filterMap Event.update?)

/-- An update of this key waits in the log. -/
def Proxy.Logged (p : Proxy) (key : CString) : Prop :=
  ∃ lg ∈ p.logger, ∃ w ∈ lg.pending, w.1 = key

/-- The last update of `key` is a SET of a value too large for the cache, made while an older update
of the key was waiting in the log. -/
def Overtaken (db : Hstore) (events : List Event) (key : CString) : Prop :=
  ∃ earlier value later rs p, events = earlier ++ .set key value :: later ∧
    (∀ e ∈ later, ¬ e.Updates key) ∧
    (Proxy.start .defferDump db).run earlier = some (rs, p) ∧
    valueFits value = false ∧ p.Logged key

/-- The state right after a successful synchronization. -/
def AfterSync (p : Proxy) : Prop :=
  ∃ before, syncWithDb .none before = some (0, p)

theorem logged_iff {p : Proxy} {key : CString} :
    p.Logged key ↔ ∃ w ∈ p.tiers.pending, w.1 = key := by
  unfold Proxy.Logged Proxy.tiers
  cases p.logger <;> simp

/-- Nothing waits in the log right after a synchronization. -/
theorem AfterSync.pending_eq_nil {p : Proxy} (hsync : AfterSync p) (hp : p.Inv) :
    p.tiers.pending = [] := by
  obtain ⟨before, hsync⟩ := hsync
  unfold syncWithDb at hsync
  cases hlogger : before.logger with
  | none => simp [hlogger] at hsync
  | some lg =>
      simp only [hlogger, show Faults.none.transaction = false from rfl] at hsync
      by_cases hempty : lg.nodes = [] ∨ lg.sumSizeOperation = 0
      · rw [if_pos hempty] at hsync
        cases hsync
        rcases hempty with hnodes | hsum
        · simp [Proxy.tiers, hlogger, Logger.pending, hnodes]
        · have hcount := (hp.logger_inv lg hlogger).sum_eq_zero_iff.mp hsum
          simp [Proxy.tiers, hlogger, Logger.pending, hcount]
      · rw [if_neg hempty] at hsync
        by_cases hchain : lg.nodes.length < lg.countOperation
        · simp [hchain] at hsync
        · simp only [hchain, if_false, Bool.false_eq_true] at hsync
          cases hsync
          simp [Proxy.tiers]

section Overtaken

variable {db : Hstore} {events : List Event} {key : CString}

theorem overtaken_concat_of_not_updates {e : Event} (he : ¬ e.Updates key) :
    Overtaken db (events ++ [e]) key ↔ Overtaken db events key := by
  constructor
  · rintro ⟨earlier, value, later, rs, p, hevents, hlater, hrest⟩
    rcases List.eq_nil_or_concat' later with rfl | ⟨later, last, rfl⟩
    · obtain ⟨-, rfl⟩ := List.append_singleton_inj.mp hevents
      simp at he
    · have hsplit : events ++ [e] = (earlier ++ .set key value :: later) ++ [last] := by
        simpa using hevents
      obtain ⟨rfl, rfl⟩ := List.append_singleton_inj.mp hsplit
      exact ⟨earlier, value, later, rs, p, rfl,
        fun e' he' => hlater e' (List.mem_append_left _ he'), hrest⟩
  · rintro ⟨earlier, value, later, rs, p, rfl, hlater, hrest⟩
    refine ⟨earlier, value, later ++ [e], rs, p, by simp, ?_, hrest⟩
    intro e' he'
    rcases List.mem_append.mp he' with he' | he'
    · exact hlater e' he'
    · rwa [List.mem_singleton.mp he']

theorem overtaken_concat_of_updates {e : Event} (he : e.Updates key) :
    Overtaken db (events ++ [e]) key ↔
      ∃ value, e = .set key value ∧
        ((Tiers.start db).after .defferDump events).Overtakes key value := by
  constructor
  · rintro ⟨earlier, value, later, rs, p, hevents, hlater, hrun, hvalue, hlogged⟩
    rcases List.eq_nil_or_concat' later with rfl | ⟨later, last, rfl⟩
    · obtain ⟨rfl, rfl⟩ := List.append_singleton_inj.mp hevents
      have hreached := reached_of_run hrun
      rw [logged_iff, hreached.tiers_eq] at hlogged
      exact ⟨value, rfl, hvalue, hlogged⟩
    · have hsplit : events ++ [e] = (earlier ++ .set key value :: later) ++ [last] := by
        simpa using hevents
      obtain ⟨-, rfl⟩ := List.append_singleton_inj.mp hsplit
      exact absurd he (hlater e (by simp))
  · rintro ⟨value, rfl, hvalue, hpending⟩
    obtain ⟨p, hrun, hreached⟩ := start_run .defferDump db events
    refine ⟨events, value, [], _, p, rfl, by simp, hrun, hvalue, ?_⟩
    rwa [logged_iff, hreached.tiers_eq]

end Overtaken

theorem lastUpdate_concat_of_not_updates {events : List Event} {e : Event} {key : CString}
    (he : ¬ e.Updates key) : lastUpdate (events ++ [e]) key = lastUpdate events key := by
  unfold lastUpdate
  rw [List.filterMap_append]
  cases hu : e.update? with
  | none => simp [hu]
  | some u =>
      have huk : key ≠ u.1 := fun huk => he ⟨u, hu, huk.symm⟩
      simp [hu, huk]

theorem lastUpdate_concat_of_updates {events : List Event} {e : Event}
    {w : Write CString CString} (he : e.update? = some w) :
    lastUpdate (events ++ [e]) w.1 = some w.2 := by
  simp [lastUpdate, he]

/-- After any run, the next synchronization leaves the last update of a key in the database exactly
when it has not been overtaken. -/
theorem settled_eq_iff {db : Hstore} {events : List Event} {key : CString} {w : Option CString}
    (hlast : lastUpdate events key = some w) :
    ((Tiers.start db).after .defferDump events).settled key = w ↔ ¬ Overtaken db events key := by
  induction events using List.reverseRecOn with
  | nil => simp [lastUpdate] at hlast
  | append_singleton events e ih =>
      have h := Tiers.after_coherent (Tiers.start_coherent .defferDump db) events
      rw [Tiers.after_concat]
      by_cases he : e.Updates key
      · rw [overtaken_concat_of_updates he]
        obtain ⟨u, hu, rfl⟩ := he
        rw [lastUpdate_concat_of_updates hu, Option.some.injEq] at hlast
        rw [← hlast]
        exact Tiers.settled_step_of_updates h hu
      · rw [overtaken_concat_of_not_updates he, Tiers.settled_step_of_not_updates h he]
        rw [lastUpdate_concat_of_not_updates he] at hlast
        exact ih hlast

/-- In every run, right after a synchronization the database holds the last update of every key
that was ever updated exactly when no key's last update has been overtaken. An update whose
statement has a size that is no `int` is never acknowledged (`Order.process_eq_serveOn`), and
nothing is said of it here. -/
theorem synced_db_iff {db : Hstore} {events : List Event} {rs : List Result} {p : Proxy}
    (hrun : (Proxy.start .defferDump db).run events = some (rs, p)) (hsync : AfterSync p) :
    (∀ key w, lastUpdate events key = some w → p.db key = w) ↔
      ∀ key, ¬ Overtaken db events key := by
  have hreached := reached_of_run hrun
  have hpending := hsync.pending_eq_nil hreached.inv
  have hsettled : p.db = ((Tiers.start db).after .defferDump events).settled := by
    rw [← hreached.tiers_eq, Tiers.settled, hpending]
    rfl
  rw [hsettled]
  constructor
  · intro hall key hovertaken
    have hlast : ∃ w, lastUpdate events key = some w := by
      obtain ⟨earlier, value, later, -, -, rfl, -⟩ := hovertaken
      apply Option.isSome_iff_exists.mp
      rw [lastUpdate, lastWrite_isSome_iff]
      exact ⟨(key, some value), by simp [Event.update?], rfl⟩
    obtain ⟨w, hw⟩ := hlast
    exact (settled_eq_iff hw).mp (hall key w hw) hovertaken
  · intro hnone key w hlast
    exact (settled_eq_iff hlast).mpr (hnone key)

/-- A small value that is set and then synchronized. -/
theorem synced_db_small :
    ∃ rs p, (Proxy.start .defferDump fun _ => none).run [.set sampleKey smallValue, .sync] =
        some (rs, p) ∧
      ((∀ key w, lastUpdate [.set sampleKey smallValue, .sync] key = some w → p.db key = w) ↔
        ∀ key, ¬ Overtaken (fun _ => none) [.set sampleKey smallValue, .sync] key) :=
  let before := (Proxy.start .defferDump fun _ => none).run [.set sampleKey smallValue]
  ⟨_, _, rfl, synced_db_iff rfl ⟨(before.get rfl).2, rfl⟩⟩

/-- A large value set while a small one of the same key waits in the log is lost at the next
synchronization. -/
theorem large_set_overtaken :
    ∃ rs p, (Proxy.start .defferDump fun _ => none).run
        [.set sampleKey smallValue, .set sampleKey largeValue, .sync] = some (rs, p) ∧
      AfterSync p ∧
      lastUpdate [.set sampleKey smallValue, .set sampleKey largeValue, .sync] sampleKey =
        some (some largeValue) ∧
      p.db sampleKey ≠ some largeValue := by
  let before := (Proxy.start .defferDump fun _ => none).run
    [.set sampleKey smallValue, .set sampleKey largeValue]
  refine ⟨_, _, rfl, ⟨(before.get rfl).2, rfl⟩, by decide, ?_⟩
  -- the row holds the small value again
  decide +kernel

/-! ## Synchronizations are invisible -/

namespace Tiers

/-- `t` under `DEFFER_DUMP` and `o` under `ONLY_CACHE` after the same requests: the caches are the
same, and the databases agree on every key that the caches do not answer. -/
structure Matches (t o : Tiers) : Prop where
  coherent : t.Coherent .defferDump
  cache_eq : t.cache = o.cache
  db_eq : ∀ k, t.cache k = none → t.db k = o.db k

section Matches

variable {t o : Tiers} (h : t.Matches o)
include h

theorem Matches.cacheWrite {w : Write CString CString} (hkey : keyFits w.1 = true)
    (hvalue : ∀ v ∈ w.2, valueFits v = true) : (t.cacheWrite w).Matches (o.cacheWrite w) where
  coherent := h.coherent.cacheWrite (by simp) hkey hvalue
  cache_eq := by rw [Tiers.cacheWrite, Tiers.cacheWrite, h.cache_eq]
  db_eq := by
    intro k hk
    by_cases hkw : k = w.1
    · rw [hkw, t.cacheWrite_self] at hk
      cases hk
    · rw [t.cacheWrite_of_ne hkw] at hk
      exact h.db_eq k hk

theorem Matches.dbWrite (w : Write CString CString) : (t.dbWrite w).Matches (o.dbWrite w) where
  coherent := h.coherent.dbWrite w
  cache_eq := h.cache_eq
  db_eq := by
    intro k hk
    by_cases hkw : k = w.1
    · simp [Tiers.dbWrite, applyWrite, hkw]
    · simpa [Tiers.dbWrite, applyWrite, hkw] using h.db_eq k hk

/-- The synchronization writes only keys that the cache answers. -/
theorem Matches.flush : t.flush.Matches o where
  coherent := h.coherent.flush
  cache_eq := h.cache_eq
  db_eq := by
    intro k hk
    have hpending : ∀ w ∈ t.pending, w.1 ≠ k := by
      rintro w hw rfl
      have hcached := h.coherent.pending_cached w hw
      rw [show t.cache w.1 = none from hk] at hcached
      cases hcached
    show replay t.db t.pending k = o.db k
    rw [replay_of_notMem hpending]
    exact h.db_eq k hk

theorem Matches.log {w : Write CString CString} (hcached : (t.cache w.1).isSome)
    (hvalue : ∀ v ∈ w.2, valueFits v = true) : (t.log w).Matches o := by
  have hlogged := h.coherent.log hcached hvalue
  have happended : ∀ k, t.cache k = none → replay t.db (t.pending ++ [w]) k = o.db k := by
    intro k hk
    have hkw : k ≠ w.1 := by
      rintro rfl
      rw [hk] at hcached
      cases hcached
    rw [replay_concat, applyWrite, Function.update_of_ne hkw]
    exact h.flush.db_eq k hk
  simp only [Tiers.log] at hlogged ⊢
  split at hlogged
  · rename_i hfull
    rw [if_pos hfull]
    exact ⟨hlogged, h.cache_eq, happended⟩
  · rename_i hroom
    rw [if_neg hroom]
    exact ⟨hlogged, h.cache_eq, h.db_eq⟩

theorem Matches.stored_eq {key : CString} (hnone : t.cache key = none) :
    stored t.db key = stored o.db key := by
  simp only [stored, h.db_eq key hnone]

theorem Matches.get (key : CString) :
    (t.get .defferDump key).1 = (o.get .onlyCache key).1 ∧
      (t.get .defferDump key).2.Matches (o.get .onlyCache key).2 := by
  by_cases hkey : keyFits key = true
  · cases hentry : t.cache key with
    | some entry =>
        have hentry' : o.cache key = some entry := h.cache_eq ▸ hentry
        cases entry <;> simp [Tiers.get, hkey, hentry, hentry', h]
    | none =>
        have hentry' : o.cache key = none := h.cache_eq ▸ hentry
        by_cases hfits : (stored o.db key).all valueFits = true
        · simp only [Tiers.get, hkey, hentry, hentry', h.stored_eq hentry, hfits, if_true, ne_eq,
            reduceCtorEq, not_false_eq_true, and_self, true_and]
          refine h.cacheWrite hkey ?_
          intro v hv
          have hstored : stored o.db key = some v := hv
          simpa [hstored] using hfits
        · simp [Tiers.get, hkey, hentry, hentry', h.stored_eq hentry, hfits, h]
  · have hnone := h.coherent.cache_eq_none key (.inr (by simpa using hkey))
    simp [Tiers.get, hkey, h.stored_eq hnone, h]

theorem Matches.set (key value : CString) :
    (t.set .defferDump key value).Matches (o.set .onlyCache key value) := by
  unfold Tiers.set
  by_cases hfits : (keyFits key && valueFits value) = true
  · rw [if_pos hfits, if_pos hfits]
    obtain ⟨hkey, hvalue⟩ := Bool.and_eq_true_iff.mp hfits
    have hvalue' : ∀ v ∈ some value, valueFits v = true := by
      intro v hv
      cases hv
      exact hvalue
    exact (h.cacheWrite hkey hvalue').log (t.cacheWrite_isSome _) hvalue'
  · rw [if_neg hfits, if_neg hfits]
    exact h.dbWrite _

theorem Matches.delBelow (key : CString) :
    (t.delBelow key).1 = (o.delBelow key).1 ∧ (t.delBelow key).2.Matches (o.delBelow key).2 := by
  unfold Tiers.delBelow
  rw [← h.cache_eq]
  cases hentry : t.cache key with
  | some entry => exact ⟨rfl, h⟩
  | none => exact ⟨by rw [h.db_eq key hentry], h.dbWrite _⟩

theorem Matches.del (key : CString) :
    (t.del .defferDump key).1 = (o.del .onlyCache key).1 ∧
      (t.del .defferDump key).2.Matches (o.del .onlyCache key).2 := by
  obtain ⟨hres, hbelow⟩ := h.delBelow key
  unfold Tiers.del
  by_cases hkey : keyFits key = true
  · rw [if_pos hkey, if_pos hkey]
    exact ⟨hres, (hbelow.cacheWrite hkey (by simp)).log (cacheWrite_isSome _ _) (by simp)⟩
  · rw [if_neg hkey, if_neg hkey]
    have hnone := h.coherent.cache_eq_none key (.inr (by simpa using hkey))
    exact ⟨by rw [h.db_eq key hnone], h.dbWrite _⟩

/-- A request has the same result in both regimes. -/
theorem Matches.step {e : Event} (he : e ≠ .sync) :
    (t.step .defferDump e).1 = (o.step .onlyCache e).1 ∧
      (t.step .defferDump e).2.Matches (o.step .onlyCache e).2 := by
  cases e with
  | get key =>
      obtain ⟨hreply, hmatches⟩ := h.get key
      exact ⟨congrArg Result.got hreply, hmatches⟩
  | set key value => exact ⟨rfl, h.set key value⟩
  | del key =>
      obtain ⟨hres, hmatches⟩ := h.del key
      exact ⟨congrArg Result.done hres, hmatches⟩
  | sync => exact absurd rfl he

end Matches

end Tiers

/-- A result that goes to a client. -/
def Result.toClient : Result → Bool
  | .got _ | .done _ => true
  | .synced _ => false

theorem Tiers.toClient_step (r : DumpStatus) (t : Tiers) {e : Event} (he : e ≠ .sync) :
    (t.step r e).1.toClient = true := by
  cases e with
  | get key => rfl
  | set key value => rfl
  | del key => rfl
  | sync => exact absurd rfl he

/-- Clients get the same results from matching states. -/
theorem Tiers.Matches.results {t o : Tiers} (h : t.Matches o) (events : List Event) :
    (t.results .defferDump events).filter Result.toClient =
      o.results .onlyCache (events.filter fun e => e ≠ .sync) := by
  induction events generalizing t o with
  | nil => rfl
  | cons e events ih =>
      by_cases he : e = .sync
      · subst he
        simpa [Tiers.results, Tiers.step, Result.toClient] using ih h.flush
      · obtain ⟨hresult, hmatches⟩ := h.step he
        rw [Tiers.results, List.filter_cons_of_pos (toClient_step _ _ he), ih hmatches, hresult,
          List.filter_cons_of_pos (by simpa using he), Tiers.results]

/-- Under `DEFFER_DUMP`, with synchronizations anywhere in a run, clients get the results that they
get under `ONLY_CACHE` from the same database. -/
theorem defferDump_results_eq (db : Hstore) (events : List Event) :
    ∃ rs p rs' q, (Proxy.start .defferDump db).run events = some (rs, p) ∧
      (Proxy.start .onlyCache db).run (events.filter fun e => e ≠ .sync) = some (rs', q) ∧
      rs.filter Result.toClient = rs' := by
  obtain ⟨p, hrun, -⟩ := start_run .defferDump db events
  obtain ⟨q, hrun', -⟩ := start_run .onlyCache db (events.filter fun e => e ≠ .sync)
  have hstart : (Tiers.start db).Matches (Tiers.start db) :=
    ⟨Tiers.start_coherent _ db, rfl, fun _ _ => rfl⟩
  exact ⟨_, p, _, q, hrun, hrun', hstart.results events⟩

end PgRedisProxy
