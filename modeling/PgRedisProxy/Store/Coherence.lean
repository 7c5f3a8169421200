import PgRedisProxy.Store.Tiers

/-!
# What the cache may say in every run

`Tiers.Coherent` is the invariant of all four regimes: only keys and values that
fit are cached, every logged key has a cache entry, and `NO_CACHE` caches nothing.
`Tiers.view` is the map a client sees, the cache laid over the database.
`step_coherent` and `after_coherent` keep the invariant along a run, and `view_get`,
`view_set`, `view_del`, and `view_flush` say what one event does to the view. A SET
that bypasses a cache entry is the one request whose value the view misses.
-/

namespace PgRedisProxy

open CLang KeyValue

namespace Event

/-- The write an event asks for. -/
def update? : Event → Option (Write CString CString)
  | .set key value => some (key, some value)
  | .del key => some (key, none)
  | .get _ | .sync => none

/-- An event that is a SET or a DEL of this key. -/
def Updates (e : Event) (key : CString) : Prop :=
  ∃ w ∈ e.update?, w.1 = key

@[simp] theorem updates_set (k v key : CString) : (set k v).Updates key ↔ k = key := by
  simp [Updates, update?]

@[simp] theorem updates_del (k key : CString) : (del k).Updates key ↔ k = key := by
  simp [Updates, update?]

end Event

namespace Tiers

/-- The map a client sees. -/
def view (t : Tiers) : Hstore :=
  overlay t.cache t.db

/-- The invariant of a caching regime. -/
structure Coherent (r : DumpStatus) (t : Tiers) : Prop where
  key_fits : ∀ k, (t.cache k).isSome → keyFits k
  value_fits : ∀ k v, t.cache k = some (some v) → valueFits v
  pending_cached : ∀ w ∈ t.pending, (t.cache w.1).isSome
  pending_fits : ∀ w ∈ t.pending, ∀ v ∈ w.2, valueFits v
  noCache_empty : r = .noCache → t.cache = fun _ => none

theorem start_coherent (r : DumpStatus) (db : Hstore) :
    (Tiers.start db).Coherent r where
  key_fits := by simp [Tiers.start]
  value_fits := by simp [Tiers.start]
  pending_cached := by simp [Tiers.start]
  pending_fits := by simp [Tiers.start]
  noCache_empty := fun _ => rfl

/-- A GET changes nothing, or caches what the database has for a key without an entry. -/
theorem get_cases (r : DumpStatus) (t : Tiers) (key : CString) :
    (t.get r key).2 = t ∨
      r ≠ .noCache ∧ keyFits key = true ∧ t.cache key = none ∧
        (∀ v ∈ stored t.db key, valueFits v = true) ∧
        (t.get r key).2 = t.cacheWrite (key, stored t.db key) := by
  unfold get
  by_cases hcache : r ≠ .noCache ∧ keyFits key = true
  · rw [if_pos hcache]
    cases hentry : t.cache key with
    | some entry => cases entry <;> exact .inl rfl
    | none =>
        by_cases hfits : (stored t.db key).all valueFits = true
        · simp only [hfits, if_true]
          refine .inr ⟨hcache.1, hcache.2, trivial, ?_, trivial⟩
          intro v hv
          rw [Option.mem_def] at hv
          simpa [hv] using hfits
        · simp only [hfits]
          exact .inl rfl
  · rw [if_neg hcache]
    exact .inl rfl

/-- What waits grows by one write, unless the log was full and is flushed. -/
theorem log_pending (t : Tiers) (w : Write CString CString) :
    (t.log w).pending = [] ∨
      (t.log w).pending = t.pending ++ [w] ∧ t.pending.length + 1 ≠ maxCountOperation := by
  simp only [log, List.length_append, List.length_singleton]
  split
  · exact .inl rfl
  · rename_i hroom
    exact .inr ⟨rfl, hroom⟩

/-- An event leaves what waits in the log, flushes it, or adds the write it asks for. -/
theorem step_pending_cases (r : DumpStatus) (t : Tiers) (e : Event) :
    (t.step r e).2.pending = t.pending ∨ (t.step r e).2.pending = [] ∨
      ∃ w ∈ e.update?, (t.step r e).2.pending = t.pending ++ [w] ∧
        t.pending.length + 1 ≠ maxCountOperation := by
  cases e with
  | get key =>
      left
      show (t.get r key).2.pending = t.pending
      rcases get_cases r t key with hsame | ⟨-, -, -, -, hfilled⟩
      · rw [hsame]
      · rw [hfilled]
        rfl
  | set key value =>
      simp only [step, set]
      split
      · cases r with
        | noCache => exact .inl rfl
        | getCache => exact .inl rfl
        | onlyCache => exact .inl rfl
        | defferDump =>
            right
            rcases log_pending (t.cacheWrite (key, some value)) (key, some value) with
              hflushed | hlogged
            · exact .inl hflushed
            · exact .inr ⟨(key, some value), rfl, hlogged⟩
      · exact .inl rfl
  | del key =>
      have hbelow : (t.delBelow key).2.pending = t.pending := by
        unfold delBelow
        split <;> rfl
      simp only [step, del]
      split
      · cases r with
        | noCache => exact .inl rfl
        | getCache => exact .inl rfl
        | onlyCache => exact .inl hbelow
        | defferDump =>
            right
            rcases log_pending ((t.delBelow key).2.cacheWrite (key, none)) (key, none) with
              hflushed | hlogged
            · exact .inl hflushed
            · exact .inr ⟨(key, none), rfl, by rw [← hbelow]; exact hlogged⟩
      · exact .inl rfl
  | sync =>
      by_cases hr : r = .defferDump
      · simp only [step, hr, if_true]
        exact .inr (.inl rfl)
      · simp only [step, hr, if_false]
        exact .inl trivial

section Operations

variable {r : DumpStatus} {t : Tiers} (h : t.Coherent r)
include h

theorem Coherent.dbWrite (w : Write CString CString) : (t.dbWrite w).Coherent r :=
  ⟨h.key_fits, h.value_fits, h.pending_cached, h.pending_fits, h.noCache_empty⟩

theorem Coherent.flush : t.flush.Coherent r :=
  ⟨h.key_fits, h.value_fits, by simp [Tiers.flush], by simp [Tiers.flush], h.noCache_empty⟩

theorem Coherent.with_pending_nil : Coherent r { t with pending := [] } :=
  ⟨h.key_fits, h.value_fits, by simp, by simp, h.noCache_empty⟩

/-- A new entry keeps the invariant if its key and its value fit. -/
theorem Coherent.cacheWrite (hr : r ≠ .noCache) {w : Write CString CString}
    (hkey : keyFits w.1 = true) (hvalue : ∀ v ∈ w.2, valueFits v = true) :
    (t.cacheWrite w).Coherent r where
  key_fits := by
    intro k hk
    by_cases hkw : k = w.1
    · rwa [hkw]
    · rw [t.cacheWrite_of_ne hkw] at hk
      exact h.key_fits k hk
  value_fits := by
    intro k v hk
    by_cases hkw : k = w.1
    · subst hkw
      rw [t.cacheWrite_self, Option.some.injEq] at hk
      exact hvalue v hk
    · rw [t.cacheWrite_of_ne hkw] at hk
      exact h.value_fits k v hk
  pending_cached := by
    intro u hu
    by_cases huw : u.1 = w.1
    · simp [huw]
    · rw [t.cacheWrite_of_ne huw]
      exact h.pending_cached u hu
  pending_fits := h.pending_fits
  noCache_empty := fun hr' => absurd hr' hr

/-- One more logged write keeps the invariant if its key has an entry and its value fits. -/
theorem Coherent.append {w : Write CString CString} (hcached : (t.cache w.1).isSome)
    (hvalue : ∀ v ∈ w.2, valueFits v = true) :
    Coherent r { t with pending := t.pending ++ [w] } where
  key_fits := h.key_fits
  value_fits := h.value_fits
  pending_cached := by
    intro u hu
    rcases List.mem_append.mp hu with hu | hu
    · exact h.pending_cached u hu
    · rwa [List.mem_singleton.mp hu]
  pending_fits := by
    intro u hu
    rcases List.mem_append.mp hu with hu | hu
    · exact h.pending_fits u hu
    · rwa [List.mem_singleton.mp hu]
  noCache_empty := h.noCache_empty

/-- Logging keeps the invariant in the same way. -/
theorem Coherent.log {w : Write CString CString} (hcached : (t.cache w.1).isSome)
    (hvalue : ∀ v ∈ w.2, valueFits v = true) : (t.log w).Coherent r := by
  have happended := h.append hcached hvalue
  simp only [Tiers.log]
  split
  · exact happended.flush
  · exact happended

/-- A cached write that is then logged keeps the invariant. -/
theorem Coherent.cacheWrite_log (hr : r ≠ .noCache) {w : Write CString CString}
    (hkey : keyFits w.1 = true) (hvalue : ∀ v ∈ w.2, valueFits v = true) :
    ((t.cacheWrite w).log w).Coherent r :=
  (h.cacheWrite hr hkey hvalue).log (t.cacheWrite_isSome w) hvalue

theorem Coherent.delBelow (key : CString) : (t.delBelow key).2.Coherent r := by
  unfold Tiers.delBelow
  cases t.cache key with
  | none => exact h.dbWrite _
  | some entry => exact h

theorem get_coherent (key : CString) : (t.get r key).2.Coherent r := by
  rcases get_cases r t key with hsame | ⟨hr, hkey, -, hfits, hfilled⟩
  · rwa [hsame]
  · rw [hfilled]
    exact h.cacheWrite hr hkey hfits

theorem set_coherent (key value : CString) : (t.set r key value).Coherent r := by
  unfold set
  by_cases hfits : (keyFits key && valueFits value) = true
  · rw [if_pos hfits]
    obtain ⟨hkey, hvalue⟩ := Bool.and_eq_true_iff.mp hfits
    have hvalue' : ∀ v ∈ some value, valueFits v = true := by
      intro v hv
      cases hv
      exact hvalue
    cases r with
    | noCache => exact h.dbWrite _
    | getCache => exact (h.dbWrite _).cacheWrite (by simp) hkey hvalue'
    | onlyCache => exact h.cacheWrite (by simp) hkey hvalue'
    | defferDump => exact h.cacheWrite_log (by simp) hkey hvalue'
  · rw [if_neg hfits]
    exact h.dbWrite _

theorem del_coherent (key : CString) : (t.del r key).2.Coherent r := by
  unfold del
  by_cases hkey : keyFits key = true
  · rw [if_pos hkey]
    cases r with
    | noCache => exact h.dbWrite _
    | getCache => exact (h.dbWrite _).cacheWrite (by simp) hkey (by simp)
    | onlyCache => exact (h.delBelow key).cacheWrite (by simp) hkey (by simp)
    | defferDump => exact (h.delBelow key).cacheWrite_log (by simp) hkey (by simp)
  · rw [if_neg hkey]
    exact h.dbWrite _

/-- One event keeps the invariant. -/
theorem step_coherent (e : Event) : (t.step r e).2.Coherent r := by
  cases e with
  | get key => exact get_coherent h key
  | set key value => exact set_coherent h key value
  | del key => exact del_coherent h key
  | sync =>
      by_cases hr : r = .defferDump
      · simp only [step, hr, if_true]
        exact hr ▸ h.flush
      · simp only [step, hr, if_false]
        exact h

/-- A run keeps the invariant. -/
theorem after_coherent (events : List Event) : (t.after r events).Coherent r := by
  induction events generalizing t with
  | nil => exact h
  | cons e events ih => exact ih (step_coherent h e)

/-! ## The view -/

/-- Logging does not show, since every logged key is answered by the cache. -/
theorem view_log {w : Write CString CString} (hcached : (t.cache w.1).isSome) :
    (t.log w).view = t.view := by
  have hpending : ∀ u ∈ t.pending ++ [w], (t.cache u.1).isSome := by
    intro u hu
    rcases List.mem_append.mp hu with hu | hu
    · exact h.pending_cached u hu
    · rwa [List.mem_singleton.mp hu]
  simp only [log]
  split
  · exact overlay_replay hpending t.db
  · rfl

/-- A synchronization does not show. -/
theorem view_flush : t.flush.view = t.view :=
  overlay_replay h.pending_cached t.db

/-- A cached write shows, also when it is logged. -/
theorem view_cacheWrite_log (w : Write CString CString) (hr : r ≠ .noCache)
    (hkey : keyFits w.1 = true) (hvalue : ∀ v ∈ w.2, valueFits v = true) :
    ((t.cacheWrite w).log w).view = applyWrite t.view w := by
  rw [view_log (h.cacheWrite hr hkey hvalue) (by simp)]
  exact overlay_update_entries t.cache t.db w.1 w.2

omit h in
theorem view_cacheWrite (w : Write CString CString) :
    (t.cacheWrite w).view = applyWrite t.view w :=
  overlay_update_entries t.cache t.db w.1 w.2

omit h in
/-- A write to the database that is also cached shows. -/
theorem view_dbWrite_cacheWrite (w : Write CString CString) :
    ((t.dbWrite w).cacheWrite w).view = applyWrite t.view w := by
  rw [view_cacheWrite]
  funext k
  by_cases hk : k = w.1
  · simp [applyWrite, hk]
  · simp [applyWrite, view, overlay, dbWrite, hk]

omit h in
/-- Reading a key without an entry reads the database. -/
theorem view_of_cache_eq_none {key : CString} (hnone : t.cache key = none) :
    t.view key = t.db key :=
  overlay_of_none hnone

theorem Coherent.cache_eq_none (key : CString) (hkey : r = .noCache ∨ keyFits key = false) :
    t.cache key = none := by
  rcases hkey with hr | hkey
  · rw [h.noCache_empty hr]
  · by_contra hsome
    have := h.key_fits key (Option.isSome_iff_ne_none.mpr hsome)
    simp [hkey] at this

omit h in
/-- A request that neither finds nor leaves a cache entry goes to the database and shows. -/
theorem view_dbWrite {w : Write CString CString} (hnone : t.cache w.1 = none) :
    (t.dbWrite w).view = applyWrite t.view w :=
  overlay_applyWrite hnone

omit h in
/-- A GET changes at most what it reads, and only from an empty value to a missing one. -/
theorem view_get (key : CString) :
    (t.get r key).2.view = t.view ∨
      t.view key = some CString.empty ∧
        (t.get r key).2.view = applyWrite t.view (key, none) := by
  rcases get_cases r t key with hsame | ⟨-, -, hnone, -, hfilled⟩
  · exact .inl (by rw [hsame])
  · rw [hfilled, view_cacheWrite, view_of_cache_eq_none hnone]
    by_cases hempty : t.db key = some CString.empty
    · right
      simp [stored, hempty, Option.filter]
    · left
      rw [stored_eq hempty, ← view_of_cache_eq_none hnone, applyWrite, Function.update_eq_self]

/-- A SET that no cache entry hides from the client: it is cached itself, or its key has no
entry. -/
def SetVisible (r : DumpStatus) (t : Tiers) (key value : CString) : Prop :=
  r = .noCache ∨ keyFits key = false ∨ valueFits value = true ∨ t.cache key = none

/-- A SET that is not hidden shows. -/
theorem view_set {key value : CString} (hvisible : SetVisible r t key value) :
    (t.set r key value).view = applyWrite t.view (key, some value) := by
  unfold set
  by_cases hfits : (keyFits key && valueFits value) = true
  · rw [if_pos hfits]
    obtain ⟨hkey, hvalue⟩ := Bool.and_eq_true_iff.mp hfits
    have hvalue' : ∀ v ∈ some value, valueFits v = true := by
      intro v hv
      cases hv
      exact hvalue
    cases r with
    | noCache => exact view_dbWrite (h.cache_eq_none _ (.inl rfl))
    | getCache => exact view_dbWrite_cacheWrite _
    | onlyCache => exact view_cacheWrite _
    | defferDump => exact view_cacheWrite_log h _ (by simp) hkey hvalue'
  · rw [if_neg hfits]
    refine view_dbWrite ?_
    rcases hvisible with hr | hkey | hvalue | hnone
    · exact h.cache_eq_none _ (.inl hr)
    · exact h.cache_eq_none _ (.inr hkey)
    · refine h.cache_eq_none _ (.inr ?_)
      simpa [hvalue] using hfits
    · exact hnone

omit h in
/-- A SET that is hidden leaves the view as it was. -/
theorem view_set_hidden {key value : CString} (hhidden : ¬ SetVisible r t key value) :
    (t.set r key value).view = t.view := by
  unfold SetVisible at hhidden
  obtain ⟨-, -, hvalue, hsome⟩ := by simpa only [not_or] using hhidden
  unfold set
  rw [if_neg (by simp [hvalue])]
  exact overlay_applyWrite_of_isSome (Option.isSome_iff_ne_none.mpr hsome)

/-- A DEL shows. -/
theorem view_del (key : CString) : (t.del r key).2.view = applyWrite t.view (key, none) := by
  have hbelow : applyWrite (t.delBelow key).2.view (key, none) = applyWrite t.view (key, none) := by
    unfold delBelow
    cases hentry : t.cache key with
    | some entry => rfl
    | none =>
        rw [view_dbWrite hentry]
        simp [applyWrite]
  unfold del
  by_cases hkey : keyFits key = true
  · rw [if_pos hkey]
    cases r with
    | noCache => exact view_dbWrite (h.cache_eq_none _ (.inl rfl))
    | getCache => exact view_dbWrite_cacheWrite _
    | onlyCache => exact (view_cacheWrite _).trans hbelow
    | defferDump =>
        exact (view_cacheWrite_log (h.delBelow key) _ (by simp) hkey (by simp)).trans hbelow
  · rw [if_neg hkey]
    exact view_dbWrite (h.cache_eq_none _ (.inr (by simpa using hkey)))

/-! ## Replies -/

/-- A GET returns a nonempty value of the view. -/
theorem get_of_view_eq_some {key value : CString} (hvalue : t.view key = some value)
    (hne : value ≠ CString.empty) : (t.get r key).1 = .of (some value) := by
  have hdb : t.cache key = none → stored t.db key = some value := by
    intro hnone
    rw [stored, ← view_of_cache_eq_none hnone, hvalue]
    simp [Option.filter, hne]
  unfold get
  by_cases hcache : r ≠ .noCache ∧ keyFits key = true
  · rw [if_pos hcache]
    cases hentry : t.cache key with
    | none => simp [hdb hentry]
    | some entry =>
        have : entry = some value := (overlay_of_some hentry).symm.trans hvalue
        simp [this]
  · rw [if_neg hcache, hdb (h.cache_eq_none _ ?_)]
    by_cases hr : r = .noCache
    · exact .inl hr
    · exact .inr (by simpa [hr] using hcache)

/-- A GET finds nothing where the view has nothing. -/
theorem get_of_view_eq_none {key : CString} (hvalue : t.view key = none) :
    (t.get r key).1.res = .non := by
  have hdb : t.cache key = none → stored t.db key = none := by
    intro hnone
    rw [stored, ← view_of_cache_eq_none hnone, hvalue]
    rfl
  unfold get
  by_cases hcache : r ≠ .noCache ∧ keyFits key = true
  · rw [if_pos hcache]
    cases hentry : t.cache key with
    | none => simp [hdb hentry, GetReply.of]
    | some entry =>
        have : entry = none := (overlay_of_some hentry).symm.trans hvalue
        simp [this]
  · rw [if_neg hcache, hdb (h.cache_eq_none _ ?_)]
    · rfl
    · by_cases hr : r = .noCache
      · exact .inl hr
      · exact .inr (by simpa [hr] using hcache)

end Operations

end Tiers

/-- What is known of a state that a run from start-up reaches. -/
structure Proxy.Reached (r : DumpStatus) (db : Hstore) (events : List Event) (p : Proxy) :
    Prop where
  inv : p.Inv
  cachingRegime_eq : p.cachingRegime = r
  tiers_eq : p.tiers = (Tiers.start db).after r events

/-- Every run from start-up succeeds, returns what the three maps return, and reaches a state that
corresponds to theirs. -/
theorem start_run (r : DumpStatus) (db : Hstore) (events : List Event) :
    ∃ p, (Proxy.start r db).run events = some ((Tiers.start db).results r events, p) ∧
      p.Reached r db events := by
  obtain ⟨p, hrun, hrefines⟩ := run_refines (Proxy.start_inv r db) events
  simp only [Proxy.start_cachingRegime, Proxy.start_tiers] at hrun hrefines
  exact ⟨p, hrun, hrefines.inv, hrefines.cachingRegime_eq, hrefines.tiers_eq⟩

theorem reached_of_run {r : DumpStatus} {db : Hstore} {events : List Event} {rs : List Result}
    {p : Proxy} (hrun : (Proxy.start r db).run events = some (rs, p)) : p.Reached r db events := by
  obtain ⟨p', hrun', hreached⟩ := start_run r db events
  rw [hrun] at hrun'
  cases hrun'
  exact hreached

theorem Proxy.Reached.coherent {r : DumpStatus} {db : Hstore} {events : List Event} {p : Proxy}
    (h : p.Reached r db events) : p.tiers.Coherent r := by
  rw [h.tiers_eq]
  exact Tiers.after_coherent (Tiers.start_coherent r db) events

end PgRedisProxy
