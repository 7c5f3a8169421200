import PgRedisProxy.Store.DeferredDump

/-!
# What has reached the database

The database alone survives the worker. `Tiers.Durable` says what it has of one key in
every state of a run: the value after some of the updates of the key, from the first one
on, while the others wait in the log. `after_durable` is the main result, and
`after_not_full` bounds what waits. Under `ONLY_CACHE` no SET that fits reaches the
database, which `after_onlyCache` states.
-/

namespace PgRedisProxy

open CLang KeyValue

/-- What the SETs and DELs of a key ask for, in order. -/
def updatesOf (key : CString) (events : List Event) : List (Option CString) :=
  valuesOf key (events.filterMap Event.update?)

theorem updatesOf_append (key : CString) (first second : List Event) :
    updatesOf key (first ++ second) = updatesOf key first ++ updatesOf key second := by
  simp [updatesOf]

namespace Tiers

/-- The database has the value of a key after some of its updates, and the others wait in the log,
in order. -/
structure Durable (r : DumpStatus) (v₀ : Option CString) (key : CString)
    (values : List (Option CString)) (t : Tiers) : Prop where
  pending_eq_nil : r ≠ .defferDump → t.pending = []
  pending_suffix : valuesOf key t.pending <:+ values
  db_eq : ∃ kept lost, values = kept ++ lost ∧ t.db key = lastValue v₀ kept ∧
    lost <:+ valuesOf key t.pending

section Durable

variable {r : DumpStatus} {v₀ : Option CString} {key : CString} {values : List (Option CString)}
  {t : Tiers}

theorem start_durable (r : DumpStatus) (db : Hstore) (key : CString) :
    (Tiers.start db).Durable r (db key) key [] where
  pending_eq_nil := fun _ => rfl
  pending_suffix := List.nil_suffix
  db_eq := ⟨[], [], rfl, rfl, List.nil_suffix⟩

/-- Where no update of the key waits, the database has its last one. -/
theorem Durable.db_eq_last (h : t.Durable r v₀ key values) (hnone : valuesOf key t.pending = []) :
    t.db key = lastValue v₀ values := by
  obtain ⟨kept, lost, rfl, hdb, hlost⟩ := h.db_eq
  rw [hnone, List.suffix_nil] at hlost
  rw [hdb, hlost, List.append_nil]

/-- A synchronization brings all updates of the key to the database. -/
theorem Durable.flush (h : t.Durable r v₀ key values) : t.flush.Durable r v₀ key values where
  pending_eq_nil := fun _ => rfl
  pending_suffix := List.nil_suffix
  db_eq := by
    refine ⟨values, [], by simp, ?_, List.nil_suffix⟩
    show replay t.db t.pending key = lastValue v₀ values
    rw [replay_eq_lastValue]
    by_cases hnone : valuesOf key t.pending = []
    · rw [hnone, ← h.db_eq_last hnone]
      rfl
    · exact lastValue_of_suffix h.pending_suffix hnone

/-- An update of the key is logged, or one of another key. -/
theorem Durable.log (h : t.Durable r v₀ key values) (hr : r = .defferDump)
    (w : Write CString CString) : (t.log w).Durable r v₀ key (values ++ valuesOf key [w]) := by
  have happended : Durable r v₀ key (values ++ valuesOf key [w])
      { t with pending := t.pending ++ [w] } := by
    obtain ⟨kept, lost, rfl, hdb, hlost⟩ := h.db_eq
    have hsuffix : ∀ {vs : List (Option CString)}, lost <:+ vs →
        lost ++ valuesOf key [w] <:+ vs ++ valuesOf key [w] := by
      rintro vs ⟨before, rfl⟩
      exact ⟨before, by simp⟩
    refine ⟨fun hr' => absurd hr hr', ?_, kept, lost ++ valuesOf key [w], by simp, hdb, ?_⟩
    · obtain ⟨before, hbefore⟩ := h.pending_suffix
      exact ⟨before, by rw [valuesOf_append, ← List.append_assoc, hbefore]⟩
    · rw [valuesOf_append]
      exact hsuffix hlost
  simp only [Tiers.log]
  split
  · exact happended.flush
  · exact happended

/-- An update that has reached the database already is logged all the same. -/
theorem Durable.log_early {w : Write CString CString}
    (h : t.Durable r v₀ key (values ++ valuesOf key [w])) (hr : r = .defferDump)
    (hnone : w.1 = key → valuesOf key t.pending = []) :
    (t.log w).Durable r v₀ key (values ++ valuesOf key [w]) := by
  by_cases hk : w.1 = key
  · obtain ⟨k, v⟩ := w
    obtain rfl : k = key := hk
    have hlogged : Durable r v₀ k (values ++ [v]) { t with pending := t.pending ++ [(k, v)] } := by
      have hwaits : valuesOf k (t.pending ++ [(k, v)]) = [v] := by
        rw [valuesOf_append, hnone rfl, valuesOf_self, List.nil_append]
      refine ⟨fun hr' => absurd hr hr', ?_, values ++ [v], [], by simp, ?_, List.nil_suffix⟩
      · rw [hwaits]
        exact ⟨values, rfl⟩
      · rw [valuesOf_self] at h
        exact h.db_eq_last (hnone rfl)
    rw [valuesOf_self]
    simp only [Tiers.log]
    split
    · exact hlogged.flush
    · exact hlogged
  · have hlogged := h.log hr w
    rwa [valuesOf_of_ne hk, List.append_nil, List.append_nil] at *

/-- A write to the cache changes nothing here. -/
theorem Durable.cacheWrite (h : t.Durable r v₀ key values) (w : Write CString CString) :
    (t.cacheWrite w).Durable r v₀ key values :=
  ⟨h.pending_eq_nil, h.pending_suffix, h.db_eq⟩

/-- A write to the database of a key without logged updates, or of another key. -/
theorem Durable.dbWrite (h : t.Durable r v₀ key values) {w : Write CString CString}
    (hnone : w.1 = key → valuesOf key t.pending = []) :
    (t.dbWrite w).Durable r v₀ key (values ++ valuesOf key [w]) := by
  by_cases hk : w.1 = key
  · obtain ⟨k, v⟩ := w
    obtain rfl : k = key := hk
    have hempty : valuesOf k t.pending = [] := hnone rfl
    refine ⟨h.pending_eq_nil, ?_, values ++ [v], [], by simp, ?_, List.nil_suffix⟩
    · show valuesOf k t.pending <:+ _
      rw [hempty]
      exact List.nil_suffix
    · simp [Tiers.dbWrite, applyWrite]
  · rw [valuesOf_of_ne hk, List.append_nil]
    refine ⟨h.pending_eq_nil, h.pending_suffix, ?_⟩
    have hdb : (t.dbWrite w).db key = t.db key := by
      simp [Tiers.dbWrite, applyWrite, Ne.symm hk]
    rw [hdb]
    exact h.db_eq

/-- No update waits of a key that is not cached. -/
theorem Coherent.valuesOf_eq_nil (hc : t.Coherent r) (hnone : t.cache key = none) :
    valuesOf key t.pending = [] := by
  refine KeyValue.valuesOf_eq_nil fun w hw hk => ?_
  have hcached := hc.pending_cached w hw
  rw [hk, hnone] at hcached
  cases hcached

/-- Nor of one that the cache does not take. -/
theorem Durable.valuesOf_eq_nil (h : t.Durable r v₀ key values) (hc : t.Coherent r)
    (hdirect : r ≠ .defferDump ∨ keyFits key = false) : valuesOf key t.pending = [] := by
  rcases hdirect with hr | hkey
  · rw [h.pending_eq_nil hr, valuesOf_nil]
  · exact hc.valuesOf_eq_nil (hc.cache_eq_none key (.inr hkey))

/-- A GET changes at most the cache. -/
theorem Durable.get (h : t.Durable r v₀ key values) (k : CString) :
    (t.get r k).2.Durable r v₀ key values := by
  rcases get_cases r t k with hsame | ⟨-, -, -, -, hfilled⟩
  · rwa [hsame]
  · rw [hfilled]
    exact h.cacheWrite _

/-- A SET, unless it bypasses the log under `DEFFER_DUMP`. -/
theorem Durable.set (h : t.Durable r v₀ key values) (hc : t.Coherent r) (hr : r ≠ .onlyCache)
    (k v : CString) (hfits : r = .defferDump → k = key → keyFits key = true → valueFits v = true) :
    (t.set r k v).Durable r v₀ key (values ++ updatesOf key [.set k v]) := by
  have hupdates : updatesOf key [.set k v] = valuesOf key [(k, some v)] := rfl
  rw [hupdates]
  unfold Tiers.set
  by_cases hcache : (keyFits k && valueFits v) = true
  · rw [if_pos hcache]
    cases r with
    | noCache => exact h.dbWrite fun _ => h.valuesOf_eq_nil hc (.inl (by simp))
    | getCache => exact (h.dbWrite fun _ => h.valuesOf_eq_nil hc (.inl (by simp))).cacheWrite _
    | onlyCache => exact absurd rfl hr
    | defferDump => exact (h.cacheWrite _).log rfl _
  · rw [if_neg hcache]
    refine h.dbWrite fun hk => h.valuesOf_eq_nil hc ?_
    obtain rfl : k = key := hk
    by_cases hr' : r = .defferDump
    · right
      by_contra hkey
      have hkey' : keyFits k = true := by simpa using hkey
      exact hcache (by rw [hkey', hfits hr' rfl hkey']; rfl)
    · exact .inl hr'

/-- A DEL. A key that is not cached is deleted from the database at once. -/
theorem Durable.del (h : t.Durable r v₀ key values) (hc : t.Coherent r) (hr : r ≠ .onlyCache)
    (k : CString) : (t.del r k).2.Durable r v₀ key (values ++ updatesOf key [.del k]) := by
  have hupdates : updatesOf key [.del k] = valuesOf key [(k, none)] := rfl
  rw [hupdates]
  by_cases hkey : keyFits k = true
  · simp only [Tiers.del, hkey, if_true]
    cases r with
    | noCache => exact h.dbWrite fun _ => h.valuesOf_eq_nil hc (.inl (by simp))
    | getCache => exact (h.dbWrite fun _ => h.valuesOf_eq_nil hc (.inl (by simp))).cacheWrite _
    | onlyCache => exact absurd rfl hr
    | defferDump =>
        simp only [delBelow]
        cases hentry : t.cache k with
        | some entry => exact (h.cacheWrite _).log rfl _
        | none =>
            -- the deletion has reached the database, and is logged all the same
            have hwaits : k = key → valuesOf key t.pending = [] :=
              fun hk => hc.valuesOf_eq_nil (hk ▸ hentry)
            exact ((h.dbWrite hwaits).cacheWrite _).log_early rfl hwaits
  · rw [del_of_direct (.inr (by simpa using hkey))]
    exact h.dbWrite fun hk => h.valuesOf_eq_nil hc (.inr (by rw [← hk]; simpa using hkey))

/-- One event. -/
theorem Durable.step (h : t.Durable r v₀ key values) (hc : t.Coherent r) (hr : r ≠ .onlyCache)
    {e : Event} (hfits : r = .defferDump → keyFits key = true →
      ∀ v, some v ∈ updatesOf key [e] → valueFits v = true) :
    (t.step r e).2.Durable r v₀ key (values ++ updatesOf key [e]) := by
  cases e with
  | get k =>
      rw [show updatesOf key [.get k] = [] from rfl, List.append_nil]
      exact h.get k
  | set k v =>
      refine h.set hc hr k v fun hr' hk hkey => hfits hr' hkey v ?_
      subst hk
      simp [updatesOf, Event.update?]
  | del k => exact h.del hc hr k
  | sync =>
      rw [show updatesOf key [.sync] = [] from rfl, List.append_nil]
      by_cases hr' : r = .defferDump
      · simp only [Tiers.step, hr', if_true]
        exact hr' ▸ h.flush
      · simp only [Tiers.step, hr', if_false]
        exact h

end Durable

/-- In every run outside of `ONLY_CACHE`, the database has the value of a key after some of its
updates, and the others wait in the log: under `DEFFER_DUMP` for each key too large for the cache,
and for one whose values are not. -/
theorem after_durable {r : DumpStatus} (hr : r ≠ .onlyCache) (db : Hstore) (key : CString)
    {events : List Event} (hfits : r = .defferDump → keyFits key = true →
      ∀ v, some v ∈ updatesOf key events → valueFits v = true) :
    ((Tiers.start db).after r events).Durable r (db key) key (updatesOf key events) := by
  induction events using List.reverseRecOn with
  | nil => exact start_durable r db key
  | append_singleton events e ih =>
      rw [after_concat, updatesOf_append]
      have hbefore := ih fun hr' hkey v hv => hfits hr' hkey v (by
        rw [updatesOf_append]
        exact List.mem_append_left _ hv)
      refine hbefore.step (after_coherent (start_coherent r db) events) hr
        fun hr' hkey v hv => hfits hr' hkey v ?_
      rw [updatesOf_append]
      exact List.mem_append_right _ hv

/-! ## How much waits -/

/-- One event keeps the log from being full. -/
theorem step_not_full {r : DumpStatus} {t : Tiers} (h : t.pending.length < maxCountOperation)
    (e : Event) : (t.step r e).2.pending.length < maxCountOperation := by
  rcases step_pending_cases r t e with hsame | hflushed | ⟨w, -, hlogged, hroom⟩
  · rwa [hsame]
  · rw [hflushed]
    show 0 < maxCountOperation
    decide
  · rw [hlogged, List.length_append, List.length_singleton]
    omega

/-- In no state of a run is the log full. -/
theorem after_not_full (r : DumpStatus) (db : Hstore) (events : List Event) :
    ((Tiers.start db).after r events).pending.length < maxCountOperation := by
  induction events using List.reverseRecOn with
  | nil =>
      show 0 < maxCountOperation
      decide
  | append_singleton events e ih =>
      rw [after_concat]
      exact step_not_full ih e

/-! ## `ONLY_CACHE` -/

/-- Under `ONLY_CACHE` an event leaves the database alone, and then a key it updates fits, or it
writes what the cache cannot take, or deletes. -/
theorem step_onlyCache_cases (t : Tiers) (e : Event) :
    (t.step .onlyCache e).2.db = t.db ∧ (∀ w ∈ e.update?, keyFits w.1 = true) ∨
      ∃ w ∈ e.update?, (t.step .onlyCache e).2.db = applyWrite t.db w ∧
        (keyFits w.1 = true → ∀ v ∈ w.2, valueFits v = false) := by
  cases e with
  | get k =>
      refine .inl ⟨?_, fun w hw => by cases hw⟩
      show (t.get .onlyCache k).2.db = t.db
      rcases get_cases .onlyCache t k with hsame | ⟨-, -, -, -, hfilled⟩
      · rw [hsame]
      · rw [hfilled]
        rfl
  | set k v =>
      simp only [step, set]
      by_cases hfits : (keyFits k && valueFits v) = true
      · rw [if_pos hfits]
        refine .inl ⟨rfl, fun w hw => ?_⟩
        cases hw
        exact (Bool.and_eq_true_iff.mp hfits).1
      · rw [if_neg hfits]
        refine .inr ⟨(k, some v), rfl, rfl, fun hkey v' hv' => ?_⟩
        cases hv'
        have hkey' : keyFits k = true := hkey
        rwa [hkey', Bool.true_and, Bool.not_eq_true] at hfits
  | del k =>
      simp only [step, del]
      by_cases hkey : keyFits k = true
      · simp only [hkey, if_true, delBelow]
        cases t.cache k with
        | some entry =>
            refine .inl ⟨rfl, fun w hw => ?_⟩
            cases hw
            exact hkey
        | none => exact .inr ⟨(k, none), rfl, rfl, fun _ v hv => by cases hv⟩
      · rw [if_neg hkey]
        exact .inr ⟨(k, none), rfl, rfl, fun _ v hv => by cases hv⟩
  | sync => exact .inl ⟨rfl, fun w hw => by cases hw⟩

/-- What an event leaves of a key in the database under `ONLY_CACHE`: a key that fits is left alone
by a SET that fits, and deleted at most; one that does not fit is written at once. -/
theorem step_onlyCache (t : Tiers) (key : CString) (e : Event) :
    (keyFits key = true → (∀ v, some v ∈ updatesOf key [e] → valueFits v = true) →
      (t.step .onlyCache e).2.db key = t.db key ∨
        (t.step .onlyCache e).2.db key = none ∧ none ∈ updatesOf key [e]) ∧
    (keyFits key = false →
      (t.step .onlyCache e).2.db key = lastValue (t.db key) (updatesOf key [e])) := by
  have hupdates : ∀ w ∈ e.update?, updatesOf key [e] = valuesOf key [w] := by
    intro w hw
    rw [Option.mem_def] at hw
    simp [updatesOf, hw]
  rcases step_onlyCache_cases t e with ⟨hsame, hsmall⟩ | ⟨w, hw, hwritten, hdirect⟩
  · rw [hsame]
    refine ⟨fun _ _ => .inl rfl, fun hkey => ?_⟩
    have hother : updatesOf key [e] = [] := by
      cases hu : e.update? with
      | none => simp [updatesOf, hu, valuesOf]
      | some w =>
          have hne : w.1 ≠ key := by
            rintro rfl
            simp [hsmall w hu] at hkey
          rw [hupdates w hu, valuesOf_of_ne hne]
    rw [hother]
    rfl
  · rw [hwritten, hupdates w hw]
    have hlast : applyWrite t.db w key = lastValue (t.db key) (valuesOf key [w]) :=
      replay_eq_lastValue t.db [w] key
    refine ⟨fun hkey hfits => ?_, fun _ => hlast⟩
    by_cases hk : w.1 = key
    · subst hk
      rw [valuesOf_self] at hfits ⊢
      cases hvalue : w.2 with
      | none =>
          right
          simp [applyWrite, hvalue]
      | some v =>
          have hlarge := hdirect hkey v hvalue
          have hsmall := hfits v (by simp [hvalue])
          simp [hlarge] at hsmall
    · left
      rw [hlast, valuesOf_of_ne hk]
      rfl

/-- Under `ONLY_CACHE`, a key that fits and is only set to values that fit keeps its value in the
database, unless a DEL deletes it there; and a key that does not fit has its last update there. -/
theorem after_onlyCache (db : Hstore) (key : CString) (events : List Event) :
    (keyFits key = true → (∀ v, some v ∈ updatesOf key events → valueFits v = true) →
      ((Tiers.start db).after .onlyCache events).db key = db key ∨
        ((Tiers.start db).after .onlyCache events).db key = none ∧
          none ∈ updatesOf key events) ∧
    (keyFits key = false →
      ((Tiers.start db).after .onlyCache events).db key =
        lastValue (db key) (updatesOf key events)) := by
  induction events using List.reverseRecOn with
  | nil => exact ⟨fun _ _ => .inl rfl, fun _ => rfl⟩
  | append_singleton events e ih =>
      rw [after_concat, updatesOf_append]
      obtain ⟨hsmall, hlarge⟩ := step_onlyCache ((Tiers.start db).after .onlyCache events) key e
      constructor
      · intro hkey hfits
        have hbefore := ih.1 hkey fun v hv => hfits v (List.mem_append_left _ hv)
        have hstep := hsmall hkey fun v hv => hfits v (List.mem_append_right _ hv)
        rcases hstep with hsame | ⟨hnone, hdel⟩
        · rcases hbefore with hdb | ⟨hdb, hdel⟩
          · exact .inl (hsame.trans hdb)
          · exact .inr ⟨hsame.trans hdb, List.mem_append_left _ hdel⟩
        · exact .inr ⟨hnone, List.mem_append_right _ hdel⟩
      · intro hkey
        rw [hlarge hkey, ih.2 hkey, lastValue_append]

end Tiers

end PgRedisProxy
