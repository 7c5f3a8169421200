import PgRedisProxy.Store.Coherence

/-!
# When a SET is read back

After an acknowledged SET, later GETs of the key return the value as long as no
other request updates it. A value too large for the cache breaks this when the key
has a cache entry: the SET goes to the database, the entry stays, and GETs are still
answered from it. `reqSet_readsBack_iff` says that this is the only way it fails.
-/

namespace PgRedisProxy

open CLang KeyValue

namespace Tiers

variable {r : DumpStatus} {t : Tiers} (h : t.Coherent r) {key value : CString}
include h

/-- An event that does not update a key leaves a nonempty value of it in view. -/
theorem step_view_eq_some (hvalue : t.view key = some value) (hne : value ≠ CString.empty)
    {e : Event} (he : ¬ e.Updates key) : (t.step r e).2.view key = some value := by
  cases e with
  | get k =>
      show (t.get r k).2.view key = some value
      rcases view_get (r := r) (t := t) k with hview | ⟨hempty, hview⟩
      · rw [hview, hvalue]
      · -- the GET turns an empty value into a missing one, so it is not of this key
        have hk : key ≠ k := by
          rintro rfl
          exact hne (Option.some.inj (hvalue.symm.trans hempty))
        rw [hview, applyWrite, Function.update_of_ne hk, hvalue]
  | set k v =>
      have hk : key ≠ k := fun hk => he (by simp [hk])
      show (t.set r k v).view key = some value
      by_cases hvisible : SetVisible r t k v
      · rw [view_set h hvisible, applyWrite, Function.update_of_ne hk, hvalue]
      · rw [view_set_hidden hvisible, hvalue]
  | del k =>
      have hk : key ≠ k := fun hk => he (by simp [hk])
      show (t.del r k).2.view key = some value
      rw [view_del h, applyWrite, Function.update_of_ne hk, hvalue]
  | sync =>
      by_cases hr : r = .defferDump
      · simpa only [step, hr, if_true, view_flush h] using hvalue
      · simpa only [step, hr, if_false] using hvalue

/-- A run without updates of a key leaves a nonempty value of it in view. -/
theorem after_view_eq_some (hvalue : t.view key = some value) (hne : value ≠ CString.empty)
    {events : List Event} (he : ∀ e ∈ events, ¬ e.Updates key) :
    (t.after r events).view key = some value := by
  induction events generalizing t with
  | nil => exact hvalue
  | cons e events ih =>
      have hstep := step_view_eq_some h hvalue hne (he e List.mem_cons_self)
      exact ih (step_coherent h e) hstep fun e' he' => he e' (List.mem_cons_of_mem _ he')

/-- A GET does not return a value that a cache entry hides. -/
theorem get_of_hidden (hhidden : ¬ SetVisible r t key value) :
    ((t.set r key value).get r key).1 ≠ .of (some value) := by
  have hcache : (t.set r key value).cache key = t.cache key := by
    unfold SetVisible at hhidden
    simp only [not_or] at hhidden
    have hfits : ¬ (keyFits key && valueFits value) = true := by simp [hhidden.2.2.1]
    unfold set
    rw [if_neg hfits]
    rfl
  unfold SetVisible at hhidden
  obtain ⟨hr, hkey, hvalue, hsome⟩ := by simpa only [not_or] using hhidden
  obtain ⟨entry, hentry⟩ := Option.ne_none_iff_exists'.mp hsome
  have hread : r ≠ .noCache ∧ keyFits key = true := ⟨hr, by simpa using hkey⟩
  unfold get
  rw [if_pos hread, hcache, hentry]
  cases entry with
  | none => simp [GetReply.of]
  | some old =>
      -- the cached value fits, and the value of the SET does not
      have hold : valueFits old = true := h.value_fits key old hentry
      have hne : old ≠ value := by
        rintro rfl
        exact hvalue hold
      simp [GetReply.of, hne]

end Tiers

/-- Every later GET of `key` returns exactly `value`, whatever other keys are used for and however
often the log is synchronized before it. -/
def ReadsBack (p : Proxy) (key value : CString) : Prop :=
  ∀ later : List Event, (∀ e ∈ later, ¬ e.Updates key) →
    ∃ rs q, p.run later = some (rs, q) ∧
      (reqGet .none q key).1 = ⟨.ok, some value, value.strlen + 1⟩

/-- In every state that a run from start-up reaches, a SET is acknowledged and read back by all
later GETs of its key exactly when the regime has no cache, the key is too large for the cache, the
value fits the cache, or the key has no cache entry. A SET whose statement has a size that is no
`int` is never acknowledged (`Order.process_eq_serveOn`), and nothing is said of it here. -/
theorem reqSet_readsBack_iff {r : DumpStatus} {db : Hstore} (history : List Event)
    {rs : List Result} {p : Proxy} (hrun : (Proxy.start r db).run history = some (rs, p))
    (key : CString) {value : CString} (hne : value ≠ CString.empty) :
    (∃ p', reqSet .none p key value = some (.ok, p') ∧ ReadsBack p' key value) ↔
      r = .noCache ∨ keyFits key = false ∨ valueFits value = true ∨
        (checkHashTable p.hashes key).2 = false := by
  have hreached := reached_of_run hrun
  have hcoherent := hreached.coherent
  obtain ⟨p', hset, hrefines⟩ := reqSet_refines hreached.inv key value
  rw [hreached.cachingRegime_eq] at hrefines
  have hregime : p'.cachingRegime = r :=
    hrefines.cachingRegime_eq.trans hreached.cachingRegime_eq
  have hcoherent' : p'.tiers.Coherent r := by
    rw [hrefines.tiers_eq]
    exact Tiers.set_coherent hcoherent key value
  have hvisible : (r = .noCache ∨ keyFits key = false ∨ valueFits value = true ∨
      (checkHashTable p.hashes key).2 = false) ↔ Tiers.SetVisible r p.tiers key value := by
    rw [checkHashTable_eq, Option.isSome_eq_false_iff, Option.isNone_iff_eq_none]
    rfl
  rw [hvisible]
  constructor
  · -- a hidden value is not even returned by a GET right behind the SET
    rintro ⟨p'', hset', hreads⟩
    rw [hset] at hset'
    cases hset'
    by_contra hhidden
    obtain ⟨rs', q, hq, hget⟩ := hreads [] (by simp)
    cases hq
    apply Tiers.get_of_hidden hcoherent hhidden
    rw [← hrefines.tiers_eq, ← hregime, ← (reqGet_refines hrefines.inv key).1]
    exact hget
  · intro hshown
    refine ⟨p', hset, ?_⟩
    intro later hlater
    obtain ⟨q, hq, hrefines'⟩ := run_refines hrefines.inv later
    refine ⟨_, q, hq, ?_⟩
    rw [(reqGet_refines hrefines'.inv key).1, hrefines'.cachingRegime_eq, hrefines'.tiers_eq,
      hregime]
    refine Tiers.get_of_view_eq_some (Tiers.after_coherent hcoherent' later) ?_ hne
    refine Tiers.after_view_eq_some hcoherent' ?_ hne hlater
    rw [hrefines.tiers_eq, Tiers.view_set hcoherent hshown]
    simp [applyWrite]

/-- A SET that fits the cache, on a worker that has just started. -/
theorem reqSet_readsBack_small :
    ∃ p', reqSet .none (Proxy.start .getCache fun _ => none) sampleKey smallValue =
        some (.ok, p') ∧ ReadsBack p' sampleKey smallValue :=
  (reqSet_readsBack_iff [] rfl sampleKey (by decide)).mpr
    (.inr (.inr (.inl (by decide))))

/-- Under `GET_CACHE`, a small value that was cached hides a large one set after it. -/
theorem large_set_not_readsBack :
    ∃ rs p, (Proxy.start .getCache fun _ => none).run [.set sampleKey smallValue] = some (rs, p) ∧
      ¬ ∃ p', reqSet .none p sampleKey largeValue = some (.ok, p') ∧
        ReadsBack p' sampleKey largeValue := by
  refine ⟨_, _, rfl, ?_⟩
  rintro ⟨p', hset, hreads⟩
  cases hset
  obtain ⟨rs, q, hq, hget⟩ := hreads [] (by simp)
  cases hq
  -- the GET answers with the small value
  exact absurd hget (by decide +kernel)

end PgRedisProxy
