import PgRedisProxy.Server.Execution
import PgRedisProxy.Store.Durability

/-!
# What a crash leaves

The worker may be gone at any time, and a new one starts on what the database has then. Let
PostgreSQL do what is documented of it, and the clients send only what can be sent to it.
`crash_keeps_prefix` is the main result: of the updates of each key that all clients have
made, the row has those up to some point, and fewer than `MAX_COUNT_OPERATION` are lost
altogether, none of them outside of `DEFFER_DUMP`. Under `ONLY_CACHE` they are lost, as
`crash_onlyCache` says.
-/

namespace PgRedisProxy

open CLang KeyValue Parties Resp

section Crash

variable {pg : Postgres} {Legal : CString → Prop} (hpg : Documented pg Legal) {db : Hstore}
  {events : List ServerEvent} {s : Server}
include hpg

/-- Let PostgreSQL do what is documented of it, and let all keys and values be legal and without
quotes, no key empty, and all statement sizes `int`s. Whenever the worker is stopped between two
callbacks outside of `ONLY_CACHE`, its log has fewer than `MAX_COUNT_OPERATION` updates, and none
unless under `DEFFER_DUMP`. Of all updates of a key that the clients have made, the row has the last
one up to some point, and those behind it end the updates of the key in the log. Under `DEFFER_DUMP`
this is so of a key that does not fit the cache or whose values all do. -/
theorem crash_keeps_prefix {r : DumpStatus} (hr : r ≠ .onlyCache)
    (hrun : Server.runOn (.ofPostgres pg) r db events = some s)
    (hsent : s.shared.Sendable (Quotable Legal)) :
    s.shared.proxy.tiers.pending.length < maxCountOperation ∧
      (r ≠ .defferDump → s.shared.proxy.tiers.pending = []) ∧
      ∀ key, (r = .defferDump → keyFits key = true →
          ∀ v, some v ∈ updatesOf key (eventsOf s.shared.history) → valueFits v = true) →
        ∃ kept lost, updatesOf key (eventsOf s.shared.history) = kept ++ lost ∧
          s.shared.proxy.db key = lastValue (db key) kept ∧
          lost <:+ valuesOf key s.shared.proxy.tiers.pending := by
  have hdb : s.shared.proxy.db = s.shared.proxy.tiers.db := rfl
  rw [hdb, Server.run_store ((Server.runOn_iff hpg.intends hsent).mp hrun).2]
  refine ⟨Tiers.after_not_full r db _, fun hr' => ?_, fun key hfits => ?_⟩
  · -- an empty key shows that nothing is logged outside of `DEFFER_DUMP`
    exact (Tiers.after_durable hr db CString.empty fun hr'' => absurd hr'' hr').pending_eq_nil hr'
  · exact (Tiers.after_durable hr db key hfits).db_eq

/-- Let PostgreSQL and the clients be as in `crash_keeps_prefix`. Whenever the worker is stopped
between two callbacks under `ONLY_CACHE`, the row has for a key that fits the cache, and that the
clients have only set to values that fit, what it had at the start, unless a client has deleted the
key and it is gone there. A key that does not fit has its last update. -/
theorem crash_onlyCache (hrun : Server.runOn (.ofPostgres pg) .onlyCache db events = some s)
    (hsent : s.shared.Sendable (Quotable Legal)) (key : CString) :
    (keyFits key = true →
      (∀ v, some v ∈ updatesOf key (eventsOf s.shared.history) → valueFits v = true) →
        s.shared.proxy.db key = db key ∨ s.shared.proxy.db key = none ∧
          none ∈ updatesOf key (eventsOf s.shared.history)) ∧
    (keyFits key = false →
      s.shared.proxy.db key = lastValue (db key) (updatesOf key (eventsOf s.shared.history))) := by
  have hdb : s.shared.proxy.db =
      ((Tiers.start db).after .onlyCache (eventsOf s.shared.history)).db :=
    congrArg Tiers.db (Server.run_store ((Server.runOn_iff hpg.intends hsent).mp hrun).2)
  rw [hdb]
  exact Tiers.after_onlyCache db key (eventsOf s.shared.history)

end Crash

/-- A SET that waits in the log when the worker is stopped. -/
theorem crash_keeps_prefix_set :
    ∃ s, Server.runOn (.ofPostgres samplePostgres) .defferDump (fun _ => none)
        (twoClients.take 5) = some s ∧
      s.shared.proxy.tiers.pending.length < maxCountOperation ∧
      ∃ kept lost, updatesOf sampleKey (eventsOf s.shared.history) = kept ++ lost ∧
        s.shared.proxy.db sampleKey = lastValue none kept ∧
        lost <:+ valuesOf sampleKey s.shared.proxy.tiers.pending := by
  obtain ⟨s, hrun, hchecked⟩ := Option.map_eq_some_iff.mp (by decide +kernel :
    (Server.runOn (.ofPostgres samplePostgres) .defferDump (fun _ => none)
      (twoClients.take 5)).map (fun s : Server => decide ((∀ e ∈ eventsOf s.shared.history,
        e ∈ sampleEvents) ∧ ∀ w ∈ updatesOf sampleKey (eventsOf s.shared.history),
          w.all valueFits = true)) = some true)
  obtain ⟨hevents, hfits⟩ := of_decide_eq_true hchecked
  obtain ⟨hlog, -, hkeys⟩ := crash_keeps_prefix samplePostgres_documented (by decide) hrun
    fun e he => sampleEvents_sendable e (hevents e he)
  exact ⟨s, hrun, hlog, hkeys sampleKey fun _ _ v hv => hfits (some v) hv⟩

/-- A value that is set is not in the row. -/
theorem crash_onlyCache_set :
    ∃ s, Server.runOn (.ofPostgres samplePostgres) .onlyCache (fun _ => none)
        (twoClients.take 5) = some s ∧ s.shared.proxy.db sampleKey = none := by
  obtain ⟨s, hrun, hchecked⟩ := Option.map_eq_some_iff.mp (by decide +kernel :
    (Server.runOn (.ofPostgres samplePostgres) .onlyCache (fun _ => none)
      (twoClients.take 5)).map (fun s : Server => decide ((∀ e ∈ eventsOf s.shared.history,
        e ∈ sampleEvents) ∧ ∀ w ∈ updatesOf sampleKey (eventsOf s.shared.history),
          w.all valueFits = true)) = some true)
  obtain ⟨hevents, hfits⟩ := of_decide_eq_true hchecked
  rcases (crash_onlyCache samplePostgres_documented hrun
    (fun e he => sampleEvents_sendable e (hevents e he)) sampleKey).1 (by decide)
    (fun v hv => hfits (some v) hv) with hdb | ⟨hdb, -⟩
  · exact ⟨s, hrun, hdb⟩
  · exact ⟨s, hrun, hdb⟩

end PgRedisProxy
