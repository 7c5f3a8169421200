import PgRedisProxy.Server.Crash
import PgRedisProxy.Store.Conversation

/-!
# The worker and PostgreSQL, over many lives

A worker that is gone is started again, perhaps with another caching regime, on the row
that PostgreSQL has then. `lives` is such a sequence, with the history of each life. Let
PostgreSQL do what is documented of it, and the clients send only what can be sent to it.
`lives_lose_little` bounds what is lost of the updates of a key over all lives, and
`server_converses` says that PostgreSQL has the row of the model behind any interleaving of
callbacks.
-/

namespace PgRedisProxy

open CLang KeyValue

/-- A life of the worker: its caching regime, and the callbacks until it is stopped. -/
structure Life where
  regime : DumpStatus
  events : List ServerEvent

/-- The row that some lives leave, and the regime and the history of each. -/
structure Past where
  row : Hstore
  histories : List (DumpStatus × List Entry)

/-- One more life, which starts on the row. -/
def Past.live (D : Database) (past : Past) (life : Life) : Option Past :=
  (Server.runOn D life.regime past.row life.events).map fun s =>
    ⟨s.shared.proxy.db, past.histories ++ [(life.regime, s.shared.history)]⟩

/-- Lives one after the other, over a database. -/
def lives (D : Database) (db : Hstore) (all : List Life) : Option Past :=
  Machine.runFrom (Past.live D) ⟨db, []⟩ all

/-- Of the updates of a key in a life, these are kept: all up to some point, behind which there are
fewer than `MAX_COUNT_OPERATION`, and none outside of `DEFFER_DUMP`. -/
structure KeptIn (key : CString) (kept : List (Option CString)) (life : DumpStatus × List Entry) :
    Prop where
  is_prefix : kept <+: updatesOf key (eventsOf life.2)
  length_lt : (updatesOf key (eventsOf life.2)).length < kept.length + maxCountOperation
  eq_of_ne : life.1 ≠ .defferDump → kept = updatesOf key (eventsOf life.2)

/-- The values that a key is set to under `DEFFER_DUMP` fit the cache, unless the key does not. -/
def ValuesFit (key : CString) (life : DumpStatus × List Entry) : Prop :=
  life.1 = .defferDump → keyFits key = true →
    ∀ v, some v ∈ updatesOf key (eventsOf life.2) → valueFits v = true

/-- What a life has executed can be sent. -/
def SendableIn (Q : CString → Prop) (life : DumpStatus × List Entry) : Prop :=
  ∀ e ∈ eventsOf life.2, e.Sendable Q

/-- A single life. -/
theorem Server.run_kept {r : DumpStatus} (hr : r ≠ .onlyCache) {db : Hstore} {key : CString}
    {events : List ServerEvent} {s : Server} (hrun : Server.run r db events = some s)
    (hfits : ValuesFit key (r, s.shared.history)) :
    ∃ kept, KeptIn key kept (r, s.shared.history) ∧
      s.shared.proxy.db key = lastValue (db key) kept := by
  have hdb : s.shared.proxy.db = s.shared.proxy.tiers.db := rfl
  have hdurable := Tiers.after_durable hr db key hfits
  have hlog := Tiers.after_not_full r db (eventsOf s.shared.history)
  rw [hdb, Server.run_store hrun]
  obtain ⟨kept, lost, hsplit, hkept, hlost⟩ := hdurable.db_eq
  refine ⟨kept, ⟨⟨lost, hsplit.symm⟩, ?_, fun hr' => ?_⟩, hkept⟩
  · have hlt : lost.length < maxCountOperation :=
      (hlost.length_le.trans (length_valuesOf_le key _)).trans_lt hlog
    simp only [hsplit, List.length_append]
    omega
  · -- nothing waits in the log, so nothing is lost
    have hnone := hdurable.pending_eq_nil hr'
    rw [hnone, valuesOf_nil, List.suffix_nil] at hlost
    simp only [hsplit, hlost, List.append_nil]

/-- Let PostgreSQL do what is documented of it, and let all keys and values be legal and without
quotes, no key empty, and all statement sizes `int`s. Over any number of lives outside of
`ONLY_CACHE`, each with any interleaving of its callbacks and stopped behind any of them, the row
has of a key the last of the updates that are kept. In each life these are all of them up to some
point, and fewer than `MAX_COUNT_OPERATION` are behind it, none of them outside of `DEFFER_DUMP`. -/
theorem lives_lose_little {pg : Postgres} {Legal : CString → Prop} (hpg : Documented pg Legal)
    {db : Hstore} {all : List Life} {past : Past}
    (hlives : lives (.ofPostgres pg) db all = some past)
    (hsent : ∀ life ∈ past.histories, SendableIn (Quotable Legal) life)
    (hregime : ∀ life ∈ past.histories, life.1 ≠ .onlyCache) {key : CString}
    (hfits : ∀ life ∈ past.histories, ValuesFit key life) :
    ∃ kept, List.Forall₂ (KeptIn key) kept past.histories ∧
      past.row key = lastValue (db key) kept.flatten := by
  suffices hall : (∀ life ∈ past.histories, SendableIn (Quotable Legal) life ∧
      life.1 ≠ .onlyCache ∧ ValuesFit key life) →
      ∃ kept, List.Forall₂ (KeptIn key) kept past.histories ∧
        past.row key = lastValue (db key) kept.flatten from
    hall fun life hlife => ⟨hsent life hlife, hregime life hlife, hfits life hlife⟩
  clear hsent hregime hfits
  refine Machine.runFrom_keeps (I := fun past : Past =>
    (∀ life ∈ past.histories, SendableIn (Quotable Legal) life ∧
      life.1 ≠ .onlyCache ∧ ValuesFit key life) →
      ∃ kept, List.Forall₂ (KeptIn key) kept past.histories ∧
        past.row key = lastValue (db key) kept.flatten) ?_ ?_ hlives
  · intro past life past' hbefore hlive hlife
    obtain ⟨s, hrun, rfl⟩ := Option.map_eq_some_iff.mp hlive
    obtain ⟨kept, hkept, hrow⟩ := hbefore fun l hl => hlife l (List.mem_append_left _ hl)
    obtain ⟨hsent, hr, hfits⟩ := hlife _ (List.mem_append_right _ (List.mem_singleton_self _))
    obtain ⟨last, hlast, hdb⟩ :=
      Server.run_kept hr ((Server.runOn_iff hpg.intends hsent).mp hrun).2 hfits
    refine ⟨kept ++ [last], List.rel_append hkept (.cons hlast .nil), ?_⟩
    rw [List.flatten_append, List.flatten_singleton, lastValue_append, ← hrow]
    exact hdb
  · exact fun _ => ⟨[], .nil, rfl⟩

/-- A SET that waits in the log when the worker is stopped, and one that the next life writes at
once. -/
theorem lives_lose_little_two :
    ∃ past, lives (.ofPostgres samplePostgres) (fun _ => none)
        [⟨.defferDump, twoClients.take 5⟩, ⟨.getCache, twoClients⟩] = some past ∧
      ∃ kept, List.Forall₂ (KeptIn sampleKey) kept past.histories ∧
        past.row sampleKey = lastValue none kept.flatten := by
  obtain ⟨past, hlives⟩ := Option.isSome_iff_exists.mp (by decide +kernel :
    (lives (.ofPostgres samplePostgres) (fun _ => none)
      [⟨.defferDump, twoClients.take 5⟩, ⟨.getCache, twoClients⟩]).isSome)
  have hchecked : (lives (.ofPostgres samplePostgres) (fun _ => none)
      [⟨.defferDump, twoClients.take 5⟩, ⟨.getCache, twoClients⟩]).map
      (fun past => past.histories.all fun life =>
        (eventsOf life.2).all (fun e => decide (e ∈ sampleEvents)) && life.1 ≠ .onlyCache &&
          (updatesOf sampleKey (eventsOf life.2)).all fun w => w.all valueFits) = some true := by
    decide +kernel
  rw [hlives, Option.map_some, Option.some_inj, List.all_eq_true] at hchecked
  simp only [Bool.and_eq_true, List.all_eq_true, decide_eq_true_eq] at hchecked
  refine ⟨past, hlives, lives_lose_little samplePostgres_documented hlives
    (fun life hl e he => sampleEvents_sendable e ((hchecked life hl).1.1 e he))
    (fun life hl => (hchecked life hl).1.2) fun life hl _ _ v hv => ?_⟩
  simpa using (hchecked life hl).2 (some v) hv

/-- Let PostgreSQL do what is documented of it. Behind any interleaving of callbacks in which all
keys and values are legal and without quotes, it has given every text that the worker has sent the
result that the worker acts on, and has the row of the model. -/
theorem server_converses {pg : Postgres} {Legal : CString → Prop} (hpg : Documented pg Legal)
    {r : DumpStatus} {db : Hstore} {events : List ServerEvent} {s : Server}
    (hrun : Server.run r db events = some s)
    (hevents : ∀ e ∈ eventsOf s.shared.history, e.Quotable Legal) :
    TakePlace pg db ((Proxy.start r db).conversation (eventsOf s.shared.history))
      s.shared.proxy.db := by
  have hsent := conversation_takesPlace hpg (Proxy.start_inv r db) hevents
    (by simp [Tiers.start])
  rw [Proxy.start_tiers, Proxy.start_cachingRegime, ← Server.run_store hrun] at hsent
  exact hsent

/-- The texts of two clients. -/
theorem server_converses_two :
    ∃ s, Server.run .defferDump (fun _ => none) twoClients = some s ∧
      TakePlace samplePostgres (fun _ => none)
        ((Proxy.start .defferDump fun _ => none).conversation (eventsOf s.shared.history))
        s.shared.proxy.db := by
  obtain ⟨s, hrun⟩ := Option.isSome_iff_exists.mp
    (by decide +kernel : (Server.run .defferDump (fun _ => none) twoClients).isSome)
  have hevents : (Server.run .defferDump (fun _ => none) twoClients).map
      (fun s => eventsOf s.shared.history) =
        some [.get sampleKey, .set sampleKey ⟨ascii "v", by decide⟩, .sync] := by
    decide +kernel
  rw [hrun, Option.map_some, Option.some_inj] at hevents
  refine ⟨s, hrun, server_converses samplePostgres_documented hrun ?_⟩
  have hkey : Quotable (fun _ => True) sampleKey := ⟨trivial, by decide⟩
  have hvalue : Quotable (fun _ => True) ⟨ascii "v", by decide⟩ := ⟨trivial, by decide⟩
  rw [hevents]
  simp [Event.Quotable, QuotableWrite, hkey, hvalue]

end PgRedisProxy
