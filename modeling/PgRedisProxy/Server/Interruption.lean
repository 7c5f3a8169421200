import PgRedisProxy.Server.Regimes
import PgRedisProxy.Server.Restarts

/-!
# What a crash inside a callback leaves

The worker may also be gone in the middle of a callback: PostgreSQL has then executed some
of the texts that the callback sends. `Proxy.Midway` says which store events have been
begun and which texts have been sent, and `Server.attempted` what a callback hands to the
store, whether the worker comes back from it or not: `Server.history_of_step` and
`readLoop_after` say that this is what the callbacks do. A DEL that fills the log is the
one event that changes the row twice. `crash_midway` is the main result: the row still has
of each key the last update up to some point, and at most `MAX_COUNT_OPERATION` of the
updates begun are lost, one outside of `DEFFER_DUMP`.
-/

namespace PgRedisProxy

open CLang KeyValue Parties Resp SqlText

/-- These store events have been begun, and these texts sent: all those of the events before the
last one, and of the last one the first ones. -/
def Proxy.Midway (p : Proxy) (begun : List Event) (sent : List Exchange) : Prop :=
  p.conversation begun.dropLast <+: sent ∧ sent <+: p.conversation begun

/-- What a callback hands to the store. Of a read event this includes the request from which the
worker does not come back. -/
def Server.attempted (s : Server) : ServerEvent → List Entry
  | .act i (.readable bytes) =>
      match s.member i with
      | .present c =>
          (onReadCb id connectionHandler (c.conn s.shared.proxy) bytes).2.delivered.map (.request i)
      | _ => []
  | .change () => if s.shared.proxy.cachingRegime = .defferDump then [.sync] else []
  | _ => []

/-! ## The texts of one event -/

/-- What PostgreSQL may have of the row in the middle of an event: the row before it or behind it,
or without the key of a DEL that is still to be logged. -/
def Tiers.Amid (r : DumpStatus) (t : Tiers) (e : Event) (row : Hstore) : Prop :=
  row = t.db ∨ row = (t.step r e).2.db ∨
    ∃ key, e = .del key ∧ t.cache key = none ∧ row = applyWrite t.db (key, none)

/-- Wherever PostgreSQL stops executing these texts, each of them so far has got the result listed
with it, and `I` holds of the row. -/
def Stops (pg : Postgres) (I : Hstore → Prop) (row : Hstore) (exchanges : List Exchange) : Prop :=
  Machine.Throughout
    (fun stored exchange => (pg.query quote semicolon exchange.1 stored).bind
      fun (result, stored) => if result = exchange.2 then some stored else none)
    I row exchanges

section Texts

variable {pg : Postgres} {Legal : CString → Prop} {p : Proxy}

theorem length_syncExchanges_le (lg : Logger) : (syncExchanges lg).length ≤ 1 := by
  unfold syncExchanges
  split <;> simp

theorem length_addLogExchanges_le (logger : Option Logger) (opName : OperationName) (key : CString)
    (value : Option CString) : (addLogExchanges logger opName key value).length ≤ 1 := by
  unfold addLogExchanges
  split
  · simp
  · split
    · simp
    · simp
    · split
      · exact length_syncExchanges_le _
      · simp

/-- Only a DEL sends more than one text. -/
theorem length_exchanges_le {e : Event} (he : ∀ key, e ≠ .del key) :
    (p.exchanges e).length ≤ 1 := by
  cases e with
  | get key =>
      simp only [Proxy.exchanges, reqGetExchanges]
      split
      · split <;> simp [getValueExchanges]
      · simp [getValueExchanges]
  | set key value =>
      simp only [Proxy.exchanges, reqSetExchanges]
      split
      · split
        · exact length_addLogExchanges_le _ _ _ _
        · simp
      · simp [setValueExchanges]
  | del key => exact absurd rfl (he key)
  | sync =>
      simp only [Proxy.exchanges]
      cases p.logger with
      | none => simp
      | some lg => exact length_syncExchanges_le lg

variable (hpg : Documented pg Legal)
include hpg

/-- A key is looked up before it is deleted, which leaves the row as it is. -/
theorem delValueExchanges_stops {key : CString} (hkey : Quotable Legal key) (row : Hstore) :
    Stops pg (fun row' => row' = row ∨ row' = applyWrite row (key, none)) row
      (delValueExchanges row key) := by
  have hfind := (existStatement_shaped curTableName_plain key).read_eq
    (by simpa [existStatement] using hkey.2)
  rw [← findText_eq] at hfind
  have hlookup : TakePlace pg row [(findText curTableName key, .value (flagText (row key).isSome))]
      row :=
    .cons (Backend.query_single (hpg.plain (by simp [existStatement])) hfind
      (hpg.exist hkey.1 row)) (.nil pg row)
  have hfirst : Stops pg (fun row' => row' = row ∨ row' = applyWrite row (key, none)) row
      [(findText curTableName key, .value (flagText (row key).isSome))] :=
    Machine.throughout_of_length_le_one le_rfl hlookup (.inl rfl) (.inl rfl)
  have hone : (if (row key).isNone then [] else
      [(delValueText curTableName key, PqResult.commandOk)]).length ≤ 1 := by
    split <;> simp
  exact hfirst.append_of_length_le_one hone (delValueExchanges_takePlace hpg hkey row) (.inr rfl)

/-- Wherever an event is stopped. -/
theorem exchanges_stops (hp : p.Inv) (hpending : ∀ w ∈ p.tiers.pending, QuotableWrite Legal w)
    {e : Event} (he : e.Quotable Legal) :
    Stops pg (p.tiers.Amid p.cachingRegime e) p.db (p.exchanges e) := by
  have hall := exchanges_takePlace hpg hp hpending he
  by_cases hdel : ∃ key, e = .del key
  · obtain ⟨key, rfl⟩ := hdel
    have hvalue := delValueExchanges_stops hpg he.1 p.db
    simp only [Proxy.exchanges, reqDelExchanges] at hall ⊢
    split at hall
    · rename_i hcached
      rw [if_pos hcached]
      -- first the database, if the cache does not know the key, and then the log
      refine Machine.Throughout.append_of_length_le_one ?_ ?_ hall (.inr (.inl rfl))
      · have hcache : p.tiers.cache key = cached p.hashes key := rfl
        rw [checkHashTable_eq]
        cases hentry : cached p.hashes key with
        | none =>
            refine Machine.Throughout.imp hvalue fun row hrow => ?_
            rcases hrow with hbefore | hbehind
            · exact .inl hbefore
            · exact .inr (.inr ⟨key, rfl, hcache.trans hentry, hbehind⟩)
        | some entry => cases entry <;> exact .nil (.inl rfl)
      · split
        · exact length_addLogExchanges_le _ _ _ _
        · simp
    · rename_i hdirect
      rw [if_neg hdirect]
      have hrow : applyWrite p.db (key, none) = (p.tiers.step p.cachingRegime (.del key)).2.db :=
        Option.some.inj ((delValueExchanges_takePlace hpg he.1 p.db).symm.trans hall)
      rw [hrow] at hvalue
      refine Machine.Throughout.imp hvalue fun row hrow => ?_
      rcases hrow with hbefore | hbehind
      · exact .inl hbefore
      · exact .inr (.inl hbehind)
  · exact Machine.throughout_of_length_le_one (length_exchanges_le fun key heq => hdel ⟨key, heq⟩)
      hall (.inl rfl) (.inr (.inl rfl))

/-- Wherever the worker is in some events: all before the last one are done, and the last one has
begun. -/
theorem Proxy.Midway.stops (hp : p.Inv) (hpending : ∀ w ∈ p.tiers.pending, QuotableWrite Legal w)
    {begun : List Event} (hlegal : ∀ e ∈ begun, e.Quotable Legal) {sent : List Exchange}
    (h : p.Midway begun sent) :
    ∃ row, TakePlace pg p.db sent row ∧
      (begun = [] ∧ row = p.db ∨ ∃ done e, begun = done ++ [e] ∧
        (p.tiers.after p.cachingRegime done).Amid p.cachingRegime e row) := by
  induction begun generalizing p sent with
  | nil =>
      obtain rfl : sent = [] := List.prefix_nil.mp h.2
      exact ⟨p.db, .nil pg p.db, .inl ⟨rfl, rfl⟩⟩
  | cons e begun ih =>
      have he := hlegal e List.mem_cons_self
      have hrest := fun e' he' => hlegal e' (List.mem_cons_of_mem e he')
      obtain ⟨p₁, hstep, hrefines⟩ := step_refines hp e
      have hsends : ∀ events, p.conversation (e :: events) =
          p.exchanges e ++ p₁.conversation events := fun events => by
        rw [Proxy.conversation, hstep]
      have hpending₁ := he.pending_step (r := p.cachingRegime) hpending
      rw [← hrefines.tiers_eq] at hpending₁
      cases begun with
      | nil =>
          have hsent := h.2
          rw [hsends, Proxy.conversation, List.append_nil] at hsent
          obtain ⟨row, hrow, hamid⟩ := exchanges_stops hpg hp hpending he sent hsent
          exact ⟨row, hrow, .inr ⟨[], e, rfl, hamid⟩⟩
      | cons next begun =>
          have hfirst := exchanges_takePlace hpg hp hpending he
          rw [← hrefines.tiers_eq] at hfirst
          obtain ⟨hbefore, hbehind⟩ := h
          rw [List.dropLast_cons_cons, hsends] at hbefore
          rw [hsends] at hbehind
          obtain ⟨rest, rfl⟩ := (List.prefix_append _ _).trans hbefore
          have hmidway : p₁.Midway (next :: begun) rest :=
            ⟨(List.prefix_append_right_inj _).mp hbefore,
              (List.prefix_append_right_inj _).mp hbehind⟩
          obtain ⟨row, hrow, hend⟩ := ih hrefines.inv hpending₁ hrest hmidway
          refine ⟨row, hfirst.append hrow, .inr ?_⟩
          rcases hend with ⟨hnil, -⟩ | ⟨done, last, hsplit, hamid⟩
          · cases hnil
          · refine ⟨e :: done, last, by rw [hsplit]; rfl, ?_⟩
            rwa [hrefines.cachingRegime_eq, hrefines.tiers_eq, ← Tiers.after_cons] at hamid

end Texts

/-! ## What has reached the row -/

section Row

variable {r : DumpStatus} {v₀ : Option CString} {key : CString} {values : List (Option CString)}
  {t : Tiers}

/-- How many updates of a key can be lost: as many as the log takes, and the one that is on its way
to the database. -/
def mostLost (r : DumpStatus) : Nat :=
  if r = .defferDump then maxCountOperation else 1

namespace Tiers

/-- Of the updates of a key, fewer are lost when no event is in progress. -/
theorem Durable.lost_lt (h : t.Durable r v₀ key values)
    (hlog : t.pending.length < maxCountOperation) :
    ∃ kept lost, values = kept ++ lost ∧ t.db key = lastValue v₀ kept ∧
      lost.length < mostLost r := by
  obtain ⟨kept, lost, hsplit, hkept, hlost⟩ := h.db_eq
  refine ⟨kept, lost, hsplit, hkept, ?_⟩
  unfold mostLost
  split
  · exact (hlost.length_le.trans (length_valuesOf_le key _)).trans_lt hlog
  · rename_i hr
    rw [h.pending_eq_nil hr, valuesOf_nil, List.suffix_nil] at hlost
    simp [hlost]

/-- In the middle of an event, its own update may be lost as well. -/
theorem Durable.amid (h : t.Durable r v₀ key values) (hc : t.Coherent r)
    (hlog : t.pending.length < maxCountOperation) (hr : r ≠ .onlyCache) {e : Event}
    (hfits : r = .defferDump → keyFits key = true →
      ∀ v, some v ∈ updatesOf key [e] → valueFits v = true)
    {row : Hstore} (hrow : t.Amid r e row) :
    ∃ kept lost, values ++ updatesOf key [e] = kept ++ lost ∧ row key = lastValue v₀ kept ∧
      lost.length ≤ mostLost r := by
  rcases hrow with rfl | rfl | ⟨k, rfl, hnone, rfl⟩
  · obtain ⟨kept, lost, rfl, hkept, hlost⟩ := h.lost_lt hlog
    refine ⟨kept, lost ++ updatesOf key [e], List.append_assoc _ _ _, hkept, ?_⟩
    have hone : (updatesOf key [e]).length ≤ 1 :=
      (length_valuesOf_le key _).trans (List.length_filterMap_le _ _)
    rw [List.length_append]
    omega
  · obtain ⟨kept, lost, hsplit, hkept, hlost⟩ :=
      (h.step hc hr hfits).lost_lt (step_not_full hlog e)
    exact ⟨kept, lost, hsplit, hkept, hlost.le⟩
  · -- the log has nothing of the key, so that the database has its last update
    have hdeleted := h.dbWrite (w := (k, none)) fun hk => hc.valuesOf_eq_nil (hk ▸ hnone)
    obtain ⟨kept, lost, hsplit, hkept, hlost⟩ := hdeleted.lost_lt hlog
    exact ⟨kept, lost, hsplit, hkept, hlost.le⟩

end Tiers

end Row

/-! ## The server -/

section Read

variable {p p' : Proxy} {o o' : Output} {l l' : Answer × Answer} {d : Delivery}

/-- A `COMMAND` leaves the store alone. -/
theorem serve_command {c : Call} (hc : c.IsCommand) {x x' : Service} {goOn : Bool}
    (hserve : x.serve c.argv = some (goOn, x')) : x'.proxy = x.proxy := by
  have hprocess : processRedisToPostgres .none x.proxy c.argv x.pgAnswer =
      some (0, x.pgAnswer, x.proxy) := processRedisToPostgres_command hc c.2 x.pgAnswer
  simp only [Service.serve, hprocess, Option.bind_eq_bind, Option.bind_some] at hserve
  rw [if_neg (by decide), Option.bind_eq_some_iff] at hserve
  obtain ⟨⟨rc, rdAnswer⟩, -, hqueued⟩ := hserve
  dsimp only at hqueued
  split at hqueued <;> cases hqueued <;> rfl

/-- A request that the worker comes back from leaves what its events leave. -/
theorem connectionHandler_after (hp : p.Inv)
    (hserve : connectionHandler.serve l (p, o) d = some (l', (p', o'))) (i : Nat) :
    p.Refines p' (p.tiers.after p.cachingRegime (Entry.events (.request i d))) := by
  cases hcall : d.call? with
  | none => simp [connectionHandler, serviceHandler_call_none hcall] at hserve
  | some c =>
      have hevents : Entry.events (.request i d) = (Command.of c.1 c.2).events := by
        simp [Entry.events, Delivery.events, hcall]
      rw [hevents]
      by_cases hc : c.IsCommand
      · have hnone := (Tiers.serve_eq_none_iff p.cachingRegime p.tiers c.1 c.2).mpr hc
        rw [events_of_serve_eq_none hnone]
        simp only [connectionHandler, serviceHandler_call hcall, Option.bind_eq_bind,
          Option.bind_eq_some_iff] at hserve
        obtain ⟨next, ⟨⟨goOn, x⟩, hcommand, hnext⟩, rdAnswer, -, o₁, -, heq⟩ := hserve
        have hsame := serve_command hc hcommand
        dsimp only at hnext
        split at hnext
        · cases hnext
          cases heq
          rw [hsame]
          exact .refl hp
        · cases hnext
      · obtain ⟨reply, t, p₁, rest, hreply, hrefines, hown⟩ := connectionHandler_own hp hcall hc
        rw [hown, Option.map_eq_some_iff] at hserve
        obtain ⟨o₁, -, heq⟩ := hserve
        cases heq
        rwa [← serve_after hreply]

/-- However a read event ends, the store is what the requests handed over have left, all of them or
all but the last one. -/
theorem readLoop_after {fuel : Nat} {c c' : Conn UInt8 (Proxy × Output)} {exit : Exit}
    (hp : c.host.1.Inv) (hread : readLoop id connectionHandler fuel l c = (exit, c')) (i : Nat) :
    ∃ ds done, c'.delivered = c.delivered ++ ds ∧ ds.dropLast <+: done ∧ done <+: ds ∧
      c.host.1.Refines c'.host.1 (c.host.1.tiers.after c.host.1.cachingRegime
        (eventsOf (done.map (.request i)))) := by
  induction fuel generalizing l c with
  | zero =>
      cases hread
      exact ⟨[], [], by simp, List.prefix_rfl, List.prefix_rfl, .refl hp⟩
  | succ fuel ih =>
      simp only [readLoop] at hread
      split at hread
      · cases hread
        exact ⟨[], [], by simp, List.prefix_rfl, List.prefix_rfl, .refl hp⟩
      · split at hread
        · cases hread
          exact ⟨[], [], by simp, List.prefix_rfl, List.prefix_rfl, .refl hp⟩
        · cases hserve : connectionHandler.serve l c.host
              (parseCliMes id (resetIfAll c.readData)).1.parse.delivery with
          | none =>
              simp only [hserve] at hread
              cases hread
              exact ⟨[_], [], rfl, List.prefix_rfl, List.nil_prefix, .refl hp⟩
          | some next =>
              obtain ⟨l₁, p₁, o₁⟩ := next
              have hfirst := connectionHandler_after hp hserve i
              simp only [hserve] at hread
              split at hread
              · obtain ⟨ds, done, hdelivered, hbefore, hdone, hrest⟩ := ih hfirst.inv hread
                dsimp only at hrest
                rw [hfirst.cachingRegime_eq, hfirst.tiers_eq, ← Tiers.after_append] at hrest
                refine ⟨_ :: ds, _ :: done, by rw [hdelivered]; simp; rfl, ?_,
                  (List.prefix_cons_inj _).mpr hdone, ?_⟩
                · cases ds with
                  | nil => exact List.nil_prefix
                  | cons d ds => exact (List.prefix_cons_inj _).mpr hbefore
                · exact ⟨hrest.inv, hrest.cachingRegime_eq.trans hfirst.cachingRegime_eq,
                    hrest.tiers_eq⟩
              · cases hread
                exact ⟨[_], [_], rfl, List.nil_prefix, List.prefix_rfl, by
                  simpa [eventsOf] using hfirst⟩

end Read

/-- A callback that the worker comes back from has recorded what it handed to the store. -/
theorem Server.history_of_step {s s' : Server} {e : ServerEvent}
    (hstep : serverRules.step s e = some s') :
    s'.shared.history = s.shared.history ++ s.attempted e := by
  cases e with
  | join i g =>
      simp only [Rules.step] at hstep
      split at hstep <;> cases hstep <;> simp [attempted]
  | act i b =>
      simp only [Rules.step] at hstep
      cases hm : s.member i with
      | absent | left c =>
          rw [hm] at hstep
          cases hstep
          cases b <;> simp [attempted, hm]
      | present c =>
          rw [hm] at hstep
          obtain ⟨⟨x, m⟩, hact, rfl⟩ := Option.map_eq_some_iff.mp hstep
          cases b with
          | readable bytes =>
              have hact' : c.onReadable i bytes s.shared = some (x, m) := hact
              unfold Client.onReadable Client.readBy at hact'
              simp only [attempted, hm]
              split at hact'
              · rename_i conn hread
                cases hact'
                rw [hread]
              · rename_i conn hread
                cases hact'
                rw [onReadCb_closed rfl hread]
                simp [Client.conn]
              · cases hact'
              · cases hact'
          | failed =>
              cases hact
              simp [attempted]
          | writable byteWrite =>
              obtain ⟨c', -, heq⟩ := Option.map_eq_some_iff.mp hact
              cases heq
              simp [attempted]
  | change u =>
      obtain ⟨x, hchange, rfl⟩ := Option.map_eq_some_iff.mp hstep
      have hchange' : onTimerTimeoutCb s.shared = some x := hchange
      unfold onTimerTimeoutCb at hchange'
      simp only [attempted]
      split at hchange'
      · rename_i hr
        rw [Option.bind_eq_bind, Option.bind_eq_some_iff] at hchange'
        obtain ⟨⟨rc, p⟩, -, heq⟩ := hchange'
        cases heq
        rw [if_pos hr]
      · rename_i hr
        cases hchange'
        rw [if_neg hr, List.append_nil]

/-- Let PostgreSQL do what is documented of it, and let the worker, outside of `ONLY_CACHE`, be
gone in the middle of a callback, behind any interleaving of callbacks; all keys and values are
legal and without quotes. The texts sent so far have got the results that the worker acted on. Of
all updates of a key that were begun, the row has the last one up to some point, and few are behind
it. Under `DEFFER_DUMP` this is so of a key that does not fit the cache or whose values all do. -/
theorem crash_midway {pg : Postgres} {Legal : CString → Prop} (hpg : Documented pg Legal)
    {r : DumpStatus} (hr : r ≠ .onlyCache) {db : Hstore} {events : List ServerEvent} {s : Server}
    (hrun : Server.run r db events = some s) {e : ServerEvent}
    (hlegal : ∀ x ∈ eventsOf (s.shared.history ++ s.attempted e), x.Quotable Legal)
    {begun : List Event} (hbegun : begun <+: eventsOf (s.attempted e)) {sent : List Exchange}
    (hsent : s.shared.proxy.Midway begun sent) :
    ∃ row, TakePlace pg db
        ((Proxy.start r db).conversation (eventsOf s.shared.history) ++ sent) row ∧
      ∀ key, (r = .defferDump → keyFits key = true →
          ∀ v, some v ∈ updatesOf key (eventsOf (s.shared.history ++ s.attempted e)) →
            valueFits v = true) →
        ∃ kept lost, updatesOf key (eventsOf s.shared.history ++ begun) = kept ++ lost ∧
          row key = lastValue (db key) kept ∧ lost.length ≤ mostLost r := by
  obtain ⟨⟨z, hz⟩, -⟩ := Server.run_holds hrun
  have hstore := Server.run_store hrun
  have hall : eventsOf (s.shared.history ++ s.attempted e) =
      eventsOf s.shared.history ++ eventsOf (s.attempted e) := List.flatMap_append
  have hpast : ∀ x ∈ eventsOf s.shared.history, x.Quotable Legal := fun x hx =>
    hlegal x (by rw [hall]; exact List.mem_append_left _ hx)
  have hnow : ∀ x ∈ begun, x.Quotable Legal := fun x hx =>
    hlegal x (by rw [hall]; exact List.mem_append_right _ (hbegun.subset hx))
  have hpast' := conversation_takesPlace hpg (Proxy.start_inv r db) hpast (by simp [Tiers.start])
  rw [Proxy.start_tiers, Proxy.start_cachingRegime, ← hstore] at hpast'
  have hpending : ∀ w ∈ s.shared.proxy.tiers.pending, QuotableWrite Legal w := by
    rw [hstore]
    exact after_pending_quotable hpast (by simp [Tiers.start])
  obtain ⟨row, hrow, hend⟩ := hsent.stops hpg hz.inv hpending hnow
  refine ⟨row, hpast'.append hrow, fun key hfits => ?_⟩
  have hfits' : r = .defferDump → keyFits key = true →
      ∀ v, some v ∈ updatesOf key (eventsOf s.shared.history ++ begun) → valueFits v = true := by
    obtain ⟨rest, hrest⟩ := hbegun
    intro hr' hkey v hv
    refine hfits hr' hkey v ?_
    rw [hall, ← hrest, ← List.append_assoc, updatesOf_append]
    exact List.mem_append_left _ hv
  rcases hend with ⟨rfl, rfl⟩ | ⟨done, last, rfl, hamid⟩
  · rw [List.append_nil] at hfits' ⊢
    obtain ⟨kept, lost, hsplit, hkept, hlost⟩ :=
      (Tiers.after_durable hr db key hfits').lost_lt (Tiers.after_not_full r db _)
    refine ⟨kept, lost, hsplit, ?_, hlost.le⟩
    rw [← hkept, ← hstore]
    rfl
  · rw [hz.cachingRegime_eq, hstore, ← Tiers.after_append] at hamid
    rw [← List.append_assoc, updatesOf_append] at hfits' ⊢
    refine Tiers.Durable.amid (Tiers.after_durable hr db key fun hr' hkey v hv =>
        hfits' hr' hkey v (List.mem_append_left _ hv))
      (Tiers.after_coherent (Tiers.start_coherent r db) _) (Tiers.after_not_full r db _) hr
      (fun hr' hkey v hv => hfits' hr' hkey v (List.mem_append_right _ hv)) hamid

/-- A SET waits in the log when the worker is stopped in the middle of a synchronization. -/
theorem crash_midway_sync :
    ∃ s row, Server.run .defferDump (fun _ => none) (twoClients.take 5) = some s ∧
      TakePlace samplePostgres (fun _ => none)
        ((Proxy.start .defferDump fun _ => none).conversation (eventsOf s.shared.history) ++ [])
        row ∧
      ∃ kept lost, updatesOf sampleKey (eventsOf s.shared.history ++ [.sync]) = kept ++ lost ∧
        row sampleKey = lastValue none kept ∧ lost.length ≤ mostLost .defferDump := by
  obtain ⟨s, hrun⟩ := Option.isSome_iff_exists.mp (by decide +kernel :
    (Server.run .defferDump (fun _ => none) (twoClients.take 5)).isSome)
  have hattempted : (Server.run .defferDump (fun _ => none) (twoClients.take 5)).map
      (fun s => s.attempted (.change ())) = some [.sync] := by
    decide +kernel
  have hevents : (Server.run .defferDump (fun _ => none) (twoClients.take 5)).map
      (fun s => eventsOf s.shared.history) =
        some [.get sampleKey, .set sampleKey ⟨ascii "v", by decide⟩] := by
    decide +kernel
  rw [hrun, Option.map_some, Option.some_inj] at hattempted hevents
  have hall : eventsOf (s.shared.history ++ s.attempted (.change ())) =
      [.get sampleKey, .set sampleKey ⟨ascii "v", by decide⟩, .sync] := by
    rw [hattempted, eventsOf, List.flatMap_append, ← eventsOf, hevents]
    rfl
  have hkey : Quotable (fun _ => True) sampleKey := ⟨trivial, by decide⟩
  have hvalue : Quotable (fun _ => True) ⟨ascii "v", by decide⟩ := ⟨trivial, by decide⟩
  have hlegal : ∀ e ∈ eventsOf (s.shared.history ++ s.attempted (.change ())),
      e.Quotable fun _ => True := by
    rw [hall]
    simp [Event.Quotable, QuotableWrite, hkey, hvalue]
  have hbegun : [Event.sync] <+: eventsOf (s.attempted (.change ())) := by
    rw [hattempted]
    exact List.prefix_rfl
  have hsent : s.shared.proxy.Midway [.sync] [] := ⟨List.prefix_rfl, List.nil_prefix⟩
  obtain ⟨row, hrow, hkeys⟩ :=
    crash_midway samplePostgres_documented (by decide) hrun hlegal hbegun hsent
  refine ⟨s, row, hrun, hrow, hkeys sampleKey fun _ _ v hv => ?_⟩
  have hset : updatesOf sampleKey
      [.get sampleKey, .set sampleKey ⟨ascii "v", by decide⟩, .sync] =
        [some ⟨ascii "v", by decide⟩] := by
    decide
  rw [hall, hset, List.mem_singleton, Option.some_inj] at hv
  subst hv
  decide

end PgRedisProxy
