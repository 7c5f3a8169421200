import PgRedisProxy.Server.OneMap

/-!
# No client can tell in which regime the worker runs

Two workers on the same database run in different caching regimes, and their timers go off
at different times. `Alike` relates their stores: both show the clients one plain map. Let
PostgreSQL do what is documented of it. As long as the values in the row are nonempty, every
value that is set is so and fits the cache, and all keys and values can be sent, they do the
same to every connection, byte for byte, in whatever order the callbacks come:
`regimes_agree` is the main result.
-/

namespace PgRedisProxy

open CLang KeyValue Parties Resp

/-! ## Two stores -/

/-- Both stores show the clients the same plain map. -/
def Alike (r r' : DumpStatus) (p p' : Proxy) : Prop :=
  p.Inv ∧ p.cachingRegime = r ∧ p'.Inv ∧ p'.cachingRegime = r' ∧
    ∃ m, p.tiers.Shows r m ∧ p'.tiers.Shows r' m

/-- The locals of a read event hold the same result, or none so far. -/
def SameResult (l l' : Answer × Answer) : Prop :=
  l.1 = .null ∧ l'.1 = .null ∨ ∃ rest rest' reply, l.1 = .of rest reply ∧ l'.1 = .of rest' reply

/-- A request whose command, if it has one, is admissible. -/
def Delivery.Admissible (d : Delivery) : Prop :=
  ∀ c ∈ d.call?, (Command.of c.1 c.2).Admissible

instance (d : Delivery) : Decidable d.Admissible :=
  inferInstanceAs (Decidable (∀ c ∈ d.call?, _))

section Alike

variable {r r' : DumpStatus} {p p' p₁ p₁' : Proxy} {t t' : Tiers} {m : Hstore}

/-- What the three maps reply is what the plain map they show replies. -/
theorem Tiers.Shows.serve_eq {cmd : Command} (h : t.Shows r m) (hcmd : cmd.Admissible)
    {reply : Reply} (hserve : t.serve r cmd = some (reply, t')) :
    ∃ m', PlainMap.serve m cmd = some (reply, m') ∧ t'.Shows r m' := by
  rcases serve_shows h hcmd with ⟨hnone, -⟩ | ⟨reply', t₁, m', hsome, hplain, hshows⟩
  · have hnone' : t.serve r cmd = none := hnone
    rw [hserve] at hnone'
    cases hnone'
  · have hsome' : t.serve r cmd = some (reply', t₁) := hsome
    rw [hserve] at hsome'
    cases hsome'
    exact ⟨m', hplain, hshows⟩

/-- A connection gets the same reply from both stores. -/
theorem connectionHandler_mirrors (r r' : DumpStatus) :
    connectionHandler.Mirrors connectionHandler SameResult
      (fun a a' => Alike r r' a.1 a'.1 ∧ a'.2 = a.2) Delivery.Admissible where
  fresh := .inl ⟨rfl, rfl⟩
  serve := by
    rintro l l' ⟨p, o⟩ ⟨p', o'⟩ d l₁ ⟨p₁, o₁⟩ hl ⟨halike, rfl⟩ hd hserve
    obtain ⟨hp, hr, hp', hr', m, hshows, hshows'⟩ := halike
    cases hcall : d.call? with
    | none => simp [connectionHandler, serviceHandler_call_none hcall] at hserve
    | some c =>
        by_cases hc : c.IsCommand
        · -- both turn the last result into a reply again
          obtain ⟨pgAnswer, rdAnswer⟩ := l
          obtain ⟨pgAnswer', rdAnswer'⟩ := l'
          rcases hl with ⟨rfl, -⟩ | ⟨rest, rest', reply, rfl, rfl⟩
          · rw [(connectionHandler_command hcall hc _).1] at hserve
            cases hserve
          · rw [(connectionHandler_command hcall hc _).2, Option.map_eq_some_iff] at hserve
            obtain ⟨o₂, hqueued, heq⟩ := hserve
            cases heq
            refine ⟨(.of rest' reply, .bytes (shown reply).encode), (p', o₁), ?_,
              .inr ⟨rest, rest', reply, rfl, rfl⟩, ?_, rfl⟩
            · rw [(connectionHandler_command hcall hc _).2, hqueued]
              rfl
            · exact ⟨hp, hr, hp', hr', m, hshows, hshows'⟩
        · obtain ⟨reply, t, p₂, rest, hreply, hrefines, hown⟩ :=
            connectionHandler_own hp hcall hc
          obtain ⟨reply', t', p₂', rest', hreply', hrefines', hown'⟩ :=
            connectionHandler_own hp' hcall hc
          rw [hown, Option.map_eq_some_iff] at hserve
          obtain ⟨o₂, hqueued, heq⟩ := hserve
          cases heq
          rw [hr] at hreply
          rw [hr'] at hreply'
          obtain ⟨m₁, hplain, hshows₁⟩ := hshows.serve_eq (hd c hcall) hreply
          obtain ⟨m₁', hplain', hshows₁'⟩ := hshows'.serve_eq (hd c hcall) hreply'
          obtain ⟨rfl, rfl⟩ := Prod.mk.inj (Option.some.inj (hplain.symm.trans hplain'))
          refine ⟨(.of rest' reply, .bytes (shown reply).encode), (p₂', o₁), ?_,
            .inr ⟨rest, rest', reply, rfl, rfl⟩, ?_, rfl⟩
          · rw [hown', hqueued]
            rfl
          · exact ⟨hrefines.inv, hrefines.cachingRegime_eq.trans hr, hrefines'.inv,
              hrefines'.cachingRegime_eq.trans hr', m₁, hrefines.tiers_eq.symm ▸ hshows₁,
              hrefines'.tiers_eq.symm ▸ hshows₁'⟩

/-- When a timer goes off, the store still shows the same map. -/
theorem onTimerTimeoutCb_shows {x : Shared} (hp : x.proxy.Inv) (hr : x.proxy.cachingRegime = r)
    (hshows : x.proxy.tiers.Shows r m) :
    ∃ x', onTimerTimeoutCb x = some x' ∧ x'.proxy.Inv ∧ x'.proxy.cachingRegime = r ∧
      x'.proxy.tiers.Shows r m ∧
      x'.history.filter (· ≠ .sync) = x.history.filter (· ≠ .sync) := by
  unfold onTimerTimeoutCb
  by_cases hdeffer : x.proxy.cachingRegime = .defferDump
  · obtain ⟨p', hsync, hrefines⟩ := syncWithDb_refines hp hdeffer
    rw [if_pos hdeffer, hsync]
    refine ⟨⟨p', x.history ++ [.sync]⟩, rfl, hrefines.inv, hrefines.cachingRegime_eq.trans hr, ?_,
      by simp⟩
    rw [hrefines.tiers_eq]
    exact hshows.flush (hr.symm.trans hdeffer)
  · rw [if_neg hdeffer]
    exact ⟨x, rfl, hp, hr, hshows, rfl⟩

end Alike

/-! ## Two workers -/

/-- An entry of a history whose command, if it has one, is admissible. -/
def Entry.Admissible : Entry → Prop
  | .request _ d => d.Admissible
  | .sync => True

instance : DecidablePred Entry.Admissible
  | .request _ _ => inferInstanceAs (Decidable (Delivery.Admissible _))
  | .sync => isTrue trivial

/-- The stores are alike, and have executed the same requests. -/
def SameMap (r r' : DumpStatus) (x x' : Shared) : Prop :=
  Alike r r' x.proxy x'.proxy ∧
    x'.history.filter (· ≠ .sync) = x.history.filter (· ≠ .sync)

/-- A read event does the same to a connection of either worker. -/
theorem onReadable_mirrors {r r' : DumpStatus} {i : Nat} {bytes : List UInt8} {x x' x₁ : Shared}
    {c : Client} {m : Member Client} (hsame : SameMap r r' x x')
    (hgood : ∀ e ∈ x₁.history, e.Admissible) (hact : c.onReadable i bytes x = some (x₁, m)) :
    ∃ x₁', c.onReadable i bytes x' = some (x₁', m) ∧ SameMap r r' x₁ x₁' := by
  obtain ⟨halike, hhistory⟩ := hsame
  have hconn : (c.conn x.proxy).Mirrors
      (fun a a' : Proxy × Output => Alike r r' a.1 a'.1 ∧ a'.2 = a.2) (c.conn x'.proxy) :=
    ⟨rfl, rfl, halike, rfl⟩
  unfold Client.onReadable Client.readBy at hact ⊢
  split at hact
  · rename_i conn hread
    cases hact
    obtain ⟨conn', hread', hreadData, hdelivered, halike', houtput⟩ :=
      onReadCb_mirrors (connectionHandler_mirrors r r') hconn hread fun d hd =>
        hgood (.request i d) (List.mem_append_right _ (List.mem_map_of_mem hd))
    refine ⟨⟨conn'.host.1, x'.history ++ conn'.delivered.map (.request i)⟩, ?_, halike', ?_⟩
    · simp only [hread', hreadData, houtput]
    · simp only [List.filter_append, hhistory, hdelivered]
  · rename_i conn hread
    cases hact
    have hreadData : (c.conn x'.proxy).readData = (c.conn x.proxy).readData := rfl
    rw [onReadCb_closed hreadData hread]
    exact ⟨x', rfl, halike, hhistory⟩
  · cases hact
  · cases hact

/-- The connections cannot tell the workers apart, as long as everything executed is admissible. -/
theorem serverRules_simulates (r r' : DumpStatus) :
    serverRules.Simulates serverRules (fun x => ∀ e ∈ x.history, e.Admissible)
      (SameMap r r') where
  join := rfl
  good_act := fun hact hgood e he => hgood e ((clientAct_history hact).subset he)
  good_change := fun hchange hgood e he => hgood e ((onTimerTimeoutCb_history hchange).subset he)
  act := by
    intro i b x x' c x₁ m hsame hgood hact
    cases b with
    | readable bytes => exact onReadable_mirrors hsame hgood hact
    | failed =>
        cases hact
        exact ⟨x', rfl, hsame⟩
    | writable byteWrite =>
        obtain ⟨c', hwrite, heq⟩ := Option.map_eq_some_iff.mp hact
        cases heq
        exact ⟨x', by simp only [serverRules, clientAct, hwrite, Option.map_some], hsame⟩
  change_left := by
    rintro e x x' x₁ ⟨⟨hp, hr, hp', hr', m, hshows, hshows'⟩, hhistory⟩ hchange
    obtain ⟨x₂, htimer, hp₂, hr₂, hshows₂, hhistory₂⟩ := onTimerTimeoutCb_shows hp hr hshows
    obtain rfl : x₂ = x₁ := Option.some.inj (htimer.symm.trans hchange)
    exact ⟨⟨hp₂, hr₂, hp', hr', m, hshows₂, hshows'⟩, hhistory.trans hhistory₂.symm⟩
  change_right := by
    rintro e x x' ⟨⟨hp, hr, hp', hr', m, hshows, hshows'⟩, hhistory⟩
    obtain ⟨x₂', htimer, hp₂, hr₂, hshows₂, hhistory₂⟩ := onTimerTimeoutCb_shows hp' hr' hshows'
    exact ⟨x₂', htimer, ⟨hp, hr, hp₂, hr₂, m, hshows, hshows₂⟩, hhistory₂.trans hhistory⟩

/-- Synchronizations apart, stores that have executed the same requests have sent the same. -/
theorem sendable_of_filter {Q : CString → Prop} {x x' : Shared}
    (hhistory : x'.history.filter (· ≠ .sync) = x.history.filter (· ≠ .sync))
    (hsent : x.Sendable Q) : x'.Sendable Q := by
  intro e he
  obtain ⟨entry, hentry, hevent⟩ := List.mem_flatMap.mp he
  cases entry with
  | sync =>
      obtain rfl : e = .sync := List.mem_singleton.mp hevent
      trivial
  | request i d =>
      have hmem : .request i d ∈ x'.history.filter (· ≠ .sync) :=
        List.mem_filter.mpr ⟨hentry, by simp⟩
      rw [hhistory] at hmem
      exact hsent e (List.mem_flatMap.mpr ⟨_, List.mem_of_mem_filter hmem, hevent⟩)

/-- Over databases with the effects meant, the connections cannot tell the workers apart, as long as
everything executed is admissible and can be sent. -/
theorem serverRulesOn_simulates {D : Database} {Q : CString → Prop} (hD : D.Intends Q)
    (r r' : DumpStatus) :
    (serverRulesOn D).Simulates (serverRulesOn D)
      (fun x => (∀ e ∈ x.history, e.Admissible) ∧ x.Sendable Q)
      (fun x x' => SameMap r r' x x' ∧ x.proxy.Ready Q ∧ x'.proxy.Ready Q) := by
  have hagree := serverRules_agree hD
  have hsimulates := serverRules_simulates r r'
  exact
    { join := rfl
      good_act := by
        rintro i b x c x₁ m hact ⟨hgood, hsent⟩
        have hhistory := clientActOn_history hact
        exact ⟨fun e he => hgood e (hhistory.subset he), hsent.of_prefix hhistory⟩
      good_change := by
        rintro e x x₁ hchange ⟨hgood, hsent⟩
        have hhistory := onTimerTimeoutCbOn_history hchange
        exact ⟨fun e he => hgood e (hhistory.subset he), hsent.of_prefix hhistory⟩
      act := by
        rintro i b x x' c x₁ m ⟨hsame, hx, hx'⟩ ⟨hgood, hsent⟩ hact
        obtain ⟨hclean, hact⟩ := (hagree.act hx hsent).mp hact
        obtain ⟨x₁', hact', hsame₁⟩ := hsimulates.act hsame hgood hact
        have hsent' := sendable_of_filter hsame₁.2 hsent
        exact ⟨x₁', (hagree.act hx' hsent').mpr ⟨hclean, hact'⟩, hsame₁,
          hagree.inv_act hx hsent hact, hagree.inv_act hx' hsent' hact'⟩
      change_left := by
        rintro e x x' x₁ ⟨hsame, hx, hx'⟩ hchange
        have htimer : onTimerTimeoutCb x = some x₁ :=
          (onTimerTimeoutCbOn_eq hD hx).symm.trans hchange
        exact ⟨hsimulates.change_left (e := e) hsame htimer, onTimerTimeoutCb_ready hx htimer, hx'⟩
      change_right := by
        rintro e x x' ⟨hsame, hx, hx'⟩
        obtain ⟨x₁', hchange, hsame₁⟩ := hsimulates.change_right (e := e) hsame
        exact ⟨x₁', (onTimerTimeoutCbOn_eq hD hx').trans hchange, hsame₁, hx,
          onTimerTimeoutCb_ready hx' hchange⟩ }

/-- Let PostgreSQL do what is documented of it, and the values in the row be nonempty. Then two
workers that run in any two caching regimes, with their timers going off whenever, do the same to
all connections, however much of a reply each write accepts, as long as all keys and values are
legal and without quotes, no key is empty, all statement sizes are `int`s, and every value that is
set is nonempty and fits the cache: the second survives if the first one does, executes the same
requests in the same order, and leaves the same bytes sent, waiting, and unparsed on every
connection. -/
theorem regimes_agree {pg : Postgres} {Legal : CString → Prop} (hpg : Documented pg Legal)
    {r r' : DumpStatus} {db : Hstore} (hdb : ∀ k, db k ≠ some CString.empty)
    {events events' : List ServerEvent}
    (hevents : events'.filter Event.isMove = events.filter Event.isMove) {s : Server}
    (hrun : Server.runOn (.ofPostgres pg) r db events = some s)
    (hgood : ∀ e ∈ s.shared.history, e.Admissible)
    (hsent : s.shared.Sendable (Quotable Legal)) :
    ∃ s', Server.runOn (.ofPostgres pg) r' db events' = some s' ∧ s'.member = s.member ∧
      s'.shared.history.filter (· ≠ .sync) = s.shared.history.filter (· ≠ .sync) := by
  have hshows : ∀ r, (Proxy.start r db).tiers.Shows r db := by
    intro r
    rw [Proxy.start_tiers]
    exact ⟨Tiers.start_coherent r db, rfl, hdb, by simp [Tiers.start]⟩
  have hsame : SameMap r r' (Server.start r db).shared (Server.start r' db).shared :=
    ⟨⟨Proxy.start_inv r db, rfl, Proxy.start_inv r' db, rfl, db, hshows r, hshows r'⟩, rfl⟩
  obtain ⟨s', hrun', ⟨⟨-, hhistory⟩, -⟩, hmember⟩ :=
    (serverRulesOn_simulates hpg.intends r r').run
      ⟨hsame, Proxy.start_ready (Quotable Legal) r db, Proxy.start_ready (Quotable Legal) r' db⟩
      rfl hevents hrun ⟨hgood, hsent⟩
  exact ⟨s', hrun', hmember, hhistory⟩

/-- A SET and a GET of two clients, with and without a cache and a timer. -/
theorem regimes_agree_two :
    ∃ s s', Server.runOn (.ofPostgres samplePostgres) .defferDump (fun _ => none) twoClients =
        some s ∧
      Server.runOn (.ofPostgres samplePostgres) .noCache (fun _ => none)
        (twoClients.filter Event.isMove) = some s' ∧ s'.member = s.member := by
  obtain ⟨s, hrun, hchecked⟩ := Option.map_eq_some_iff.mp (by decide +kernel :
    (Server.runOn (.ofPostgres samplePostgres) .defferDump (fun _ => none) twoClients).map
      (fun s : Server => decide ((∀ e ∈ s.shared.history, e.Admissible) ∧
        ∀ e ∈ eventsOf s.shared.history, e ∈ sampleEvents)) = some true)
  obtain ⟨hgood, hevents⟩ := of_decide_eq_true hchecked
  have hmoves : (twoClients.filter Event.isMove).filter Event.isMove =
      twoClients.filter Event.isMove := by
    simp
  obtain ⟨s', hrun', hmember, -⟩ := regimes_agree samplePostgres_documented (by simp) hmoves hrun
    hgood fun e he => sampleEvents_sendable e (hevents e he)
  exact ⟨s, s', hrun, hrun', hmember⟩

end PgRedisProxy
