import PgRedisProxy.Reply.Transparency
import PgRedisProxy.Server.Survival

/-!
# All clients talk to one map

`plainStore` is a key/value map that executes commands. As long as the values in the row
are nonempty, and every value that a client sets is so and fits the cache, the worker is
such a map for all of its clients at once, in each caching regime and with the timer going
off at any time, over a PostgreSQL that does what is documented of it: `run_linearizable` is
the main result. A client that reads what was sent to it gets the replies of the map.
-/

namespace PgRedisProxy

open CLang KeyValue Parties Resp

/-- What a command does to a plain map, and its reply. -/
def PlainMap.serve (m : Hstore) : Command → Option (Reply × Hstore)
  | .get key =>
      match m key with
      | some value => some (.bulk value.bytes, m)
      | none => some (.nil, m)
  | .set key value => some (.simple (ascii "OK"), applyWrite m (key, some value))
  | .del keys => some (.int (countPresent m keys), eraseAll m keys)
  | .command => none
  | .ping => some (.simple (ascii "PONG"), m)
  | .invalid type => some (.error type.message, m)

/-- A plain map as a store. It has no log. -/
def plainStore : CommandStore Hstore where
  serve := PlainMap.serve
  sync := id

/-- A SET stores a nonempty value that fits the cache. -/
def Command.Admissible : Command → Prop
  | .set _ value => value ≠ CString.empty ∧ valueFits value = true
  | _ => True

instance : DecidablePred Command.Admissible
  | .set _ _ => inferInstanceAs (Decidable (_ ∧ _))
  | .get _ => isTrue trivial
  | .del _ => isTrue trivial
  | .command => isTrue trivial
  | .ping => isTrue trivial
  | .invalid _ => isTrue trivial

/-- The request is one of a command with a reply, which is admissible. -/
def AdmissibleRequest : Request → Prop
  | [] => False
  | name :: args =>
      ¬ (commandOf name args).IsCommand ∧ (Command.of (cut name) (args.map cut)).Admissible

instance : DecidablePred AdmissibleRequest
  | [] => isFalse id
  | _ :: _ => inferInstanceAs (Decidable (_ ∧ _))

/-- The three maps reply to a command as the map they show. -/
theorem serve_shows {r : DumpStatus} {t : Tiers} {m : Hstore} {cmd : Command} (h : t.Shows r m)
    (hcmd : cmd.Admissible) :
    ((tiersStore r).serve t cmd = none ∧ plainStore.serve m cmd = none) ∨
      ∃ reply t' m', (tiersStore r).serve t cmd = some (reply, t') ∧
        plainStore.serve m cmd = some (reply, m') ∧ t'.Shows r m' := by
  cases cmd with
  | get key =>
      obtain ⟨hreply, hshows⟩ := h.get key
      refine .inr ⟨(t.get r key).1.toReply, (t.get r key).2, m, rfl, ?_, hshows⟩
      simp only [plainStore, PlainMap.serve, hreply, PlainMap.get]
      cases m key <;> rfl
  | set key value => exact .inr ⟨_, _, _, rfl, rfl, h.set key hcmd.1 hcmd.2⟩
  | del keys =>
      obtain ⟨hcount, hshows⟩ := h.delAll keys
      refine .inr ⟨.int (t.delAll r keys).1, (t.delAll r keys).2, eraseAll m keys, rfl, ?_, hshows⟩
      rw [hcount]
      rfl
  | command => exact .inl ⟨rfl, rfl⟩
  | ping => exact .inr ⟨_, t, m, rfl, rfl, h⟩
  | invalid type => exact .inr ⟨_, t, m, rfl, rfl, h⟩

/-- A synchronization does not show. -/
theorem sync_shows {r : DumpStatus} {t : Tiers} {m : Hstore} (h : t.Shows r m) :
    ((tiersStore r).sync t).Shows r (plainStore.sync m) := by
  by_cases hr : r = .defferDump
  · simp only [tiersStore, Tiers.step, hr, if_true]
    exact hr ▸ h.flush hr
  · simp only [tiersStore, Tiers.step, hr, if_false]
    exact h

/-- The replies of a plain map can be read back. -/
theorem PlainMap.serve_readable {m m' : Hstore} {cmd : Command} {reply : Reply}
    (h : PlainMap.serve m cmd = some (reply, m')) : (shown reply).Readable := by
  cases cmd with
  | get key =>
      simp only [PlainMap.serve] at h
      split at h
      · rename_i value _
        cases h
        cases hbytes : value.bytes with
        | nil => trivial
        | cons c bytes => trivial
      · cases h
        trivial
  | set key value =>
      cases h
      exact (by decide : 13 ∉ ascii "OK")
  | del keys =>
      cases h
      trivial
  | command => cases h
  | ping =>
      cases h
      exact (by decide : 13 ∉ ascii "PONG")
  | invalid type =>
      cases h
      cases type with
      | commandNotFound => exact (by decide : 13 ∉ ascii "unknown command")
      | wrongArgumentsCount => exact (by decide : 13 ∉ ascii "syntax error")

/-- So can all of them. -/
theorem plain_readable {z z' : Serial Hstore} {history : List Entry}
    (hrun : z.run plainStore history = some z') (hz : ∀ a ∈ z.answered, a.2.Readable) :
    ∀ a ∈ z'.answered, a.2.Readable := by
  refine Machine.runFrom_keeps (I := fun z : Serial Hstore => ∀ a ∈ z.answered, a.2.Readable) ?_ hz
    hrun
  intro z e z₁ hz hstep a ha
  cases e with
  | sync =>
      cases hstep
      exact hz a ha
  | request i d =>
      simp only [Serial.step, Option.bind_eq_some_iff] at hstep
      obtain ⟨call, -, hstep⟩ := hstep
      split at hstep
      · rename_i reply m hserve
        cases hstep
        rcases List.mem_append.mp ha with ha | ha
        · exact hz a ha
        · obtain rfl := List.mem_singleton.mp ha
          exact PlainMap.serve_readable hserve
      · obtain ⟨last, hlast, rfl⟩ := Option.map_eq_some_iff.mp hstep
        rcases List.mem_append.mp ha with ha | ha
        · exact hz a ha
        · obtain rfl := List.mem_singleton.mp ha
          exact hz last (List.mem_of_getLast? hlast)

/-- A request of a history is one of a client's. -/
theorem mem_requestsOf {i : Nat} {d : Delivery} {history : List Entry} :
    d ∈ requestsOf i history ↔ .request i d ∈ history := by
  unfold requestsOf
  rw [List.mem_filterMap]
  constructor
  · rintro ⟨e, he, hd⟩
    cases e with
    | sync => cases hd
    | request j d' =>
        simp only [Option.ite_none_right_eq_some, Option.some.injEq] at hd
        obtain ⟨rfl, rfl⟩ := hd
        exact he
  · intro he
    exact ⟨_, he, by simp⟩

/-- The requests completed are among those sent. -/
theorem mem_of_mem_completed {requests : List Request} {n : Nat} {request : Request}
    (h : request ∈ completed requests n) : request ∈ requests := by
  induction requests generalizing n with
  | nil => cases h
  | cons first requests ih =>
      simp only [completed] at h
      split at h
      · rcases List.mem_cons.mp h with rfl | h
        · exact List.mem_cons_self
        · exact List.mem_cons_of_mem first (ih h)
      · cases h

/-- An admissible request is no `COMMAND`. -/
theorem AdmissibleRequest.not_command {request : Request} (h : AdmissibleRequest request) :
    ¬ IsCommand request := by
  cases request with
  | nil => exact id
  | cons name args => exact h.1

/-- Let PostgreSQL do what is documented of it, and the values in the row be nonempty. As long as no
client disconnects, the clients send well-formed requests other than `COMMAND`, with keys and values
that are legal and without quotes, keys that are not empty, and statement sizes that are `int`s,
every value they set is nonempty and fits the cache, writes are complete, less than 2 GiB of replies
wait for each client, and errors come between two requests, all clients talk to one plain map in any
interleaving: there is one order of their requests, with those of each client in the order it sent
them, such that what was sent to a client, followed by what waits, reads back as the replies of the
map. -/
theorem run_linearizable {pg : Postgres} {Legal : CString → Prop} (hpg : Documented pg Legal)
    {r : DumpStatus} {db : Hstore} (hdb : ∀ k, db k ≠ some CString.empty)
    {script : Nat → List Request}
    (hscript : ∀ i, ∀ request ∈ script i, WellFormed request ∧ AdmissibleRequest request)
    (hsendable : ∀ i, ∀ request ∈ script i, SendableRequest (Quotable Legal) request)
    {events : List ServerEvent}
    (hcalm : Machine.Along (serverRulesOn (.ofPostgres pg)).step (Guarded (Calm r db script))
      (Server.start r db) events) :
    ∃ s z, Server.runOn (.ofPostgres pg) r db events = some s ∧
      (Serial.start db).run plainStore s.shared.history = some z ∧
      ∀ i, ∀ c ∈ (s.member i).state?,
        requestsOf i s.shared.history = (completed (script i) c.received.length).map deliver ∧
        ∃ bytes, c.output.sent ++ c.output.buffer.take c.output.writeInfo.sizeAnswer.toNat =
            Block.ofBytes bytes ∧ readReplies bytes = some (z.repliesTo i) := by
  have hscript' : ∀ i, ∀ request ∈ script i, WellFormed request ∧ ¬ IsCommand request :=
    fun i request hr => ⟨(hscript i request hr).1, (hscript i request hr).2.not_command⟩
  obtain ⟨s, hrun, ⟨⟨z, hz⟩, -⟩, hmember⟩ :=
    Server.runOn_calm hscript' hpg.intends hsendable hcalm
  have hclients := fun i c hc => (hmember i).2.delivered hscript' (hmember i).1.1 hz (c := c) hc
  -- every request of the history was sent by a client that has joined
  have hadmissible : ∀ i d c, .request i d ∈ s.shared.history → d.call? = some c →
      (Command.of c.1 c.2).Admissible := by
    intro i d c hd hcall
    have hmem := mem_requestsOf.mpr hd
    obtain ⟨c', hc'⟩ : ∃ c', c' ∈ (s.member i).state? := by
      cases hm : s.member i with
      | absent =>
          have hserved : Served r db i s.shared (s.member i) := (hmember i).1.1
          rw [hm] at hserved
          rw [hserved.1] at hmem
          cases hmem
      | present c' => exact ⟨c', rfl⟩
      | left c' => exact ⟨c', rfl⟩
    rw [(hclients i c' hc').2] at hmem
    obtain ⟨request, hrequest, rfl⟩ := List.mem_map.mp hmem
    have hrequest' := (hscript i request (mem_of_mem_completed hrequest)).2
    cases request with
    | nil => exact hrequest'.elim
    | cons name args =>
        rw [call?_deliver] at hcall
        cases hcall
        exact hrequest'.2
  have hshows : (Tiers.start db).Shows r db :=
    ⟨Tiers.start_coherent r db, rfl, hdb, by simp [Tiers.start]⟩
  obtain ⟨z', hplain, -, hanswered⟩ := Serial.run_simulates serve_shows sync_shows hadmissible
    (show Tiers.Shows r (Serial.start (Tiers.start db)).store (Serial.start db).store from hshows)
    rfl hz.run_eq
  refine ⟨s, z', hrun, hplain, fun i c hc => ?_⟩
  obtain ⟨hbytes, hrequests⟩ := hclients i c hc
  have hreplies : z'.repliesTo i = z.repliesTo i := by
    simp only [Serial.repliesTo, hanswered]
  refine ⟨hrequests, _, hbytes, ?_⟩
  rw [hreplies]
  refine readReplies_encode fun reply hreply => ?_
  rw [← hreplies] at hreply
  obtain ⟨a, ha, rfl⟩ := List.mem_map.mp hreply
  exact plain_readable hplain (by simp [Serial.start]) a (List.mem_of_mem_filter ha)

/-- The replies of one map to a SET and a GET of two clients. -/
theorem run_linearizable_two :
    ∃ s z, Server.runOn (.ofPostgres samplePostgres) .defferDump (fun _ => none)
        (twoClients ++ [.act 1 (.writable 5), .act 0 (.writable 5)]) = some s ∧
      (Serial.start fun _ => none).run plainStore s.shared.history = some z := by
  have hscript : ∀ i, ∀ request ∈ twoScripts i, WellFormed request ∧ AdmissibleRequest request
    | 0 => by decide
    | 1 => by decide
    | _ + 2 => by simp [twoScripts]
  have hcalm : Machine.Along (serverRulesOn (.ofPostgres samplePostgres)).step
      (Guarded (Calm .defferDump (fun _ => none) twoScripts))
      (Server.start .defferDump fun _ => none)
      (twoClients ++ [.act 1 (.writable 5), .act 0 (.writable 5)]) := by
    decide +kernel
  obtain ⟨s, z, hrun, hplain, -⟩ :=
    run_linearizable samplePostgres_documented (by simp) hscript twoScripts_sendable hcalm
  exact ⟨s, z, hrun, hplain⟩

end PgRedisProxy
