import PgRedisProxy.Server.EventLoop

/-!
# Executing requests one after the other

`Serial` is a store that executes the requests of all clients one after the other, with
the reply each of them gets; a `COMMAND` gets the last reply again. `attempt_serial`
relates the requests of one read event to it: where the worker comes back from all of
them, they are executed in order, and their replies are queued.
-/

namespace PgRedisProxy

open CLang KeyValue Parties Resp

/-- The strings that the arguments of a request are read as. -/
def Delivery.call? (d : Delivery) : Option Call :=
  match d.argv.mapM fun slot => slot.bind Block.cstr with
  | some (name :: args) => some (name, args)
  | _ => none

/-- What a store of type `S` replies to a command and becomes by it, and what it becomes when the
log is synchronized. `COMMAND` has no reply of its own. -/
structure CommandStore (S : Type*) where
  serve : S → Command → Option (Reply × S)
  sync : S → S

/-- The three maps as such a store. -/
def tiersStore (r : DumpStatus) : CommandStore Tiers where
  serve := Tiers.serve r
  sync := fun t => (t.step r .sync).2

/-- A store that executes one request after the other, and the replies so far, each with the client
it went to. -/
structure Serial (S : Type*) where
  store : S
  answered : List (Nat × Reply)

namespace Serial

variable {S : Type*}

/-- The store before the first request. -/
def start (store : S) : Serial S :=
  ⟨store, []⟩

/-- One request gets the reply it asks for, and `COMMAND` the last reply again. -/
def step (m : CommandStore S) (z : Serial S) : Entry → Option (Serial S)
  | .request i d =>
      d.call?.bind fun call =>
      match m.serve z.store (.of call.1 call.2) with
      | some (reply, store) => some ⟨store, z.answered ++ [(i, shown reply)]⟩
      | none =>
          z.answered.getLast?.map fun last =>
            { z with answered := z.answered ++ [(i, last.2)] }
  | .sync => some { z with store := m.sync z.store }

/-- The store after the requests of a history. -/
def run (m : CommandStore S) (z : Serial S) (history : List Entry) : Option (Serial S) :=
  Machine.runFrom (step m) z history

/-- The replies a client has got. -/
def repliesTo (z : Serial S) (i : Nat) : List Reply :=
  (z.answered.filter fun a => a.1 == i).map Prod.snd

end Serial

/-- The requests of a history, executed on a database. -/
def executeAll (r : DumpStatus) (db : Hstore) (history : List Entry) : Option (Serial Tiers) :=
  (Serial.start (Tiers.start db)).run (tiersStore r) history

/-- The requests of a client. -/
def requestsOf (i : Nat) (history : List Entry) : List Delivery :=
  history.filterMap fun
    | .request j d => if j = i then some d else none
    | .sync => none

theorem requestsOf_append (i : Nat) (first second : List Entry) :
    requestsOf i (first ++ second) = requestsOf i first ++ requestsOf i second := by
  simp [requestsOf]

theorem requestsOf_self (i : Nat) (ds : List Delivery) :
    requestsOf i (ds.map (.request i)) = ds := by
  simp [requestsOf, List.filterMap_map]

theorem requestsOf_other {i j : Nat} (hij : j ≠ i) (ds : List Delivery) :
    requestsOf j (ds.map (.request i)) = [] := by
  simp [requestsOf, List.filterMap_map, Ne.symm hij]

/-! ## Two stores -/

/-- Two stores that reply alike to the commands of a history, and go on to correspond, give every
client the same replies. -/
theorem Serial.run_simulates {S S' : Type*} {m : CommandStore S} {m' : CommandStore S'}
    {R : S → S' → Prop} {ok : Command → Prop}
    (hserve : ∀ {s s' cmd}, R s s' → ok cmd →
      (m.serve s cmd = none ∧ m'.serve s' cmd = none) ∨
        ∃ reply s₁ s₁', m.serve s cmd = some (reply, s₁) ∧
          m'.serve s' cmd = some (reply, s₁') ∧ R s₁ s₁')
    (hsync : ∀ {s s'}, R s s' → R (m.sync s) (m'.sync s')) {history : List Entry}
    (hok : ∀ i d c, .request i d ∈ history → d.call? = some c → ok (.of c.1 c.2))
    {z z₁ : Serial S} {z' : Serial S'} (hz : R z.store z'.store)
    (hanswered : z'.answered = z.answered) (hrun : z.run m history = some z₁) :
    ∃ z₁', z'.run m' history = some z₁' ∧ R z₁.store z₁'.store ∧ z₁'.answered = z₁.answered := by
  induction history generalizing z z' with
  | nil =>
      cases hrun
      exact ⟨z', rfl, hz, hanswered⟩
  | cons e history ih =>
      obtain ⟨z₂, hstep, hrest⟩ := Machine.runFrom_cons_eq_some.mp hrun
      have hok' := fun i d c hd => hok i d c (List.mem_cons_of_mem e hd)
      obtain ⟨z₂', hstep', hz₂, hanswered₂⟩ : ∃ z₂', z'.step m' e = some z₂' ∧
          R z₂.store z₂'.store ∧ z₂'.answered = z₂.answered := by
        cases e with
        | sync =>
            cases hstep
            exact ⟨_, rfl, hsync hz, hanswered⟩
        | request i d =>
            simp only [Serial.step, Option.bind_eq_some_iff] at hstep
            obtain ⟨call, hcall, hstep⟩ := hstep
            rcases hserve hz (hok i d call List.mem_cons_self hcall) with
              ⟨hnone, hnone'⟩ | ⟨reply, s₁, s₁', hsome, hsome', hR⟩
            · simp only [hnone, Option.map_eq_some_iff] at hstep
              obtain ⟨last, hlast, rfl⟩ := hstep
              refine ⟨{ z' with answered := z'.answered ++ [(i, last.2)] }, ?_, hz, ?_⟩
              · simp [Serial.step, hcall, hnone', hanswered, hlast]
              · rw [hanswered]
            · simp only [hsome] at hstep
              cases hstep
              refine ⟨⟨s₁', z'.answered ++ [(i, shown reply)]⟩, ?_, hR, ?_⟩
              · simp [Serial.step, hcall, hsome']
              · rw [hanswered]
      obtain ⟨z₁', hrest', hz₁, hanswered₁⟩ := ih hok' hz₂ hanswered₂ hrest
      exact ⟨z₁', Machine.runFrom_cons_eq_some.mpr ⟨z₂', hstep', hrest'⟩, hz₁, hanswered₁⟩

/-! ## One request -/

theorem mapM_id_ofBytes (bytes : List UInt8) : (Block.ofBytes bytes).mapM id = some bytes := by
  induction bytes with
  | nil => rfl
  | cons c bytes ih => simp [ih]

/-- A reply whose size is an `int` is copied as a whole. -/
theorem rdAnswer?_bytes (bytes : List UInt8) :
    (Answer.bytes bytes).rdAnswer? =
      if h : bytes.length < 2 ^ 31 then some ⟨bytes, h⟩ else none := by
  simp [Answer.rdAnswer?, Answer.bytes, Block.read_all_ofBytes, mapM_id_ofBytes]

/-- A reply is queued, or its size or that of what waits is no `int`. -/
theorem queued_iff {o o' : Output} {bytes : List UInt8} :
    ((Answer.bytes bytes).rdAnswer?.bind fun rdAnswer => o.step (.reply rdAnswer)) = some o' ↔
      ∃ rdAnswer : RdAnswer, rdAnswer.bytes = bytes ∧ o.step (.reply rdAnswer) = some o' := by
  rw [rdAnswer?_bytes]
  split
  · rename_i hlt
    constructor
    · intro hstep
      exact ⟨⟨bytes, hlt⟩, rfl, hstep⟩
    · rintro ⟨rdAnswer, rfl, hstep⟩
      exact hstep
  · rename_i hle
    constructor
    · intro hnone
      cases hnone
    · rintro ⟨rdAnswer, rfl, -⟩
      exact absurd rdAnswer.size_lt hle

/-- `pg_answer` holds the result that the last reply was made from, or nothing while no request of
the read event has been served. -/
def Serial.LastResult {S : Type*} (z : Serial S) (pgAnswer : Answer) : Prop :=
  pgAnswer = .null ∨
    ∃ rest reply j, pgAnswer = .of rest reply ∧ z.answered.getLast? = some (j, shown reply)

section Serve

variable {p : Proxy} {d : Delivery} {c : Call}

/-- The handling of a request that can be read serves its command. -/
theorem serviceHandler_call (hcall : d.call? = some c) (l : Answer × Answer)
    (replies : List Answer) :
    serviceHandler.serve l (p, replies) d =
      (Service.serve ⟨l.1, l.2, p, replies⟩ c.argv).bind fun next =>
        if next.1 then some ((next.2.pgAnswer, next.2.rdAnswer), (next.2.proxy, next.2.replies))
        else none := by
  have hargv : (d.argv.mapM fun slot => slot.bind Block.cstr) = some c.argv := by
    unfold Delivery.call? at hcall
    split at hcall
    · rename_i name args hargv
      cases hcall
      exact hargv
    · cases hcall
  simp only [serviceHandler, hargv, Option.bind_eq_bind, Option.bind_some]

/-- The worker does not come back from a request that cannot be read. -/
theorem serviceHandler_call_none (hcall : d.call? = none) (l : Answer × Answer)
    (replies : List Answer) : serviceHandler.serve l (p, replies) d = none := by
  unfold Delivery.call? at hcall
  cases hargv : d.argv.mapM fun slot => slot.bind Block.cstr with
  | none => simp [serviceHandler, hargv]
  | some argv =>
      cases argv with
      | nil =>
          simp only [serviceHandler, hargv, Option.bind_eq_bind, Option.bind_some]
          rfl
      | cons name args => simp [hargv] at hcall

/-- What a request does on a connection, unless it is a `COMMAND`: its own reply is queued, if its
size and that of what waits allow. -/
theorem connectionHandler_own (hp : p.Inv) (hcall : d.call? = some c) (hc : ¬ c.IsCommand) :
    ∃ reply t p' rest, p.tiers.serve p.cachingRegime (.of c.1 c.2) = some (reply, t) ∧
      p.Refines p' t ∧ ∀ (l : Answer × Answer) (o : Output),
        connectionHandler.serve l (p, o) d =
          ((Answer.bytes (shown reply).encode).rdAnswer?.bind fun rdAnswer =>
            o.step (.reply rdAnswer)).map fun o =>
              ((.of rest reply, .bytes (shown reply).encode), (p', o)) := by
  obtain ⟨reply, t, p', hserve, hrefines, rest, hreply⟩ := serve_own hp hc
  refine ⟨reply, t, p', rest, hserve, hrefines, fun l o => ?_⟩
  have hservice : serviceHandler.serve l (p, []) d = some
      ((.of rest reply, .bytes (shown reply).encode), (p', [.bytes (shown reply).encode])) := by
    rw [serviceHandler_call hcall, hreply]
    rfl
  simp only [connectionHandler, hservice, Option.bind_eq_bind, Option.bind_some]
  cases (Answer.bytes (shown reply).encode).rdAnswer? with
  | none => rfl
  | some rdAnswer =>
      cases hstep : o.step (.reply rdAnswer) with
      | none => simp [hstep]
      | some o' => simp [hstep]

/-- What a `COMMAND` does: the last result is turned into a reply again, and without one the worker
does not come back. -/
theorem connectionHandler_command (hcall : d.call? = some c) (hc : c.IsCommand) (o : Output) :
    (∀ rdAnswer, connectionHandler.serve (.null, rdAnswer) (p, o) d = none) ∧
      ∀ rest reply rdAnswer, connectionHandler.serve (.of rest reply, rdAnswer) (p, o) d =
        ((Answer.bytes (shown reply).encode).rdAnswer?.bind fun rdAnswer =>
          o.step (.reply rdAnswer)).map fun o =>
            ((.of rest reply, .bytes (shown reply).encode), (p, o)) := by
  have hprocess : ∀ pgAnswer, processRedisToPostgres .none p c.argv pgAnswer =
      some (0, pgAnswer, p) := fun pgAnswer => processRedisToPostgres_command hc c.2 pgAnswer
  constructor
  · intro rdAnswer
    have hservice : serviceHandler.serve (.null, rdAnswer) (p, []) d = none := by
      rw [serviceHandler_call hcall]
      simp only [Service.serve, hprocess, Option.bind_eq_bind, Option.bind_some]
      rfl
    simp only [connectionHandler, hservice, Option.bind_eq_bind, Option.bind_none]
  · intro rest reply rdAnswer
    have hservice : serviceHandler.serve (.of rest reply, rdAnswer) (p, []) d = some
        ((.of rest reply, .bytes (shown reply).encode), (p, [.bytes (shown reply).encode])) := by
      rw [serviceHandler_call hcall]
      simp only [Service.serve, hprocess, defineTypeReq_of, Option.bind_eq_bind, Option.bind_some]
      rfl
    simp only [connectionHandler, hservice, Option.bind_eq_bind, Option.bind_some]
    cases (Answer.bytes (shown reply).encode).rdAnswer? with
    | none => rfl
    | some rdAnswer =>
        cases hstep : o.step (.reply rdAnswer) with
        | none => simp [hstep]
        | some o' => simp [hstep]

end Serve

/-- The replies to one client after some more to another one, or to itself. -/
theorem Serial.repliesTo_of_answered {S : Type*} {z z' : Serial S} {i : Nat} {replies : List Reply}
    (h : z'.answered = z.answered ++ replies.map fun reply => (i, reply)) (j : Nat) :
    z'.repliesTo j = z.repliesTo j ++ if j = i then replies else [] := by
  by_cases hj : j = i
  · subst hj
    simp [Serial.repliesTo, h, List.filter_map, Function.comp_def]
  · have hne : ¬ i = j := Ne.symm hj
    simp [Serial.repliesTo, h, List.filter_map, Function.comp_def, hj, hne]

section Attempt

variable {p p' : Proxy} {o o' : Output} {l l' : Answer × Answer} {z : Serial Tiers}

/-- A request that the worker comes back from is executed as the next one in the order, and its
reply is queued. -/
theorem connectionHandler_serial (hp : p.Inv) (hz : p.tiers = z.store) (hlast : z.LastResult l.1)
    {d : Delivery} (hserve : connectionHandler.serve l (p, o) d = some (l', (p', o'))) (i : Nat) :
    ∃ z' reply, z.step (tiersStore p.cachingRegime) (.request i d) = some z' ∧
      z'.answered = z.answered ++ [(i, reply)] ∧ p.Refines p' z'.store ∧ z'.LastResult l'.1 ∧
      ∃ rdAnswer : RdAnswer,
        rdAnswer.bytes = reply.encode ∧ o.step (.reply rdAnswer) = some o' := by
  cases hcall : d.call? with
  | none =>
      simp [connectionHandler, serviceHandler_call_none hcall] at hserve
  | some c =>
      by_cases hc : c.IsCommand
      · obtain ⟨hnull, hrepeat⟩ := connectionHandler_command (p := p) hcall hc o
        obtain ⟨pgAnswer, rdAnswer⟩ := l
        rcases hlast with hnone | ⟨rest, reply, j, hresult, hanswered⟩
        · obtain rfl : pgAnswer = .null := hnone
          rw [hnull] at hserve
          cases hserve
        · obtain rfl : pgAnswer = .of rest reply := hresult
          rw [hrepeat, Option.map_eq_some_iff] at hserve
          obtain ⟨o'', hqueued, heq⟩ := hserve
          cases heq
          have hnone : z.store.serve p.cachingRegime (.of c.1 c.2) = none :=
            (Tiers.serve_eq_none_iff p.cachingRegime z.store c.1 c.2).mpr hc
          refine ⟨{ z with answered := z.answered ++ [(i, shown reply)] }, shown reply, ?_, rfl,
            hz ▸ .refl hp, ?_, queued_iff.mp hqueued⟩
          · simp [Serial.step, tiersStore, hcall, hnone, hanswered]
          · exact .inr ⟨rest, reply, i, rfl, by simp⟩
      · obtain ⟨reply, t, p₁, rest, hreply, hrefines, hown⟩ := connectionHandler_own hp hcall hc
        rw [hown, Option.map_eq_some_iff] at hserve
        obtain ⟨o'', hqueued, heq⟩ := hserve
        cases heq
        rw [hz] at hreply
        refine ⟨⟨t, z.answered ++ [(i, shown reply)]⟩, shown reply, ?_, rfl, hrefines, ?_,
          queued_iff.mp hqueued⟩
        · simp [Serial.step, tiersStore, hcall, hreply]
        · exact .inr ⟨rest, reply, i, rfl, by simp⟩

/-- The requests of a read event that the worker comes back from are executed one after the other,
and their replies are queued. -/
theorem attempt_serial (hp : p.Inv) (hz : p.tiers = z.store) (hlast : z.LastResult l.1)
    {ds : List Delivery}
    (hattempt : connectionHandler.attempt l (p, o) ds = (ds, some (l', (p', o')))) (i : Nat) :
    ∃ (z' : Serial Tiers) (replies : List Reply),
      z.run (tiersStore p.cachingRegime) (ds.map (.request i)) = some z' ∧
      z'.answered = z.answered ++ replies.map (fun reply => (i, reply)) ∧ p.Refines p' z'.store ∧
      ∃ rdAnswers : List RdAnswer, rdAnswers.map RdAnswer.bytes = replies.map Reply.encode ∧
        Machine.runFrom Output.step o (rdAnswers.map .reply) = some o' := by
  induction ds generalizing p o l z with
  | nil =>
      cases hattempt
      exact ⟨z, [], rfl, by simp, hz ▸ .refl hp, [], rfl, rfl⟩
  | cons d ds ih =>
      simp only [Handler.attempt] at hattempt
      cases hserve : connectionHandler.serve l (p, o) d with
      | none => simp [hserve] at hattempt
      | some next =>
          obtain ⟨l₁, p₁, o₁⟩ := next
          simp only [hserve, Prod.mk.injEq, List.cons.injEq, true_and] at hattempt
          obtain ⟨z₁, reply, hstep, hanswered, hrefines, hlast₁, rdAnswer, hbytes, hqueued⟩ :=
            connectionHandler_serial hp hz hlast hserve i
          obtain ⟨z₂, replies, hrun, hanswered₂, hrefines₂, rdAnswers, hbytes₂, hqueued₂⟩ :=
            ih hrefines.inv hrefines.tiers_eq hlast₁ (Prod.ext hattempt.1 hattempt.2)
          rw [hrefines.cachingRegime_eq] at hrun
          refine ⟨z₂, reply :: replies, ?_, ?_, hrefines.trans hrefines₂, rdAnswer :: rdAnswers, ?_,
            ?_⟩
          · exact Machine.runFrom_cons_eq_some.mpr ⟨z₁, hstep, hrun⟩
          · rw [hanswered₂, hanswered]
            simp
          · rw [List.map_cons, List.map_cons, hbytes, hbytes₂]
          · exact Machine.runFrom_cons_eq_some.mpr ⟨o₁, hqueued, hqueued₂⟩

end Attempt

/-- Queueing replies produces their bytes. -/
theorem queued_produced {o o' : Output} {rdAnswers : List RdAnswer}
    (h : Machine.runFrom Output.step o (rdAnswers.map .reply) = some o') :
    o'.produced = o.produced ++ rdAnswers.flatMap RdAnswer.bytes := by
  induction rdAnswers generalizing o with
  | nil =>
      cases h
      simp
  | cons rdAnswer rdAnswers ih =>
      obtain ⟨o₁, hstep, hrest⟩ := Machine.runFrom_cons_eq_some.mp h
      simp only [Output.step, Option.bind_eq_bind, Option.bind_eq_some_iff] at hstep
      obtain ⟨writeInfo, -, hstep⟩ := hstep
      cases hstep
      rw [ih hrest]
      simp

end PgRedisProxy
