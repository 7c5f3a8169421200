import PgRedisProxy.Reply.Pipelining
import PgRedisProxy.Socket.Serving
import PgRedisProxy.Store.Failures

/-!
# What is kept of keys and values

Arguments come with their length and are handed on as C strings, so that what follows
the first NUL of a key or a value is lost. `set_get_up_to_nul`, the main result, says
what a client reads back through the socket: the bytes of the value up to its first
NUL, and under keys that differ up to theirs, what was there before.
-/

namespace PgRedisProxy

open CLang KeyValue Resp

/-- `SET key value` -/
def setRequest (key value : List UInt8) : Request :=
  [ascii "SET", key, value]

/-- `GET key` -/
def getRequest (key : List UInt8) : Request :=
  [ascii "GET", key]

/-- A key that a client may use: not empty, and shorter than `KEY_SIZE - 1`. -/
def KeyBytes (key : List UInt8) : Prop :=
  key ≠ [] ∧ key.length < keySize - 1

/-- A value that a client may store: not empty, and shorter than `VALUE_SIZE - 1`. -/
def ValueBytes (value : List UInt8) : Prop :=
  value ≠ [] ∧ value.length < valueSize - 1

instance (key : List UInt8) : Decidable (KeyBytes key) :=
  inferInstanceAs (Decidable (_ ∧ _))

instance (value : List UInt8) : Decidable (ValueBytes value) :=
  inferInstanceAs (Decidable (_ ∧ _))

/-- The reply to a GET whose key has this value: a missing value and an empty one look the same. -/
def shownValue (value : Option CString) : Reply :=
  match value with
  | some value => shown (.bulk value.bytes)
  | none => .nil

/-- In any chunking, the requests are answered with these replies. -/
def Answers (c : Conn UInt8 (Proxy × List Answer)) (requests : List Request)
    (replies : List Reply) : Prop :=
  ∀ events, Reads events → events.flatten = requests.flatMap encodeRequest →
    (readEvents id serviceHandler c events).1 = .finished ∧
      (readEvents id serviceHandler c events).2.host.2 =
        c.host.2 ++ replies.map fun reply => .bytes reply.encode

/-! ## Sizes -/

theorem strlen_cut_le (argument : List UInt8) : (cut argument).strlen ≤ argument.length :=
  (List.takeWhile_prefix _).length_le

theorem ValueBytes.fits {value : List UInt8} (h : ValueBytes value) :
    valueFits (cut value) = true := by
  have hle := strlen_cut_le value
  have hlt := h.2
  simp only [valueFits, decide_eq_true_eq]
  omega

theorem KeyBytes.sendable {key : List UInt8} (h : KeyBytes key) : Sendable key :=
  ⟨h.1, lt_trans h.2 (by decide)⟩

theorem ValueBytes.sendable {value : List UInt8} (h : ValueBytes value) : Sendable value :=
  ⟨h.1, lt_trans h.2 (by decide)⟩

theorem getRequest_wellFormed {key : List UInt8} (h : KeyBytes key) :
    WellFormed (getRequest key) where
  ne_nil := List.cons_ne_nil _ _
  length_lt := (by decide : 2 < 2 ^ 31 - 1)
  sendable := by
    intro argument hargument
    rcases List.mem_cons.mp hargument with rfl | hkey
    · decide
    · rw [List.mem_singleton.mp hkey]
      exact h.sendable

theorem setRequest_wellFormed {key value : List UInt8} (hkey : KeyBytes key)
    (hvalue : ValueBytes value) : WellFormed (setRequest key value) where
  ne_nil := List.cons_ne_nil _ _
  length_lt := (by decide : 3 < 2 ^ 31 - 1)
  sendable := by
    intro argument hargument
    rcases List.mem_cons.mp hargument with rfl | hrest
    · decide
    · rcases List.mem_cons.mp hrest with rfl | hrest
      · exact hkey.sendable
      · rw [List.mem_singleton.mp hrest]
        exact hvalue.sendable

/-! ## One request -/

/-- A GET replies with what the view has. -/
theorem Tiers.shown_get {r : DumpStatus} {t : Tiers} (h : t.Coherent r) (key : CString) :
    shown (t.get r key).1.toReply = shownValue (t.view key) := by
  have hdb (hnone : t.cache key = none) :
      shown (GetReply.of (stored t.db key)).toReply = shownValue (t.view key) := by
    rw [view_of_cache_eq_none hnone, stored]
    cases t.db key with
    | none => rfl
    | some value =>
        by_cases hempty : value = CString.empty
        · simp [hempty, Option.filter, GetReply.of, GetReply.toReply, shown, shownValue]
        · simp [hempty, Option.filter, GetReply.of, GetReply.toReply, shownValue]
  unfold get
  by_cases hcache : r ≠ .noCache ∧ keyFits key = true
  · rw [if_pos hcache]
    cases hentry : t.cache key with
    | none => exact hdb hentry
    | some entry =>
        have hview : t.view key = entry := overlay_of_some hentry
        rw [hview]
        cases entry with
        | none => rfl
        | some value => rfl
  · rw [if_neg hcache]
    refine hdb (h.cache_eq_none _ ?_)
    by_cases hr : r = .noCache
    · exact .inl hr
    · exact .inr (by simpa [hr] using hcache)

section Served

variable {r : DumpStatus} {p : Proxy}

/-- A request other than `COMMAND` is served, whatever the locals of the read event are, and its
reply is queued. -/
theorem serviceHandler_served (hp : p.Sound r) {name : List UInt8} {args : List (List UInt8)}
    {reply : Reply} {t : Tiers}
    (hserve : p.tiers.serve r (.of (cut name) (args.map cut)) = some (reply, t))
    (ht : t.Coherent r) (replies : List Answer) :
    ∃ p', p'.Sound r ∧ p'.tiers = t ∧ ∀ l, ∃ l',
      serviceHandler.serve l (p, replies) (deliver (name :: args)) =
        some (l', (p', replies ++ [.bytes (shown reply).encode])) := by
  have hown : ¬ (commandOf name args).IsCommand := by
    intro hcommand
    have hnone := (Tiers.serve_eq_none_iff r p.tiers (cut name) (args.map cut)).mpr hcommand
    rw [hserve] at hnone
    cases hnone
  obtain ⟨reply', t', p', rest, hserve', hrefines, hreply⟩ := serviceHandler_own hp.inv hown
  rw [hp.cachingRegime_eq] at hserve'
  obtain ⟨rfl, rfl⟩ : reply = reply' ∧ t = t' := by
    have heq := hserve.symm.trans hserve'
    rw [Option.some.injEq, Prod.mk.injEq] at heq
    exact heq
  have hsound : p'.Sound r :=
    ⟨hrefines.inv, hrefines.cachingRegime_eq.trans hp.cachingRegime_eq, hrefines.tiers_eq ▸ ht⟩
  exact ⟨p', hsound, hrefines.tiers_eq, fun (pgAnswer, rdAnswer) =>
    ⟨(.of rest reply, .bytes (shown reply).encode), hreply pgAnswer rdAnswer replies⟩⟩

/-- A GET is answered with what the view has. -/
theorem getRequest_served (hp : p.Sound r) (key : List UInt8) (replies : List Answer) :
    ∃ p', serviceHandler.Serves (p, replies) [deliver (getRequest key)]
      (p', replies ++ [.bytes (shownValue (p.tiers.view (cut key))).encode]) := by
  have hserve : p.tiers.serve r (.of (cut (ascii "GET")) ([key].map cut)) =
      some ((p.tiers.get r (cut key)).1.toReply, (p.tiers.get r (cut key)).2) := rfl
  obtain ⟨p', -, -, hserved⟩ := serviceHandler_served hp hserve
    (Tiers.get_coherent hp.coherent (cut key)) replies
  rw [Tiers.shown_get hp.coherent] at hserved
  exact ⟨p', .cons hserved .nil⟩

/-- A SET whose value fits the cache is acknowledged, and changes the view of its key alone. -/
theorem setRequest_served (hp : p.Sound r) (key : List UInt8) {value : List UInt8}
    (hvalue : ValueBytes value) (replies : List Answer) :
    ∃ p', p'.Sound r ∧
      p'.tiers.view = applyWrite p.tiers.view (cut key, some (cut value)) ∧
      ∀ l, ∃ l', serviceHandler.serve l (p, replies) (deliver (setRequest key value)) =
        some (l', (p', replies ++ [.bytes (Reply.simple (ascii "OK")).encode])) := by
  have hserve : p.tiers.serve r (.of (cut (ascii "SET")) ([key, value].map cut)) =
      some (.simple (ascii "OK"), p.tiers.set r (cut key) (cut value)) := rfl
  obtain ⟨p', hp', htiers, hserved⟩ := serviceHandler_served hp hserve
    (Tiers.set_coherent hp.coherent (cut key) (cut value)) replies
  refine ⟨p', hp', ?_, hserved⟩
  rw [htiers]
  exact Tiers.view_set hp.coherent (.inr (.inr (.inl hvalue.fits)))

end Served

/-! ## Through the socket -/

/-- Replies that are queued when the requests are served are the answers to them. -/
theorem answers_of_serves {c : Conn UInt8 (Proxy × List Answer)} (hc : c.Ready)
    {requests : List Request} (hrequests : ∀ request ∈ requests, WellFormed request)
    {replies : List Reply} {p' : Proxy}
    (hserves : serviceHandler.Serves c.host (requests.map deliver)
      (p', c.host.2 ++ replies.map fun reply => .bytes reply.encode)) :
    Answers c requests replies := by
  intro events hreads hstream
  obtain ⟨hexit, hhost⟩ := readEvents_served hc hrequests hreads hstream hserves
  exact ⟨hexit, by rw [hhost]⟩

/-- From any state that requests and synchronizations reach, whatever failed in them, and on any
connection that waits for a request: a SET of a key and a value that fit the cache is acknowledged.
A GET of the key right after it is answered with the bytes of the value up to its first NUL, or as a
missing key if there are none. A GET of a key that differs from it up to the first NUL is answered
as without the SET. The replies are those produced in a read event. They reach what waits for the
client as long as fewer than `2 ^ 31` bytes wait with them. -/
theorem set_get_up_to_nul {r : DumpStatus} {db : Hstore} {history : List (Faults × Event)}
    {p : Proxy} (hrun : (Proxy.start r db).runWith history = some p)
    {c : Conn UInt8 (Proxy × List Answer)} (hc : c.Ready) (hhost : c.host.1 = p)
    {key other value : List UInt8} (hkey : KeyBytes key) (hother : KeyBytes other)
    (hne : cut other ≠ cut key) (hvalue : ValueBytes value) :
    Answers c [setRequest key value, getRequest key]
        [.simple (ascii "OK"), shownValue (some (cut value))] ∧
      ∃ reply, Answers c [getRequest other] [reply] ∧
        Answers c [setRequest key value, getRequest other] [.simple (ascii "OK"), reply] := by
  have hp := runWith_sound (Proxy.start_sound r db) hrun
  have hset := setRequest_wellFormed hkey hvalue
  have hstart : c.host = (p, c.host.2) := by rw [← hhost]
  obtain ⟨p₁, hp₁, hview, hserved⟩ := setRequest_served hp key hvalue c.host.2
  -- the SET and a GET of any key behind it
  have hpair {k : List UInt8} (hk : KeyBytes k) :
      Answers c [setRequest key value, getRequest k]
        [.simple (ascii "OK"), shownValue (p₁.tiers.view (cut k))] := by
    obtain ⟨p₂, hget⟩ := getRequest_served hp₁ k
      (c.host.2 ++ [.bytes (Reply.simple (ascii "OK")).encode])
    have hserves : serviceHandler.Serves c.host [deliver (setRequest key value),
        deliver (getRequest k)] (p₂, c.host.2 ++ [.bytes (Reply.simple (ascii "OK")).encode,
          .bytes (shownValue (p₁.tiers.view (cut k))).encode]) := by
      rw [hstart]
      rw [List.append_assoc] at hget
      exact .cons hserved hget
    refine answers_of_serves hc ?_ hserves
    intro request hrequest
    rcases List.mem_cons.mp hrequest with rfl | hrest
    · exact hset
    · rw [List.mem_singleton.mp hrest]
      exact getRequest_wellFormed hk
  refine ⟨?_, shownValue (p.tiers.view (cut other)), ?_, ?_⟩
  · have hsame : p₁.tiers.view (cut key) = some (cut value) := by
      rw [hview]
      exact Function.update_self _ _ _
    rw [← hsame]
    exact hpair hkey
  · obtain ⟨p₂, hget⟩ := getRequest_served hp other c.host.2
    rw [← hstart] at hget
    refine answers_of_serves hc ?_ hget
    intro request hrequest
    rw [List.mem_singleton.mp hrequest]
    exact getRequest_wellFormed hother
  · have hkept : p₁.tiers.view (cut other) = p.tiers.view (cut other) := by
      rw [hview]
      exact Function.update_of_ne hne _ _
    rw [← hkept]
    exact hpair hother

/-- A connection that was just accepted by a worker that was just started. -/
def freshConn (r : DumpStatus) : Conn UInt8 (Proxy × List Answer) :=
  Conn.accept (Proxy.start r fun _ => none, [])

/-- A value and two keys, one of them with a NUL. -/
theorem set_get_up_to_nul_small :
    Answers (freshConn .defferDump) [setRequest (ascii "k") (ascii "a"), getRequest (ascii "k")]
        [.simple (ascii "OK"), .bulk (ascii "a")] ∧
      ∃ reply, Answers (freshConn .defferDump) [getRequest [108, 0, 107]] [reply] ∧
        Answers (freshConn .defferDump)
          [setRequest (ascii "k") (ascii "a"), getRequest [108, 0, 107]]
          [.simple (ascii "OK"), reply] :=
  @set_get_up_to_nul .defferDump (fun _ => none) [] _ rfl (freshConn .defferDump)
    (Conn.accept_accepted _).ready rfl (ascii "k") [108, 0, 107] (ascii "a") (by decide) (by decide)
    (by decide) (by decide)

/-- Of the value `a`, NUL, `b`, a GET returns only `a`, and a key that differs behind a NUL gets the
value, too. -/
theorem nul_cuts_contents :
    ¬ Answers (freshConn .onlyCache)
        [setRequest (ascii "k") [97, 0, 98], getRequest (ascii "k")]
        [.simple (ascii "OK"), .bulk [97, 0, 98]] ∧
      ¬ ∃ reply, Answers (freshConn .onlyCache) [getRequest [107, 0, 98]] [reply] ∧
        Answers (freshConn .onlyCache)
          [setRequest [107, 0, 97] (ascii "a"), getRequest [107, 0, 98]]
          [.simple (ascii "OK"), reply] := by
  constructor
  · intro h
    obtain ⟨-, hreplies⟩ := h
      [encodeRequest (setRequest (ascii "k") [97, 0, 98]) ++ encodeRequest (getRequest (ascii "k"))]
      (by unfold Reads; decide +kernel) (by decide +kernel)
    have hbuffers := congrArg (List.map Answer.buffer) hreplies
    exact absurd hbuffers (by decide +kernel)
  · rintro ⟨reply, hwithout, hwith⟩
    obtain ⟨-, hbefore⟩ := hwithout [encodeRequest (getRequest [107, 0, 98])]
      (by unfold Reads; decide +kernel) (by decide +kernel)
    obtain ⟨-, hafter⟩ := hwith
      [encodeRequest (setRequest [107, 0, 97] (ascii "a")) ++
        encodeRequest (getRequest [107, 0, 98])]
      (by unfold Reads; decide +kernel) (by decide +kernel)
    have hsame := (congrArg (fun replies => replies.getLast?.map Answer.buffer) hbefore).trans
      (congrArg (fun replies => replies.getLast?.map Answer.buffer) hafter).symm
    exact absurd hsame (by decide +kernel)

end PgRedisProxy
