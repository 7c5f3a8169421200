import PgRedisProxy.Reply.Execution
import PgRedisProxy.Store.Coherence

/-!
# The caching regimes are transparent

`PlainMap` is what a client may think it talks to: a key/value map. As long as the
values in it are nonempty and every value that is set fits the cache, the commands
have the results of the plain map in each regime, with synchronizations anywhere
between them, exactly if the sizes of their statements and results are `int`s.
`Tiers.Shows` is the invariant, and `process_plainMap_iff` the result.
-/

namespace PgRedisProxy

open CLang KeyValue Resp

/-- A command of a client, or a synchronization between two commands. -/
inductive Turn where
  | get (key : Argument)
  | set (key : Argument) (value : CString)
  | del (keys : List Argument)
  | sync

/-- `process_get`, `process_set`, `process_del`, or `sync_with_db`. Only the first three set a
result. -/
def Proxy.process (D : Database) (p : Proxy) : Turn → Option (Option (Int × Answer) × Proxy)
  | .get key => (processGetOn D p key .null).map fun (rc, a, p) => (some (rc, a), p)
  | .set key value => (processSetOn D p key value .null).map fun (rc, a, p) => (some (rc, a), p)
  | .del keys => (processDelOn D p keys .null).map fun (rc, a, p) => (some (rc, a), p)
  | .sync => (syncWithDbOn D p).map fun (_, p) => (none, p)

/-- A sequence of commands and synchronizations, with the results of the commands. -/
def Proxy.processAll (D : Database) (p : Proxy) :
    List Turn → Option (List (Option (Int × Answer)) × Proxy)
  | [] => some ([], p)
  | c :: commands => do
      let (result, p) ← p.process D c
      let (results, p) ← p.processAll D commands
      some (result :: results, p)

namespace PlainMap

/-- The reply to a GET. -/
def get (m : Hstore) (key : CString) : Reply :=
  match m key with
  | some value => .bulk value.bytes
  | none => .nil

/-- What a command does to a plain map, and its reply. -/
def step (m : Hstore) : Turn → Option Reply × Hstore
  | .get key => (some (get m key.text), m)
  | .set key value => (some (.simple (ascii "OK")), applyWrite m (key.text, some value))
  | .del keys =>
      (some (.int (countPresent m (keys.map Argument.text))),
        eraseAll m (keys.map Argument.text))
  | .sync => (none, m)

/-- The replies of a plain map. -/
def replies (m : Hstore) : List Turn → List (Option Reply)
  | [] => []
  | c :: commands => (step m c).1 :: replies (step m c).2 commands

end PlainMap

/-- No key is empty, and a SET stores a nonempty value that fits the cache. -/
def Turn.Admissible : Turn → Prop
  | .get key => key.text ≠ CString.empty
  | .set key value => key.text ≠ CString.empty ∧ value ≠ CString.empty ∧ valueFits value = true
  | .del keys => ∀ key ∈ keys, key.text ≠ CString.empty
  | .sync => True

/-- The sizes of the statements for a command, and of the result of a GET of a map, are `int`s. -/
def Turn.Fits (m : Hstore) : Turn → Prop
  | .get key =>
      FitsInt (getValueText curTableName key.text) ∧
        ∀ value ∈ m key.text, value.strlen + 2 < 2 ^ 31
  | .set key value => FitsInt (setValueText curTableName key.text value)
  | .del keys => ∀ key ∈ keys, FitsInt (delValueText curTableName key.text)
  | .sync => True

/-- So they are of each command, for the map that it meets. -/
def AllFit (m : Hstore) : List Turn → Prop
  | [] => True
  | c :: commands => c.Fits m ∧ AllFit (PlainMap.step m c).2 commands

namespace Tiers

/-- The three maps show the client the map `m`, which has no empty values. Under `GET_CACHE` the
cache repeats the database. -/
structure Shows (r : DumpStatus) (t : Tiers) (m : Hstore) : Prop where
  coherent : t.Coherent r
  view_eq : t.view = m
  nonempty : ∀ k, m k ≠ some CString.empty
  cached_eq : r = .getCache → ∀ k w, t.cache k = some w → t.db k = w

section Shows

variable {r : DumpStatus} {t : Tiers} {m : Hstore} (h : t.Shows r m)
include h

theorem Shows.db_eq {key : CString} (hnone : t.cache key = none) : t.db key = m key := by
  rw [← view_of_cache_eq_none hnone, h.view_eq]

/-- A GET replies with the value in the map and leaves the map. -/
theorem Shows.get (key : CString) :
    (t.get r key).1.toReply = PlainMap.get m key ∧ (t.get r key).2.Shows r m := by
  have hreply : (t.get r key).1.toReply = PlainMap.get m key := by
    have hview : t.view key = m key := by rw [h.view_eq]
    unfold PlainMap.get
    cases hvalue : m key with
    | none =>
        rcases get_reply r t key with ⟨value, hreply⟩ | ⟨-, hnone⟩
        · have hres := get_of_view_eq_none h.coherent (hview.trans hvalue)
          rw [hreply] at hres
          cases hres
        · simp [GetReply.toReply, hnone]
    | some value =>
        have hne : value ≠ CString.empty := fun heq => h.nonempty key (by rw [hvalue, heq])
        rw [get_of_view_eq_some h.coherent (hview.trans hvalue) hne]
        rfl
  refine ⟨hreply, ?_⟩
  rcases get_cases r t key with hsame | ⟨hr, hkey, hnone, hfits, hfilled⟩
  · rwa [hsame]
  · have hdb : stored t.db key = m key := by
      rw [stored_eq, h.db_eq hnone]
      rw [h.db_eq hnone]
      exact h.nonempty key
    rw [hfilled]
    refine ⟨h.coherent.cacheWrite hr hkey hfits, ?_, h.nonempty, ?_⟩
    · rw [view_cacheWrite, h.view_eq, hdb, applyWrite, Function.update_eq_self]
    · intro hget k w hk
      by_cases hkey' : k = key
      · subst hkey'
        rw [cacheWrite_self, Option.some.injEq] at hk
        rw [← hk]
        exact (h.db_eq hnone).trans hdb.symm
      · rw [cacheWrite_of_ne _ hkey'] at hk
        exact h.cached_eq hget k w hk

/-- Under `GET_CACHE`, writing a key to the database and to the cache keeps them equal. -/
theorem Shows.dbWrite_cacheWrite {w : Write CString CString} (k : CString) (value : Option CString)
    (hr : r = .getCache) (hk : ((t.dbWrite w).cacheWrite w).cache k = some value) :
    ((t.dbWrite w).cacheWrite w).db k = value := by
  by_cases hkw : k = w.1
  · rw [hkw, cacheWrite_self, Option.some.injEq] at hk
    simp [Tiers.cacheWrite, Tiers.dbWrite, applyWrite, hkw, hk]
  · rw [cacheWrite_of_ne _ hkw] at hk
    simpa [Tiers.cacheWrite, Tiers.dbWrite, applyWrite, hkw] using h.cached_eq hr k value hk

/-- Under `GET_CACHE`, a write to the database of a key without an entry keeps them equal. -/
theorem Shows.dbWrite {w : Write CString CString} (hnone : t.cache w.1 = none) (k : CString)
    (value : Option CString) (hr : r = .getCache) (hk : t.cache k = some value) :
    (t.dbWrite w).db k = value := by
  have hkw : k ≠ w.1 := by
    rintro rfl
    rw [hnone] at hk
    cases hk
  simpa [Tiers.dbWrite, applyWrite, hkw] using h.cached_eq hr k value hk

/-- A SET stores its value in the map. -/
theorem Shows.set (key : CString) {value : CString} (hvalue : value ≠ CString.empty)
    (hfits : valueFits value = true) :
    (t.set r key value).Shows r (applyWrite m (key, some value)) where
  coherent := set_coherent h.coherent key value
  view_eq := by rw [view_set h.coherent (.inr (.inr (.inl hfits))), h.view_eq]
  nonempty := by
    intro k
    by_cases hk : k = key
    · simp [applyWrite, hk, hvalue]
    · simpa [applyWrite, hk] using h.nonempty k
  cached_eq := by
    intro hr k w hk
    subst hr
    by_cases hkey : keyFits key = true
    · simp only [Tiers.set, hkey, hfits, Bool.and_self, if_true] at hk ⊢
      exact h.dbWrite_cacheWrite k w rfl hk
    · simp only [Tiers.set, hkey, Bool.false_and] at hk ⊢
      have hnone := h.coherent.cache_eq_none key (.inr (by simpa using hkey))
      exact h.dbWrite hnone k w rfl hk

/-- A DEL of one key reports whether the map has it, and deletes it. -/
theorem Shows.del (key : CString) :
    (t.del r key).1 = deleted (m key).isSome ∧
      (t.del r key).2.Shows r (applyWrite m (key, none)) := by
  -- what the database reports is right where the cache knows nothing
  have hdirect : t.cache key = none → deleted (t.db key).isSome = deleted (m key).isSome :=
    fun hnone => by rw [h.db_eq hnone]
  have hbelow : (t.delBelow key).1 = deleted (m key).isSome := by
    unfold delBelow
    cases hentry : t.cache key with
    | none => exact hdirect hentry
    | some entry =>
        have hview : entry = m key := by rw [← h.view_eq, view, overlay_of_some hentry]
        rw [hview]
  constructor
  · unfold Tiers.del
    by_cases hkey : keyFits key = true
    · rw [if_pos hkey]
      cases r with
      | noCache => exact hdirect (h.coherent.cache_eq_none key (.inl rfl))
      | getCache =>
          cases hentry : t.cache key with
          | none => exact hdirect hentry
          | some entry =>
              have hview : entry = m key := by rw [← h.view_eq, view, overlay_of_some hentry]
              show deleted (t.db key).isSome = _
              rw [h.cached_eq rfl key entry hentry, hview]
      | onlyCache => exact hbelow
      | defferDump => exact hbelow
    · rw [if_neg hkey]
      exact hdirect (h.coherent.cache_eq_none key (.inr (by simpa using hkey)))
  · refine ⟨del_coherent h.coherent key, by rw [view_del h.coherent, h.view_eq], ?_, ?_⟩
    · intro k
      by_cases hk : k = key
      · simp [applyWrite, hk]
      · simpa [applyWrite, hk] using h.nonempty k
    · intro hr k w hk
      subst hr
      by_cases hkey : keyFits key = true
      · simp only [Tiers.del, hkey, if_true] at hk ⊢
        exact h.dbWrite_cacheWrite k w rfl hk
      · simp only [Tiers.del, hkey] at hk ⊢
        have hnone := h.coherent.cache_eq_none key (.inr (by simpa using hkey))
        exact h.dbWrite hnone k w rfl hk

/-- A DEL of several keys reports how many distinct ones the map has, and deletes them. -/
theorem Shows.delAll (keys : List CString) :
    (t.delAll r keys).1 = countPresent m keys ∧
      (t.delAll r keys).2.Shows r (eraseAll m keys) := by
  induction keys generalizing t m with
  | nil => exact ⟨rfl, h⟩
  | cons key keys ih =>
      obtain ⟨hres, hshows⟩ := h.del key
      obtain ⟨hcount, hshows'⟩ := ih hshows
      refine ⟨?_, hshows'⟩
      rw [countPresent_cons, ← hcount]
      simp only [Tiers.delAll, hres]
      cases (m key).isSome <;> simp [deleted]

theorem Shows.flush (hr : r = .defferDump) : t.flush.Shows r m where
  coherent := h.coherent.flush
  view_eq := by rw [view_flush h.coherent, h.view_eq]
  nonempty := h.nonempty
  cached_eq := by
    intro hr'
    rw [hr] at hr'
    cases hr'

end Shows

end Tiers

/-- The result that stands for a reply, with the return code of success. -/
def replied (reply : Option Reply) : Option (Int × Answer) :=
  reply.map fun reply => (0, .of [] reply)

section Process

variable {p : Proxy} (hp : p.Inv) {m : Hstore} (h : p.tiers.Shows p.cachingRegime m) {c : Turn}
  (hc : c.Admissible)

/-- A key can be sent to a database that takes all of them. -/
theorem sendable_del {key : Argument} (hne : key.text ≠ CString.empty)
    (hfits : FitsInt (delValueText curTableName key.text)) :
    (Event.del key.text).Sendable fun _ => True :=
  ⟨hne, trivial, hfits⟩

include hp

section Shows

include h

/-- The result of a GET has the size of the value in the map. -/
theorem reqGet_fitsInt_iff (key : CString) :
    (reqGet .none p key).1.FitsInt ↔ ∀ value ∈ m key, value.strlen + 2 < 2 ^ 31 := by
  have hreply : (reqGet .none p key).1.toReply = PlainMap.get m key := by
    rw [(reqGet_refines hp key).1]
    exact (h.get key).1
  unfold GetReply.FitsInt
  unfold GetReply.toReply PlainMap.get at hreply
  cases hvalue : (reqGet .none p key).1.value with
  | none =>
      rw [hvalue] at hreply
      cases hm : m key with
      | none => simp
      | some v => simp [hm] at hreply
  | some value =>
      rw [hvalue] at hreply
      cases hm : m key with
      | none => simp [hm] at hreply
      | some v =>
          simp only [hm, Reply.bulk.injEq] at hreply
          simp [CString.strlen, hreply]

/-- One command on the worker is one step of the plain map, if the sizes are `int`s. -/
theorem process_of_fits (hc : c.Admissible) (hfits : c.Fits m) :
    ∃ p', p.process .intended c = some (replied (PlainMap.step m c).1, p') ∧ p'.Inv ∧
      p'.cachingRegime = p.cachingRegime ∧
      p'.tiers.Shows p'.cachingRegime (PlainMap.step m c).2 := by
  have hD := Database.intended_intends fun _ => True
  have hwaits : p.Waits fun _ => True := fun w _ => ⟨trivial, fun _ _ => trivial⟩
  cases c with
  | get key =>
      obtain ⟨p', hget, hrefines⟩ := processGet_refines hp key.text
      obtain ⟨hreply, hshows⟩ := h.get key.text
      have hsend : (Event.get key.text).Sendable fun _ => True := ⟨hc, trivial, hfits.1⟩
      have hresult := processGetOn_intended hD hp hsend .null
      rw [if_pos ((reqGet_fitsInt_iff hp h key.text).mpr hfits.2), hget] at hresult
      refine ⟨p', ?_, hrefines.inv, hrefines.cachingRegime_eq, ?_⟩
      · simp [Proxy.process, hresult, hreply, PlainMap.step, replied]
      · rwa [hrefines.cachingRegime_eq, hrefines.tiers_eq]
  | set key value =>
      obtain ⟨p', hset, hrefines⟩ := processSet_refines hp key.text value
      obtain ⟨hne, hvalue, hvalueFits⟩ := hc
      have hsend : (Event.set key.text value).Sendable fun _ => True :=
        ⟨hne, ⟨trivial, trivial⟩, hfits⟩
      have hresult : processSetOn .intended p key value .null =
          processSet .none p key.text value .null := by
        simp only [processSetOn, processSet, reqSetOn_intended hD hp hwaits hsend]
      refine ⟨p', ?_, hrefines.inv, hrefines.cachingRegime_eq, ?_⟩
      · simp [Proxy.process, hresult, hset .null, replied, PlainMap.step]
      · rw [hrefines.cachingRegime_eq, hrefines.tiers_eq]
        exact h.set key.text hvalue hvalueFits
  | del keys =>
      obtain ⟨p', hdel, hrefines⟩ := processDel_refines hp (keys.map Argument.text)
      obtain ⟨hcount, hshows⟩ := h.delAll (keys.map Argument.text)
      have hresult : processDelOn .intended p keys .null =
          processDel .none p (keys.map Argument.text) .null := by
        have hkeys := delKeysOn_intended hD hp hwaits
          (fun key hkey => sendable_del (hc key hkey) (hfits key hkey)) 0
        simp only [processDelOn, processDel, hkeys]
      refine ⟨p', ?_, hrefines.inv, hrefines.cachingRegime_eq, ?_⟩
      · simp [Proxy.process, hresult, hdel .null, replied, PlainMap.step, hcount]
      · rwa [hrefines.cachingRegime_eq, hrefines.tiers_eq]
  | sync =>
      have hresult : syncWithDbOn .intended p = syncWithDb .none p :=
        syncWithDbOn_intended hD hwaits
      by_cases hr : p.cachingRegime = .defferDump
      · obtain ⟨p', hsync, hrefines⟩ := syncWithDb_refines hp hr
        refine ⟨p', ?_, hrefines.inv, hrefines.cachingRegime_eq, ?_⟩
        · simp [Proxy.process, hresult, hsync, replied, PlainMap.step]
        · rw [hrefines.cachingRegime_eq, hrefines.tiers_eq]
          exact h.flush hr
      · have hlogger := hp.logger_eq_none hr
        refine ⟨p, ?_, hp, rfl, h⟩
        simp [Proxy.process, hresult, syncWithDb, hlogger, replied, PlainMap.step]

end Shows

/-- A DEL with a statement that is too long does not come back. -/
theorem delKeysOn_of_not_fitsInt {D : Database} {keys : List Argument} {key : Argument}
    (hkey : key ∈ keys) (htext : ¬ FitsInt (delValueText curTableName key.text)) (n : Nat) :
    delKeysOn D p n keys = none := by
  induction keys generalizing p n with
  | nil => cases hkey
  | cons first keys ih =>
      simp only [delKeysOn, Option.bind_eq_bind]
      rcases List.mem_cons.mp hkey with rfl | hkey
      · rw [reqDelOn_of_not_fitsInt htext]
        rfl
      · cases hdel : reqDelOn D p first with
        | none => rfl
        | some a =>
            obtain ⟨hkeeps, present, hres⟩ := reqDelOn_keeps hp hdel
            have hne : a.1 ≠ .errReq := by
              rw [hres]
              exact Tiers.deleted_ne_errReq present
            simp only [Option.bind_some, hne, if_false, ih hkeeps.inv hkey]

include h

/-- A command whose statement or result has a size that is no `int` does not come back. -/
theorem process_of_not_fits (hc : c.Admissible) (hfits : ¬ c.Fits m) :
    p.process .intended c = none := by
  cases c with
  | get key =>
      by_cases htext : FitsInt (getValueText curTableName key.text)
      · have hsend : (Event.get key.text).Sendable fun _ => True := ⟨hc, trivial, htext⟩
        have hresult :=
          processGetOn_intended (Database.intended_intends fun _ => True) hp hsend .null
        have hlarge : ¬ (reqGet .none p key.text).1.FitsInt :=
          fun hsize => hfits ⟨htext, (reqGet_fitsInt_iff hp h key.text).mp hsize⟩
        rw [if_neg hlarge] at hresult
        simp [Proxy.process, hresult]
      · simp [Proxy.process, processGetOn, reqGetOn_of_not_fitsInt htext]
  | set key value => simp [Proxy.process, processSetOn, reqSetOn_of_not_fitsInt hc.2.2 hfits]
  | del keys =>
      have hlarge : ∃ key ∈ keys, ¬ FitsInt (delValueText curTableName key.text) := by
        simpa [Turn.Fits] using hfits
      obtain ⟨key, hkey, htext⟩ := hlarge
      simp [Proxy.process, processDelOn, delKeysOn_of_not_fitsInt hp hkey htext]
  | sync => exact absurd trivial hfits

end Process

/-- In each regime, from any database without empty values, a sequence of commands whose SETs store
nonempty values that fit the cache has the results of a plain map, wherever the log is synchronized,
exactly if the sizes of all statements and results are `int`s. -/
theorem process_plainMap_iff (r : DumpStatus) {db : Hstore} (hdb : ∀ k, db k ≠ some CString.empty)
    {commands : List Turn} (hcommands : ∀ c ∈ commands, c.Admissible) :
    (∃ p, (Proxy.start r db).processAll .intended commands =
      some ((PlainMap.replies db commands).map replied, p)) ↔ AllFit db commands := by
  have hrun : ∀ (p : Proxy) (m : Hstore), p.Inv → p.tiers.Shows p.cachingRegime m →
      ((∃ p', p.processAll .intended commands =
        some ((PlainMap.replies m commands).map replied, p')) ↔ AllFit m commands) := by
    induction commands with
    | nil => exact fun p m _ _ => iff_of_true ⟨p, rfl⟩ trivial
    | cons c commands ih =>
        intro p m hp hshows
        have hc := hcommands c List.mem_cons_self
        by_cases hfits : c.Fits m
        · obtain ⟨p₁, hstep, hinv, -, hshows₁⟩ := process_of_fits hp hshows hc hfits
          have hrest := ih (fun c' hc' => hcommands c' (List.mem_cons_of_mem _ hc')) p₁ _ hinv
            hshows₁
          simp only [AllFit, hfits, true_and, ← hrest, Proxy.processAll, hstep,
            Option.bind_eq_bind, Option.bind_some, PlainMap.replies, List.map_cons]
          constructor
          · rintro ⟨p', hall⟩
            obtain ⟨⟨results, p₂⟩, hall', heq⟩ := Option.bind_eq_some_iff.mp hall
            cases heq
            exact ⟨p₂, hall'⟩
          · rintro ⟨p', hall⟩
            exact ⟨p', by rw [hall]; rfl⟩
        · have hnone := process_of_not_fits hp hshows hc hfits
          refine iff_of_false ?_ fun hall => hfits hall.1
          rintro ⟨p', hall⟩
          simp [Proxy.processAll, hnone] at hall
  refine hrun _ db (Proxy.start_inv r db) ?_
  rw [Proxy.start_cachingRegime, Proxy.start_tiers]
  exact ⟨Tiers.start_coherent r db, rfl, hdb, by simp [Tiers.start]⟩

/-- A run with a DEL of the same key twice. -/
theorem process_plainMap_del :
    ∃ p, (Proxy.start .onlyCache fun _ => none).processAll .intended
        [.set ⟨sampleKey, []⟩ smallValue, .del [⟨sampleKey, []⟩, ⟨sampleKey, []⟩],
          .get ⟨sampleKey, []⟩] =
      some ((PlainMap.replies (fun _ => none)
        [.set ⟨sampleKey, []⟩ smallValue, .del [⟨sampleKey, []⟩, ⟨sampleKey, []⟩],
          .get ⟨sampleKey, []⟩]).map replied, p) := by
  refine (process_plainMap_iff .onlyCache (by simp) ?_).mpr ?_
  · have hne : sampleKey ≠ CString.empty := by decide
    intro c hc
    simp only [List.mem_cons, List.not_mem_nil, or_false] at hc
    rcases hc with rfl | rfl | rfl
    · exact ⟨hne, by decide, by decide⟩
    · simpa [Turn.Admissible] using hne
    · exact hne
  · have hset : FitsInt (setValueText curTableName sampleKey smallValue) := by decide
    have hdel : FitsInt (delValueText curTableName sampleKey) := by decide
    have hget : FitsInt (getValueText curTableName sampleKey) := by decide
    have herased : eraseAll (applyWrite (fun _ => none) (sampleKey, some smallValue))
        [sampleKey, sampleKey] sampleKey = none := by decide
    refine ⟨hset, by simpa [Turn.Fits] using hdel, ⟨hget, ?_⟩, trivial⟩
    intro value hvalue
    rw [show PlainMap.step _ _ = (_, _) from rfl] at hvalue
    exact absurd (herased.symm.trans hvalue) (by simp)

/-- A key of `n` bytes. -/
def keyOfSize (n : Nat) : CString where
  bytes := List.replicate n 107
  noNul := fun h => absurd (List.eq_of_mem_replicate h) (by decide)

/-- The size of the SELECT for this key is 2^31, and a GET of it has no result. -/
theorem process_longKey :
    ¬ ∃ p, (Proxy.start .getCache fun _ => none).processAll .intended
        [.get ⟨keyOfSize (2 ^ 31 - 26), []⟩] =
      some ((PlainMap.replies (fun _ => none)
        [.get ⟨keyOfSize (2 ^ 31 - 26), []⟩]).map replied, p) := by
  have hsize : ∀ n, (keyOfSize n).strlen = n := fun n => List.length_replicate
  have hlong : ¬ FitsInt (getValueText curTableName (keyOfSize (2 ^ 31 - 26))) := by
    rw [FitsInt, length_getValueText, hsize]
    decide
  rintro ⟨p, hall⟩
  have hget : reqGetOn .intended (Proxy.start .getCache fun _ => none)
      ⟨keyOfSize (2 ^ 31 - 26), []⟩ = none := reqGetOn_of_not_fitsInt hlong
  rw [Proxy.processAll, Proxy.process, processGetOn, hget] at hall
  cases hall

end PgRedisProxy
