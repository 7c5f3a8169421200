import PgRedisProxy.Store.Execution

/-!
# Statements with the effects they are meant to have

`Database.Intends` says of a database that its statements have these effects, for some keys
and values, and `Documented.intends` that PostgreSQL has them for the ones that are legal
and without a quote. Over such a database a request whose key is not empty and whose
statements can be formatted is what `reqGet`, `reqSet`, and `reqDel` say.
-/

namespace PgRedisProxy

open CLang KeyValue SqlText

/-- Every statement has the effect it is meant to have. libpq returns a missing value as the empty
string. -/
def Database.intended : Database where
  select := fun key row => some ((row key).getD CString.empty, row)
  update := fun key value row => some (applyWrite row (key, some value))
  exist := fun key row => some ((row key).isSome, row)
  delete := fun key row => some (applyWrite row (key, none))
  transaction := fun es row => some (replay row (es.map LogEntry.toWrite))

/-- `PGRES_TUPLES_OK`, with the value. -/
def PqResult.tuple? : PqResult → Option CString
  | .value text => some text
  | .commandOk => none

/-- PostgreSQL, which is sent the texts. -/
def Database.ofPostgres (pg : Postgres) : Database where
  select := fun key row => do
    let (result, row) ← pg.query quote semicolon (getValueText curTableName key) row
    let text ← result.tuple?
    some (text, row)
  update := fun key value row => do
    let (result, row) ← pg.query quote semicolon (setValueText curTableName key value) row
    if result = .commandOk then some row else none
  exist := fun key row => do
    let (result, row) ← pg.query quote semicolon (findText curTableName key) row
    let text ← result.tuple?
    some (decide (text.bytes ≠ ascii "f"), row)
  delete := fun key row => do
    let (result, row) ← pg.query quote semicolon (delValueText curTableName key) row
    if result = .commandOk then some row else none
  transaction := fun es row => do
    let (result, row) ← pg.query quote semicolon (transactionText es) row
    if result = .commandOk then some row else none

/-- The statements have the effects they are meant to have, for keys and values that are `Q`. -/
structure Database.Intends (D : Database) (Q : CString → Prop) : Prop where
  select : ∀ {key}, Q key → ∀ row, D.select key row = Database.intended.select key row
  update : ∀ {key value}, Q key → Q value → ∀ row,
    D.update key value row = Database.intended.update key value row
  exist : ∀ {key}, Q key → ∀ row, D.exist key row = Database.intended.exist key row
  delete : ∀ {key}, Q key → ∀ row, D.delete key row = Database.intended.delete key row
  transaction : ∀ {es : List LogEntry}, (∀ e ∈ es, Q e.key ∧ ∀ value ∈ e.value, Q value) → ∀ row,
    D.transaction es row = Database.intended.transaction es row

theorem Database.intended_intends (Q : CString → Prop) : Database.intended.Intends Q where
  select := fun _ _ => rfl
  update := fun _ _ _ => rfl
  exist := fun _ _ => rfl
  delete := fun _ _ => rfl
  transaction := fun _ _ => rfl

theorem flagText_ne (flag : Bool) : decide ((flagText flag).bytes ≠ ascii "f") = flag := by
  cases flag <;> decide

/-- PostgreSQL has the effects meant for what a literal can hold. -/
theorem Documented.intends {pg : Postgres} {Legal : CString → Prop} (hpg : Documented pg Legal) :
    (Database.ofPostgres pg).Intends (Quotable Legal) where
  select := fun hkey row => by
    simp [Database.ofPostgres, Database.intended, getValue_query hpg hkey row, PqResult.tuple?]
  update := fun hkey hvalue row => by
    simp [Database.ofPostgres, Database.intended, setValue_query hpg hkey hvalue row]
  exist := fun hkey row => by
    simp only [Database.ofPostgres, find_query hpg hkey row, PqResult.tuple?,
      Option.bind_eq_bind, Option.bind_some, flagText_ne]
    rfl
  delete := fun hkey row => by
    simp [Database.ofPostgres, Database.intended, delValue_query hpg hkey row]
  transaction := fun hes row => by
    simp [Database.ofPostgres, Database.intended, transaction_query hpg hes row]

/-- The request can be sent: the key and the value are `Q`, the key is not empty, and the sizes of
the statements for them are `int`s. -/
def Event.Sendable (Q : CString → Prop) : Event → Prop
  | .get key => key ≠ CString.empty ∧ Q key ∧ FitsInt (getValueText curTableName key)
  | .set key value =>
      key ≠ CString.empty ∧ (Q key ∧ Q value) ∧ FitsInt (setValueText curTableName key value)
  | .del key => key ≠ CString.empty ∧ Q key ∧ FitsInt (delValueText curTableName key)
  | .sync => True

/-- The length of the value is an `int`, so that it can come in a result of libpq. -/
def GetReply.Received (r : GetReply) : Prop :=
  ∀ value ∈ r.value, value.strlen < 2 ^ 31

instance (r : GetReply) : Decidable r.Received :=
  inferInstanceAs (Decidable (∀ value ∈ r.value, _))

/-- What waits in the log is `Q`. -/
def Proxy.Waits (Q : CString → Prop) (p : Proxy) : Prop :=
  ∀ w ∈ p.tiers.pending, Q w.1 ∧ ∀ value ∈ w.2, Q value

theorem Event.Sendable.update {Q : CString → Prop} {e : Event} (he : e.Sendable Q) :
    ∀ w ∈ e.update?, Q w.1 ∧ ∀ value ∈ w.2, Q value := by
  intro w hw
  cases e with
  | get key => cases hw
  | set key value =>
      cases hw
      exact ⟨he.2.1.1, by simpa using he.2.1.2⟩
  | del key =>
      cases hw
      exact ⟨he.2.1, by simp⟩
  | sync => cases hw

/-- What waits in the log stays `Q` behind events that can be sent. -/
theorem Proxy.Waits.after {Q : CString → Prop} {p p' : Proxy} (hwaits : p.Waits Q)
    {events : List Event} (hevents : ∀ e ∈ events, e.Sendable Q)
    (hrefines : p.Refines p' (p.tiers.after p.cachingRegime events)) : p'.Waits Q := by
  unfold Proxy.Waits
  rw [hrefines.tiers_eq]
  exact Tiers.after_pending_mem (fun e he => (hevents e he).update) hwaits

section Intended

variable {D : Database} {Q : CString → Prop} (hD : D.Intends Q) {p : Proxy} {key : Argument}
  {value : CString}

/-- A key that fits the cache is copied with what is its own. -/
theorem setHashTableOn_eq (hne : key.text ≠ CString.empty) (hfits : keyFits key.text = true)
    (t : Htab) (stored : Option CString) (st : UInt8) :
    setHashTableOn t key stored st = some (setHashTable t key.text stored st) := by
  have hcell : key.strlenNext ≤ dataSize := by
    rw [strlenNext_eq hne]
    have hlt : key.text.strlen + 1 < keySize := by simpa [keyFits] using hfits
    simp only [CString.strlen, keySize] at hlt
    rw [List.length_tail, dataSize]
    omega
  unfold setHashTableOn setHashTable
  rw [if_pos hcell]
  congr 2
  funext c
  exact c.fillFrom_eq_fill hne key.behind stored st

include hD

theorem getValueOn_intended {k : CString} (hk : Q k)
    (hfits : FitsInt (getValueText curTableName k)) (db : Hstore) :
    getValueOn D db k =
      if (getValue false db k).Received then some (getValue false db k, db) else none := by
  have hstored : (some ((db k).getD CString.empty)).filter (· ≠ CString.empty) = stored db k := by
    unfold stored
    cases db k with
    | none => simp [Option.filter]
    | some text => rfl
  rw [getValueOn_eq, if_pos hfits, Database.fetch, hD.select hk, getValue_eq]
  simp only [Database.intended, Option.filter_some, decide_eq_true_eq]
  have hreceived : (GetReply.of (stored db k)).Received ↔
      ((db k).getD CString.empty).strlen < 2 ^ 31 := by
    rw [← hstored]
    by_cases htext : (db k).getD CString.empty = CString.empty
    · have hempty : CString.empty.strlen = 0 := rfl
      simp [GetReply.Received, GetReply.of, htext, Option.filter, hempty]
    · simp [GetReply.Received, GetReply.of, htext, Option.filter]
  by_cases hlength : ((db k).getD CString.empty).strlen < 2 ^ 31
  · rw [if_pos hlength, if_pos (hreceived.mpr hlength), Option.map_some, GetReply.ofText, hstored]
  · rw [if_neg hlength, if_neg (mt hreceived.mp hlength), Option.map_none]

theorem setValueOn_intended {k : CString} (hk : Q k) (hvalue : Q value)
    (hfits : FitsInt (setValueText curTableName k value)) (db : Hstore) :
    setValueOn D db k value = some (setValue false db k value) := by
  rw [setValueOn_eq, if_pos hfits, hD.update hk hvalue]
  rfl

theorem delValueOn_intended {k : CString} (hk : Q k)
    (hfits : FitsInt (delValueText curTableName k)) (db : Hstore) :
    delValueOn D db k = some (delValue false db k) := by
  rw [delValueOn_eq, if_pos hfits, delValue_eq, Database.remove, hD.exist hk]
  simp only [Database.intended, Option.bind_some]
  cases hvalue : db k with
  | none =>
      have hsame : applyWrite db (k, none) = db := by
        rw [applyWrite, ← hvalue, Function.update_eq_self]
      simp [hsame, Tiers.deleted]
  | some stored =>
      rw [hD.delete hk]
      rfl

theorem syncWithDbOn_intended (hwaits : p.Waits Q) : syncWithDbOn D p = syncWithDb .none p := by
  unfold syncWithDbOn syncWithDb
  cases hlg : p.logger with
  | none => rfl
  | some lg =>
      have hpending : p.tiers.pending = lg.pending := by simp [Proxy.tiers, hlg]
      have hwrites : lg.entries.map LogEntry.toWrite = lg.pending := by
        rw [Logger.entries, List.map_map, Logger.pending]
        exact congrArg (List.map · _) (funext Operation.toWrite_entry)
      have hentries : ∀ e ∈ lg.entries, Q e.key ∧ ∀ v ∈ e.value, Q v := fun e he =>
        hwaits e.toWrite (by rw [hpending, ← hwrites]; exact List.mem_map_of_mem he)
      simp only [hD.transaction hentries, Database.intended, hwrites, Option.bind_eq_bind,
        Option.bind_some, Faults.none, Bool.false_eq_true, if_false]

omit hD in
theorem Proxy.Waits.with_maps (hwaits : p.Waits Q) (db : Hstore) (hashes : Htab) :
    Proxy.Waits Q { p with db := db, hashes := hashes } :=
  hwaits

theorem addLogOn_intended (hp : p.Inv) (hwaits : p.Waits Q) {k : CString} {stored : Option CString}
    (hk : Q k) (hstored : ∀ v ∈ stored, Q v) (hkey : k.strlen < keySize)
    (hvalue : ∀ v ∈ stored, v.strlen < valueSize) :
    addLogOn D p (Logger.nameOf stored) k stored =
      addLog .none p (Logger.nameOf stored) k stored := by
  unfold addLogOn addLog
  cases hlg : p.logger with
  | none => rfl
  | some lg =>
      obtain ⟨lg', happend, -, hlogged⟩ := Logger.append_spec (hp.logger_inv lg hlg) hkey hvalue
      have hwaits' : Proxy.Waits Q { p with logger := some lg' } := by
        have hpending : p.tiers.pending = lg.pending := by simp [Proxy.tiers, hlg]
        have hpending' : (Proxy.tiers { p with logger := some lg' }).pending =
            p.tiers.pending ++ [(k, stored)] := by
          rw [hpending, ← hlogged]
          rfl
        intro w hw
        rw [hpending', List.mem_append, List.mem_singleton] at hw
        rcases hw with hold | rfl
        · exact hwaits w hold
        · exact ⟨hk, hstored⟩
      simp only [Faults.none, happend]
      split
      · exact syncWithDbOn_intended hD hwaits'
      · rfl

/-- A GET is the one with the effects meant, if the length of the value is an `int`. -/
theorem reqGetOn_intended (hkey : (Event.get key.text).Sendable Q) :
    reqGetOn D p key =
      if (reqGet .none p key.text).1.Received then some (reqGet .none p key.text) else none := by
  obtain ⟨hne, hk, hfits⟩ := hkey
  have hget : getValueOn D p.db key.text =
      if (getValue Faults.none.sql p.db key.text).Received then
        some (getValue Faults.none.sql p.db key.text, p.db)
      else none := getValueOn_intended hD hk hfits p.db
  have hc : p.cachingRegime ≠ .noCache ∧ keyFits key.text = true → p.caches key.text = true := by
    rintro ⟨hr, hkey⟩
    simp [Proxy.caches, hr, hkey]
  rcases reqGet_cases .none p key.text with ⟨hdirect, heq⟩ | ⟨hcaches, hcases⟩
  · rw [reqGetOn_direct (Proxy.not_caches_iff.mpr hdirect), hget, heq]
    split <;> rfl
  have hset := setHashTableOn_eq hne hcaches.2 p.hashes
  rcases hcases with ⟨value, hentry, heq⟩ | ⟨hentry, heq⟩ | ⟨hentry, hcases⟩
  · have hlt := cached_strlen hentry
    have hreceived : (reqGet .none p key.text).1.Received := by
      rw [heq]
      intro v hv
      cases hv
      simp only [dataSize] at hlt
      omega
    rw [reqGetOn_known (hc hcaches) hentry, if_pos hreceived, heq]
    rfl
  · rw [reqGetOn_known (hc hcaches) hentry, heq]
    rfl
  · -- the reply is that of `get_value` then, and what the cache takes of it differs
    rw [reqGetOn_asks (hc hcaches) hentry, hget]
    rcases hcases with ⟨hres, heq⟩ | ⟨value, hvalue, hvalueFits, heq⟩ | ⟨⟨hres, hlarge⟩, heq⟩
    · have hnone : (getValue Faults.none.sql p.db key.text).value = none := by
        rcases getValue_cases Faults.none.sql p.db key.text with ⟨-, hv⟩ | ⟨-, hv⟩ | ⟨v, -, hv⟩
        · rw [hv]
        · rw [hv]
        · rw [hv] at hres
          cases hres
      rw [heq]
      split
      · simp [hnone, hset]
      · rfl
    · rw [heq, hvalue]
      split
      · simp [hvalueFits, hset]
      · rfl
    · have hall : (getValue Faults.none.sql p.db key.text).value.all valueFits = false := by
        rcases getValue_cases Faults.none.sql p.db key.text with ⟨herr, -⟩ | ⟨-, hv⟩ | ⟨v, -, hv⟩
        · cases herr
        · rw [hv] at hres
          exact absurd rfl hres
        · rw [hv]
          exact hlarge v (by rw [hv])
      rw [heq]
      split
      · simp [hall]
      · rfl

/-- A SET is the one with the effects meant. -/
theorem reqSetOn_intended (hp : p.Inv) (hwaits : p.Waits Q)
    (hw : (Event.set key.text value).Sendable Q) :
    reqSetOn D p key value = reqSet .none p key.text value := by
  obtain ⟨hne, ⟨hk, hv⟩, hfits⟩ := hw
  have hset : setValueOn D p.db key.text value =
      some (setValue Faults.none.sql p.db key.text value) :=
    setValueOn_intended hD hk hv hfits p.db
  rcases reqSet_cases .none p key.text value with ⟨hdirect, heq⟩ | ⟨hfitIn, hregimes⟩
  · have hc : (p.caches key.text && valueFits value) = false := by
      rw [Proxy.caches, Bool.and_assoc, Bool.and_eq_false_iff]
      simpa using hdirect
    rw [reqSetOn_direct hc, hset, heq]
    rfl
  · obtain ⟨hkey, hvalue⟩ := Bool.and_eq_true_iff.mp hfitIn
    have hhashes := setHashTableOn_eq hne hkey p.hashes (some value) 0
    have hc : p.cachingRegime ≠ .noCache → (p.caches key.text && valueFits value) = true := by
      intro hr
      simp [Proxy.caches, hr, hkey, hvalue]
    rcases hregimes with ⟨hr, ⟨herr, -⟩ | ⟨-, heq⟩⟩ | ⟨hr, heq⟩ | ⟨hr, heq⟩
    · cases herr
    · rw [reqSetOn_getCache (hc (by simp [hr])) hr, hset, hhashes, heq]
      rfl
    · rw [reqSetOn_onlyCache (hc (by simp [hr])) hr, hhashes, heq]
      rfl
    · simp only [keyFits, valueFits, decide_eq_true_eq] at hkey hvalue
      have hlog : addLogOn D { p with hashes := setHashTable p.hashes key.text (some value) 0 } .set
          key.text (some value) = _ :=
        addLogOn_intended hD (hp.with_maps p.db _) (hwaits.with_maps p.db _) hk
          (fun v h => Option.some.inj h ▸ hv) (by omega) (fun v h => by cases h; omega)
      rw [reqSetOn_deffer (hc (by simp [hr])) hr, hhashes, heq, Option.bind_some, hlog]
      rfl

/-- A DEL of one key is the one with the effects meant. -/
theorem reqDelOn_intended (hp : p.Inv) (hwaits : p.Waits Q)
    (hkey : (Event.del key.text).Sendable Q) : reqDelOn D p key = reqDel .none p key.text := by
  obtain ⟨hne, hk, hfits⟩ := hkey
  have hdel : delValueOn D p.db key.text = some (delValue Faults.none.sql p.db key.text) :=
    delValueOn_intended hD hk hfits p.db
  have hcached : delCachedOn D p key.text = some (delCached Faults.none.sql p key.text) := by
    unfold delCachedOn delCached
    cases checkHashTable p.hashes key.text with
    | mk entry found =>
        cases found with
        | true => cases entry <;> rfl
        | false => cases entry <;> exact hdel
  rcases reqDel_cases .none p key.text with ⟨hdirect, heq⟩ | ⟨hkey, hregimes⟩
  · rw [reqDelOn_direct (Proxy.not_caches_iff.mpr hdirect), hdel, heq]
    rfl
  · have hhashes := setHashTableOn_eq hne hkey p.hashes none 1
    have hc : p.cachingRegime ≠ .noCache → p.caches key.text = true := by
      intro hr
      simp [Proxy.caches, hr, hkey]
    rcases hregimes with ⟨hr, ⟨herr, -⟩ | ⟨-, heq⟩⟩ | ⟨hr, heq⟩ | ⟨hr, heq⟩
    · have hdeleted := congrArg Prod.fst (delValue_eq p.db key.text)
      rw [show (delValue false p.db key.text).1 = .errReq from herr] at hdeleted
      exact absurd hdeleted.symm (Tiers.deleted_ne_errReq _)
    · rw [reqDelOn_getCache (hc (by simp [hr])) hr, hdel, Option.bind_some, hhashes, heq]
      rfl
    · rw [reqDelOn_onlyCache (hc (by simp [hr])) hr, hcached, Option.bind_some, hhashes, heq]
      rfl
    · simp only [keyFits, decide_eq_true_eq] at hkey
      have hlog : addLogOn D { p with
            db := (delCached Faults.none.sql p key.text).2
            hashes := setHashTable p.hashes key.text none 1 } .del key.text none = _ :=
        addLogOn_intended hD (hp.with_maps _ _) (hwaits.with_maps _ _) hk
          (show ∀ v ∈ (none : Option CString), Q v by simp) (by omega) (by simp)
      rw [reqDelOn_deffer (hc (by simp [hr])) hr, hcached, Option.bind_some, hhashes, heq,
        Option.bind_some, hlog]
      rfl

end Intended

end PgRedisProxy
