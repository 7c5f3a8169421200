import PgRedisProxy.Base.SqlScript
import PgRedisProxy.Store.Coherence
import PgRedisProxy.Store.Transaction

/-!
# What the worker and PostgreSQL say to each other

`Proxy.exchanges` are the texts that a request or a synchronization passes to `PQexec`,
each with the result that the worker acts on. PostgreSQL is a parameter: `Documented`
says what its statements do to the row of the worker's table. `transaction_read_iff` says
when a deferred transaction is read as what it is meant to be, and
`conversation_takesPlace` that PostgreSQL gives the results the worker acts on, and has
the row of the model at the end of a run.
-/

namespace PgRedisProxy

open CLang KeyValue SqlText

/-! ## The deferred transaction as a script -/

/-- The statement for a logged operation. -/
def LogEntry.statement (e : LogEntry) : Statement UInt8 :=
  match e.value with
  | some value => updateStatement curTableName e.key value
  | none => deleteStatement curTableName e.key

/-- `BEGIN;` -/
def beginStatement : Statement UInt8 := ⟨beginText, []⟩

/-- `COMMIT;` -/
def commitStatement : Statement UInt8 := ⟨commitText, []⟩

/-- The statements of a deferred transaction. -/
def transactionScript (es : List LogEntry) : List (Statement UInt8) :=
  beginStatement :: es.map LogEntry.statement ++ [commitStatement]

/-- Neither the key nor the value holds a quote. -/
def LogEntry.QuoteFree (e : LogEntry) : Prop :=
  quote ∉ e.key.bytes ∧ ∀ value ∈ e.value, quote ∉ value.bytes

theorem curTableName_plain : Plain curTableName.bytes := by
  decide

theorem beginStatement_shaped : Shaped beginStatement where
  sql_eq := ⟨ascii "BEGIN", by decide, by decide⟩
  tail_ne := by simp [beginStatement]

theorem commitStatement_shaped : Shaped commitStatement where
  sql_eq := ⟨ascii "COMMIT", by decide, by decide⟩
  tail_ne := by simp [commitStatement]

theorem LogEntry.statement_shaped (e : LogEntry) : Shaped e.statement := by
  obtain ⟨opName, key, value⟩ := e
  cases value with
  | some value => exact updateStatement_shaped curTableName_plain key value
  | none => exact deleteStatement_shaped curTableName_plain key

theorem LogEntry.statementText_eq (e : LogEntry) : e.statementText = e.statement.plain quote := by
  obtain ⟨opName, key, value⟩ := e
  cases value with
  | some value => exact setValueText_eq curTableName key value
  | none => exact delValueText_eq curTableName key

theorem LogEntry.literals_iff (e : LogEntry) :
    (∀ part ∈ e.statement.tail, quote ∉ part.1) ↔ e.QuoteFree := by
  obtain ⟨opName, key, value⟩ := e
  cases value with
  | some value => simp [LogEntry.statement, LogEntry.QuoteFree, updateStatement]
  | none => simp [LogEntry.statement, LogEntry.QuoteFree, deleteStatement]

theorem transactionText_eq (es : List LogEntry) :
    transactionText es = (transactionScript es).flatMap (Statement.plain quote) := by
  have hbegin : beginStatement.plain quote = beginText := by
    simp [beginStatement, Statement.plain]
  have hcommit : commitStatement.plain quote = commitText := by
    simp [commitStatement, Statement.plain]
  have hoperations : es.flatMap LogEntry.statementText =
      es.flatMap fun e => e.statement.plain quote :=
    congrArg (es.flatMap ·) (funext LogEntry.statementText_eq)
  simp [transactionText, transactionScript, hbegin, hcommit, hoperations, List.flatMap_map]

theorem transactionScript_shaped (es : List LogEntry) :
    ∀ s ∈ transactionScript es, s.WellShaped quote ∧ s.Single semicolon := by
  intro s hs
  have hshaped : Shaped s := by
    simp only [transactionScript, List.mem_append, List.mem_cons, List.mem_map,
      List.not_mem_nil, or_false] at hs
    rcases hs with (rfl | ⟨e, -, rfl⟩) | rfl
    · exact beginStatement_shaped
    · exact e.statement_shaped
    · exact commitStatement_shaped
  exact ⟨hshaped.wellShaped, hshaped.single⟩

/-- The literals of a transaction are the keys and values that are logged. -/
theorem transactionScript_literals_iff (es : List LogEntry) :
    (∀ s ∈ transactionScript es, ∀ part ∈ s.tail, quote ∉ part.1) ↔ ∀ e ∈ es, e.QuoteFree := by
  simp only [transactionScript, List.mem_append, List.mem_cons, List.mem_map, List.not_mem_nil,
    or_false, ← LogEntry.literals_iff]
  constructor
  · exact fun h e he => h e.statement (.inl (.inr ⟨e, he, rfl⟩))
  · rintro h s ((rfl | ⟨e, he, rfl⟩) | rfl)
    · simp [beginStatement]
    · exact h e he
    · simp [commitStatement]

/-- PostgreSQL reads a deferred transaction as `BEGIN`, the statements for the logged operations, in
order, and `COMMIT` exactly if no logged key or value holds a quote. -/
theorem transaction_read_iff (es : List LogEntry) :
    readScript quote semicolon (transactionText es) = some (transactionScript es) ↔
      ∀ e ∈ es, e.QuoteFree := by
  rw [transactionText_eq, readScript_plain_iff (transactionScript_shaped es),
    transactionScript_literals_iff]

/-- The text of a single statement without quotes in its literals is read as it. -/
theorem Shaped.read_eq {statement : Statement UInt8} (hs : Shaped statement)
    (hliterals : ∀ part ∈ statement.tail, quote ∉ part.1) :
    readScript quote semicolon (statement.plain quote) = some [statement] := by
  have hshaped : ∀ s ∈ [statement], s.WellShaped quote ∧ s.Single semicolon := by
    intro s hs'
    rw [List.mem_singleton.mp hs']
    exact ⟨hs.wellShaped, hs.single⟩
  have hread := (readScript_plain_iff hshaped).mpr (by simpa using hliterals)
  rwa [List.flatMap_singleton] at hread

/-! ## What is sent -/

/-- What `PQexec` brings back: that a command was executed, or the value that was asked for. -/
inductive PqResult where
  | commandOk
  | value (text : CString)
  deriving DecidableEq

/-- A text that is passed to `PQexec`, with the result. -/
abbrev Exchange := List UInt8 × PqResult

/-- A boolean as libpq returns it. -/
def flagText (flag : Bool) : CString :=
  if flag then ⟨ascii "t", by decide⟩ else ⟨ascii "f", by decide⟩

/-- `get_value`, for which a missing key reads as the empty string. -/
def getValueExchanges (db : Hstore) (key : CString) : List Exchange :=
  [(getValueText curTableName key, .value ((db key).getD CString.empty))]

/-- `set_value` -/
def setValueExchanges (key value : CString) : List Exchange :=
  [(setValueText curTableName key value, .commandOk)]

/-- `del_value` deletes a key only if it is there. -/
def delValueExchanges (db : Hstore) (key : CString) : List Exchange :=
  (findText curTableName key, .value (flagText (db key).isSome)) ::
    if (db key).isNone then [] else [(delValueText curTableName key, .commandOk)]

/-- The operation that a node of the log holds. -/
def Operation.entry (o : Operation) : LogEntry where
  opName := o.opName
  key := o.key.str
  value :=
    match o.opName with
    | .set => some o.value.str
    | .del => none

/-- `sync_with_db` -/
def syncExchanges (lg : Logger) : List Exchange :=
  if lg.nodes = [] ∨ lg.sumSizeOperation = 0 then []
  else [(transactionText ((lg.nodes.take lg.countOperation).map Operation.entry), .commandOk)]

/-- `add_log`, which synchronizes a full log. -/
def addLogExchanges (logger : Option Logger) (opName : OperationName) (key : CString)
    (value : Option CString) : List Exchange :=
  match logger with
  | none => []
  | some lg =>
      match lg.append false opName key value with
      | .noMemory => []
      | .nullPointer => []
      | .added lg => if lg.countOperation = maxCountOperation then syncExchanges lg else []

/-- `req_get` -/
def reqGetExchanges (p : Proxy) (key : CString) : List Exchange :=
  if (p.cachingRegime = .getCache ∨ p.cachingRegime = .onlyCache ∨
      p.cachingRegime = .defferDump) ∧ keyFits key then
    match checkHashTable p.hashes key with
    | (some _, _) => []
    | (none, true) => []
    | (none, false) => getValueExchanges p.db key
  else getValueExchanges p.db key

/-- `req_set` -/
def reqSetExchanges (p : Proxy) (key value : CString) : List Exchange :=
  let fitInCache := keyFits key && valueFits value
  if (p.cachingRegime = .onlyCache ∨ p.cachingRegime = .defferDump) ∧ fitInCache then
    if p.cachingRegime = .defferDump then addLogExchanges p.logger .set key (some value) else []
  else setValueExchanges key value

/-- `req_del` -/
def reqDelExchanges (p : Proxy) (key : CString) : List Exchange :=
  if (p.cachingRegime = .onlyCache ∨ p.cachingRegime = .defferDump) ∧ keyFits key then
    (match checkHashTable p.hashes key with
      | (some _, true) => []
      | (none, true) => []
      | (_, false) => delValueExchanges p.db key) ++
      if p.cachingRegime = .defferDump then addLogExchanges p.logger .del key none else []
  else delValueExchanges p.db key

/-- What an event sends. -/
def Proxy.exchanges (p : Proxy) : Event → List Exchange
  | .get key => reqGetExchanges p key
  | .set key value => reqSetExchanges p key value
  | .del key => reqDelExchanges p key
  | .sync => (p.logger.map syncExchanges).getD []

/-- What a run sends. -/
def Proxy.conversation (p : Proxy) : List Event → List Exchange
  | [] => []
  | e :: events =>
      p.exchanges e ++
        match p.step e with
        | some (_, p) => p.conversation events
        | none => []

/-! ## What PostgreSQL does with it -/

/-- PostgreSQL, as far as the one row of the worker's table is concerned. -/
abbrev Postgres := Backend UInt8 PqResult Hstore

/-- What is documented of the statements and of transaction blocks. `Legal` are the strings that the
encoding of the database takes. -/
structure Documented (pg : Postgres) (Legal : CString → Prop) : Prop where
  begin_eq : pg.beginBlock = beginStatement
  commit_eq : pg.commitBlock = commitStatement
  done_eq : pg.done = .commandOk
  select : ∀ {key}, Legal key → ∀ row,
    pg.execute (selectStatement curTableName key) row =
      some (.value ((row key).getD CString.empty), row)
  update : ∀ {key value}, Legal key → Legal value → ∀ row,
    pg.execute (updateStatement curTableName key value) row =
      some (.commandOk, applyWrite row (key, some value))
  delete : ∀ {key}, Legal key → ∀ row,
    pg.execute (deleteStatement curTableName key) row =
      some (.commandOk, applyWrite row (key, none))
  exist : ∀ {key}, Legal key → ∀ row,
    pg.execute (existStatement curTableName key) row =
      some (.value (flagText (row key).isSome), row)

/-- A string that a literal can hold: it is legal, and without a quote. -/
def Quotable (Legal : CString → Prop) (s : CString) : Prop :=
  Legal s ∧ quote ∉ s.bytes

/-- The key and the value of a write can be sent. -/
def QuotableWrite (Legal : CString → Prop) (w : Write CString CString) : Prop :=
  Quotable Legal w.1 ∧ ∀ value ∈ w.2, Quotable Legal value

/-- The key and the value of an event can be sent. -/
def Event.Quotable (Legal : CString → Prop) : Event → Prop
  | .get key => PgRedisProxy.Quotable Legal key
  | .set key value => QuotableWrite Legal (key, some value)
  | .del key => QuotableWrite Legal (key, none)
  | .sync => True

/-- These exchanges take place, and leave this row. -/
def TakePlace (pg : Postgres) (row : Hstore) (exchanges : List Exchange) (row' : Hstore) : Prop :=
  pg.converse quote semicolon row exchanges = some row'

section TakePlace

variable {pg : Postgres} {Legal : CString → Prop} {row row' : Hstore} {key value : CString}

theorem TakePlace.nil (pg : Postgres) (row : Hstore) : TakePlace pg row [] row :=
  rfl

theorem TakePlace.append {first second : List Exchange} {row'' : Hstore}
    (hfirst : TakePlace pg row first row') (hsecond : TakePlace pg row' second row'') :
    TakePlace pg row (first ++ second) row'' :=
  Machine.runFrom_append_eq_some.mpr ⟨row', hfirst, hsecond⟩

theorem TakePlace.cons {text : List UInt8} {result : PqResult} {rest : List Exchange}
    {row'' : Hstore} (hquery : pg.query quote semicolon text row = some (result, row'))
    (hrest : TakePlace pg row' rest row'') : TakePlace pg row ((text, result) :: rest) row'' :=
  Machine.runFrom_cons_eq_some.mpr ⟨row', by simp [hquery], hrest⟩

variable (hpg : Documented pg Legal)
include hpg

/-- A statement that PostgreSQL executes does not begin or end a block, if it holds a literal. -/
theorem Documented.plain {statement : Statement UInt8} (htail : statement.tail ≠ []) :
    pg.Plain statement := by
  refine ⟨fun heq => htail ?_, fun heq => htail ?_⟩
  · rw [heq, hpg.begin_eq]
    rfl
  · rw [heq, hpg.commit_eq]
    rfl

theorem getValue_query (hkey : Quotable Legal key) (row : Hstore) :
    pg.query quote semicolon (getValueText curTableName key) row =
      some (.value ((row key).getD CString.empty), row) := by
  have hread := (selectStatement_shaped curTableName_plain key).read_eq
    (by simpa [selectStatement] using hkey.2)
  rw [← getValueText_eq] at hread
  exact Backend.query_single (hpg.plain (by simp [selectStatement])) hread (hpg.select hkey.1 row)

theorem setValue_query (hkey : Quotable Legal key) (hvalue : Quotable Legal value) (row : Hstore) :
    pg.query quote semicolon (setValueText curTableName key value) row =
      some (.commandOk, applyWrite row (key, some value)) := by
  have hread := (updateStatement_shaped curTableName_plain key value).read_eq
    (by simpa [updateStatement] using ⟨hkey.2, hvalue.2⟩)
  rw [← setValueText_eq] at hread
  exact Backend.query_single (hpg.plain (by simp [updateStatement])) hread
    (hpg.update hkey.1 hvalue.1 row)

theorem find_query (hkey : Quotable Legal key) (row : Hstore) :
    pg.query quote semicolon (findText curTableName key) row =
      some (.value (flagText (row key).isSome), row) := by
  have hread := (existStatement_shaped curTableName_plain key).read_eq
    (by simpa [existStatement] using hkey.2)
  rw [← findText_eq] at hread
  exact Backend.query_single (hpg.plain (by simp [existStatement])) hread (hpg.exist hkey.1 row)

theorem delValue_query (hkey : Quotable Legal key) (row : Hstore) :
    pg.query quote semicolon (delValueText curTableName key) row =
      some (.commandOk, applyWrite row (key, none)) := by
  have hread := (deleteStatement_shaped curTableName_plain key).read_eq
    (by simpa [deleteStatement] using hkey.2)
  rw [← delValueText_eq] at hread
  exact Backend.query_single (hpg.plain (by simp [deleteStatement])) hread (hpg.delete hkey.1 row)

theorem getValueExchanges_takePlace (hkey : Quotable Legal key) (row : Hstore) :
    TakePlace pg row (getValueExchanges row key) row :=
  .cons (getValue_query hpg hkey row) (.nil pg row)

theorem setValueExchanges_takePlace (hkey : Quotable Legal key) (hvalue : Quotable Legal value)
    (row : Hstore) :
    TakePlace pg row (setValueExchanges key value) (applyWrite row (key, some value)) :=
  .cons (setValue_query hpg hkey hvalue row) (.nil pg _)

/-- Whether the key is there or not, it is gone behind `del_value`. -/
theorem delValueExchanges_takePlace (hkey : Quotable Legal key) (row : Hstore) :
    TakePlace pg row (delValueExchanges row key) (applyWrite row (key, none)) := by
  refine .cons (find_query hpg hkey row) ?_
  have hrow : (delValue false row key).2 = applyWrite row (key, none) :=
    congrArg Prod.snd (delValue_eq row key)
  cases hvalue : row key with
  | none =>
      have hsame : applyWrite row (key, none) = row := by
        rw [← hrow, delValue, hvalue]
        rfl
      rw [hsame]
      exact .nil pg row
  | some value => exact .cons (delValue_query hpg hkey row) (.nil pg _)

/-- The effect of a logged operation. -/
def LogEntry.toWrite (e : LogEntry) : Write CString CString :=
  (e.key, e.value)

omit hpg in
theorem Operation.toWrite_entry (o : Operation) : o.entry.toWrite = o.toWrite := by
  unfold Operation.entry Operation.toWrite LogEntry.toWrite
  cases o.opName <;> rfl

/-- The statement for a logged operation has its effect. -/
theorem Documented.operation {e : LogEntry} (he : QuotableWrite Legal e.toWrite) (row : Hstore) :
    pg.execute e.statement row = some (.commandOk, applyWrite row e.toWrite) := by
  obtain ⟨opName, key, value⟩ := e
  obtain ⟨hkey, hvalue⟩ := he
  cases value with
  | some value => exact hpg.update hkey.1 (hvalue value rfl).1 row
  | none => exact hpg.delete hkey.1 row

/-- A deferred transaction replays the logged operations. -/
theorem transaction_query {es : List LogEntry} (hes : ∀ e ∈ es, QuotableWrite Legal e.toWrite)
    (row : Hstore) :
    pg.query quote semicolon (transactionText es) row =
      some (.commandOk, replay row (es.map LogEntry.toWrite)) := by
  have hfree : ∀ e ∈ es, e.QuoteFree := fun e he =>
    ⟨(hes e he).1.2, fun value hvalue => ((hes e he).2 value hvalue).2⟩
  have hread := (readScript_plain_iff (transactionScript_shaped es)).mpr
    ((transactionScript_literals_iff es).mpr hfree)
  rw [← transactionText_eq] at hread
  have hplain : ∀ s ∈ es.map LogEntry.statement, pg.Plain s := by
    intro s hs
    obtain ⟨⟨opName, key, value⟩, -, rfl⟩ := List.mem_map.mp hs
    cases value with
    | some value => exact hpg.plain (by simp [LogEntry.statement, updateStatement])
    | none => exact hpg.plain (by simp [LogEntry.statement, deleteStatement])
  have hends : pg.commitBlock ≠ pg.beginBlock := by
    rw [hpg.begin_eq, hpg.commit_eq]
    decide
  have hstore : pg.store row (es.map LogEntry.statement) =
      some (replay row (es.map LogEntry.toWrite)) := by
    clear hfree hread hplain
    induction es generalizing row with
    | nil => rfl
    | cons e es ih =>
        have hrest := ih (fun e' he' => hes e' (List.mem_cons_of_mem e he'))
          (applyWrite row e.toWrite)
        have hfirst := hpg.operation (hes e List.mem_cons_self) row
        exact Machine.runFrom_cons_eq_some.mpr ⟨_, by rw [hfirst]; rfl, hrest⟩
  have hread' : readScript quote semicolon (transactionText es) =
      some (pg.beginBlock :: es.map LogEntry.statement ++ [pg.commitBlock]) := by
    rw [hpg.begin_eq, hpg.commit_eq]
    exact hread
  rw [Backend.query_block hplain hends hread', hstore, Option.map_some, hpg.done_eq]

theorem transaction_takesPlace {es : List LogEntry} (hes : ∀ e ∈ es, QuotableWrite Legal e.toWrite)
    (row : Hstore) :
    TakePlace pg row [(transactionText es, .commandOk)] (replay row (es.map LogEntry.toWrite)) :=
  .cons (transaction_query hpg hes row) (.nil pg _)

/-- `sync_with_db` replays the log. -/
theorem syncExchanges_takePlace {lg : Logger} (hlg : lg.Inv)
    (hpending : ∀ w ∈ lg.pending, QuotableWrite Legal w) (row : Hstore) :
    TakePlace pg row (syncExchanges lg) (replay row lg.pending) := by
  unfold syncExchanges
  split
  · rename_i hempty
    have hnil : lg.pending = [] := by
      rcases hempty with hnodes | hsum
      · simp [Logger.pending, hnodes]
      · simp [Logger.pending, hlg.sum_eq_zero_iff.mp hsum]
    rw [hnil]
    exact .nil pg row
  · have hwrites : ((lg.nodes.take lg.countOperation).map Operation.entry).map LogEntry.toWrite =
        lg.pending := by
      rw [List.map_map, Logger.pending]
      exact congrArg (List.map · _) (funext Operation.toWrite_entry)
    rw [← hwrites] at hpending ⊢
    exact transaction_takesPlace hpg (fun e he => hpending _ (List.mem_map_of_mem he)) row

/-- `add_log` replays the log once it is full. -/
theorem addLogExchanges_takePlace {p : Proxy} (hp : p.Inv) (hr : p.cachingRegime = .defferDump)
    (hpending : ∀ w ∈ p.tiers.pending, QuotableWrite Legal w) {value : Option CString}
    (hw : QuotableWrite Legal (key, value)) (hkey : key.strlen < keySize)
    (hvalue : ∀ v ∈ value, v.strlen < valueSize) {t : Tiers}
    (ht : t.pending = p.tiers.pending) :
    TakePlace pg t.db (addLogExchanges p.logger (Logger.nameOf value) key value)
      (t.log (key, value)).db := by
  obtain ⟨lg, hlg, hinv⟩ := hp.logger_of_deffer hr
  obtain ⟨lg', happend, hinv', hlogged⟩ := Logger.append_spec hinv hkey hvalue
  have htiers : p.tiers.pending = lg.pending := by simp [Proxy.tiers, hlg]
  have hlength : (t.pending ++ [(key, value)]).length = lg'.countOperation := by
    rw [← hinv'.length_pending, hlogged, ht, htiers]
  unfold addLogExchanges Tiers.log
  simp only [hlg, happend, hlength]
  split
  · have hquotable : ∀ w ∈ lg'.pending, QuotableWrite Legal w := by
      intro w hw'
      rw [hlogged, ← htiers] at hw'
      rcases List.mem_append.mp hw' with hold | hnew
      · exact hpending w hold
      · rwa [List.mem_singleton.mp hnew]
    have hsync := syncExchanges_takePlace hpg hinv' hquotable t.db
    rwa [hlogged, ← htiers, ← ht] at hsync
  · exact .nil pg t.db

end TakePlace

/-! ## Whole runs -/

/-- What waits in the log behind an event has waited before, or is what the event writes. -/
theorem Tiers.step_pending_mem {P : Write CString CString → Prop} {e : Event}
    (he : ∀ w ∈ e.update?, P w) {r : DumpStatus} {t : Tiers} (ht : ∀ w ∈ t.pending, P w) :
    ∀ w ∈ (t.step r e).2.pending, P w := by
  intro w hw
  rcases Tiers.step_pending_cases r t e with hsame | hflushed | ⟨w', hnew, hlogged, -⟩
  · exact ht w (hsame ▸ hw)
  · rw [hflushed] at hw
    cases hw
  · rw [hlogged, List.mem_append, List.mem_singleton] at hw
    rcases hw with hold | rfl
    · exact ht w hold
    · exact he w hnew

theorem Tiers.after_pending_mem {P : Write CString CString → Prop} {events : List Event}
    (hevents : ∀ e ∈ events, ∀ w ∈ e.update?, P w) {r : DumpStatus} {t : Tiers}
    (ht : ∀ w ∈ t.pending, P w) : ∀ w ∈ (t.after r events).pending, P w := by
  induction events generalizing t with
  | nil => exact ht
  | cons e events ih =>
      rw [Tiers.after_cons]
      exact ih (fun e' he' => hevents e' (List.mem_cons_of_mem e he'))
        (Tiers.step_pending_mem (hevents e List.mem_cons_self) ht)

theorem Event.Quotable.update {Legal : CString → Prop} {e : Event} (he : e.Quotable Legal) :
    ∀ w ∈ e.update?, QuotableWrite Legal w := by
  intro w hw
  cases e with
  | get key => cases hw
  | set key value =>
      cases hw
      exact he
  | del key =>
      cases hw
      exact he
  | sync => cases hw

/-- What waits in the log behind an event can be sent, if the event can. -/
theorem Event.Quotable.pending_step {Legal : CString → Prop} {e : Event} (he : e.Quotable Legal)
    {r : DumpStatus} {t : Tiers} (ht : ∀ w ∈ t.pending, QuotableWrite Legal w) :
    ∀ w ∈ (t.step r e).2.pending, QuotableWrite Legal w :=
  Tiers.step_pending_mem he.update ht

theorem after_pending_quotable {Legal : CString → Prop} {events : List Event}
    (hevents : ∀ e ∈ events, e.Quotable Legal) {r : DumpStatus} {t : Tiers}
    (ht : ∀ w ∈ t.pending, QuotableWrite Legal w) :
    ∀ w ∈ (t.after r events).pending, QuotableWrite Legal w :=
  Tiers.after_pending_mem (fun e he => (hevents e he).update) ht

section Run

variable {pg : Postgres} {Legal : CString → Prop} (hpg : Documented pg Legal) {p : Proxy}
include hpg

theorem reqGetExchanges_takePlace {key : CString} (hkey : Quotable Legal key) :
    TakePlace pg p.db (reqGetExchanges p key) p.db := by
  have hdb := getValueExchanges_takePlace hpg hkey p.db
  unfold reqGetExchanges
  split
  · split
    · exact .nil pg p.db
    · exact .nil pg p.db
    · exact hdb
  · exact hdb

variable (hp : p.Inv) (hpending : ∀ w ∈ p.tiers.pending, QuotableWrite Legal w)
include hp hpending

theorem reqSetExchanges_takePlace {key value : CString}
    (hw : QuotableWrite Legal (key, some value)) :
    TakePlace pg p.db (reqSetExchanges p key value) (p.tiers.set p.cachingRegime key value).db := by
  have hdb := setValueExchanges_takePlace hpg hw.1 (hw.2 value rfl) p.db
  by_cases hdirect : p.cachingRegime = .noCache ∨ (keyFits key && valueFits value) = false
  · have hexchanges : reqSetExchanges p key value = setValueExchanges key value := by
      rcases hdirect with hr | hlarge
      · simp [reqSetExchanges, hr]
      · simp [reqSetExchanges, hlarge]
    rw [hexchanges, Tiers.set_of_direct hdirect]
    exact hdb
  · rw [not_or, Bool.not_eq_false] at hdirect
    obtain ⟨hr, hfits⟩ := hdirect
    unfold reqSetExchanges Tiers.set
    simp only [hfits, if_true, and_true]
    cases hregime : p.cachingRegime with
    | noCache => exact absurd hregime hr
    | getCache => exact hdb
    | onlyCache => exact .nil pg p.db
    | defferDump =>
        obtain ⟨hkey, hvalue⟩ := Bool.and_eq_true_iff.mp hfits
        simp only [keyFits, valueFits, decide_eq_true_eq] at hkey hvalue
        have hcached : (p.tiers.cacheWrite (key, some value)).pending = p.tiers.pending := rfl
        exact addLogExchanges_takePlace hpg hp hregime hpending hw (by omega)
          (fun v hv => by cases hv; omega) hcached

theorem reqDelExchanges_takePlace {key : CString} (hw : QuotableWrite Legal (key, none)) :
    TakePlace pg p.db (reqDelExchanges p key) (p.tiers.del p.cachingRegime key).2.db := by
  have hdb := delValueExchanges_takePlace hpg hw.1 p.db
  by_cases hdirect : p.cachingRegime = .noCache ∨ keyFits key = false
  · have hexchanges : reqDelExchanges p key = delValueExchanges p.db key := by
      rcases hdirect with hr | hlarge
      · simp [reqDelExchanges, hr]
      · simp [reqDelExchanges, hlarge]
    rw [hexchanges, Tiers.del_of_direct hdirect]
    exact hdb
  · rw [not_or, Bool.not_eq_false] at hdirect
    obtain ⟨hr, hfits⟩ := hdirect
    -- the database is asked only for a key that the cache does not know
    have hbelow : TakePlace pg p.db
        (match checkHashTable p.hashes key with
          | (some _, true) => []
          | (none, true) => []
          | (_, false) => delValueExchanges p.db key)
        (p.tiers.delBelow key).2.db := by
      have hcache : p.tiers.cache key = cached p.hashes key := rfl
      rw [checkHashTable_eq]
      unfold Tiers.delBelow
      rw [hcache]
      cases cached p.hashes key with
      | none => exact hdb
      | some entry => cases entry <;> exact .nil pg p.db
    unfold reqDelExchanges Tiers.del
    simp only [hfits, if_true, and_true]
    cases hregime : p.cachingRegime with
    | noCache => exact absurd hregime hr
    | getCache => exact hdb
    | onlyCache => exact hbelow.append (.nil pg _)
    | defferDump =>
        simp only [keyFits, decide_eq_true_eq] at hfits
        have hcached : ((p.tiers.delBelow key).2.cacheWrite (key, none)).pending =
            p.tiers.pending := by
          unfold Tiers.delBelow
          cases p.tiers.cache key <;> rfl
        exact hbelow.append (addLogExchanges_takePlace hpg hp hregime hpending hw (by omega)
          (fun v hv => by cases hv) hcached)

/-- What an event sends takes place, and leaves the row of the model. -/
theorem exchanges_takePlace {e : Event} (he : e.Quotable Legal) :
    TakePlace pg p.db (p.exchanges e) (p.tiers.step p.cachingRegime e).2.db := by
  cases e with
  | get key =>
      have hget : (p.tiers.get p.cachingRegime key).2.db = p.db := by
        rcases Tiers.get_cases p.cachingRegime p.tiers key with hsame | ⟨-, -, -, -, hfilled⟩
        · rw [hsame]
          rfl
        · rw [hfilled]
          rfl
      show TakePlace pg p.db (reqGetExchanges p key) (p.tiers.get p.cachingRegime key).2.db
      rw [hget]
      exact reqGetExchanges_takePlace hpg he
  | set key value => exact reqSetExchanges_takePlace hpg hp hpending he
  | del key => exact reqDelExchanges_takePlace hpg hp hpending he
  | sync =>
      by_cases hr : p.cachingRegime = .defferDump
      · obtain ⟨lg, hlg, hinv⟩ := hp.logger_of_deffer hr
        have hlogged : p.tiers.pending = lg.pending := by simp [Proxy.tiers, hlg]
        rw [hlogged] at hpending
        have hsync := syncExchanges_takePlace hpg hinv hpending p.db
        rw [← hlogged] at hsync
        simp only [Proxy.exchanges, hlg, Tiers.step, hr, if_true]
        exact hsync
      · simp only [Proxy.exchanges, hp.logger_eq_none hr, Tiers.step, hr, if_false]
        exact .nil pg p.db

omit hpending in
/-- What a run sends takes place, and leaves the row of the model. -/
theorem conversation_takesPlace {events : List Event} (hevents : ∀ e ∈ events, e.Quotable Legal)
    (hpending : ∀ w ∈ p.tiers.pending, QuotableWrite Legal w) :
    TakePlace pg p.db (p.conversation events) (p.tiers.after p.cachingRegime events).db := by
  induction events generalizing p with
  | nil => exact .nil pg p.db
  | cons e events ih =>
      have he := hevents e List.mem_cons_self
      have hrest := fun e' he' => hevents e' (List.mem_cons_of_mem e he')
      obtain ⟨p₁, hstep, hrefines⟩ := step_refines hp e
      have hfirst := exchanges_takePlace hpg hp hpending he
      rw [← hrefines.tiers_eq] at hfirst
      have hpending₁ := he.pending_step (r := p.cachingRegime) hpending
      rw [← hrefines.tiers_eq] at hpending₁
      have hsecond := ih hrefines.inv hrest hpending₁
      rw [hrefines.cachingRegime_eq, hrefines.tiers_eq, ← Tiers.after_cons] at hsecond
      rw [Proxy.conversation, hstep]
      exact hfirst.append hsecond

end Run

/-- PostgreSQL, as far as it is documented. -/
def samplePostgres : Postgres where
  beginBlock := beginStatement
  commitBlock := commitStatement
  done := .commandOk
  execute := fun statement row =>
    match statement.tail with
    | [(key, _)] =>
        if hkey : 0 ∉ key then
          let key : CString := ⟨key, hkey⟩
          if statement = selectStatement curTableName key then
            some (.value ((row key).getD CString.empty), row)
          else if statement = deleteStatement curTableName key then
            some (.commandOk, applyWrite row (key, none))
          else if statement = existStatement curTableName key then
            some (.value (flagText (row key).isSome), row)
          else none
        else none
    | [(key, _), (value, _)] =>
        if hboth : 0 ∉ key ∧ 0 ∉ value then
          let key : CString := ⟨key, hboth.1⟩
          let value : CString := ⟨value, hboth.2⟩
          if statement = updateStatement curTableName key value then
            some (.commandOk, applyWrite row (key, some value))
          else none
        else none
    | _ => none

theorem samplePostgres_documented : Documented samplePostgres fun _ => True where
  begin_eq := rfl
  commit_eq := rfl
  done_eq := rfl
  select := by
    intro key _ row
    simp [samplePostgres, selectStatement, key.noNul]
  update := by
    intro key value _ _ row
    simp [samplePostgres, updateStatement, key.noNul, value.noNul]
  delete := by
    intro key _ row
    have hhead : ascii "UPDATE " ++ curTableName.bytes ++ ascii " SET h = delete(h, " ≠
        ascii "SELECT h[" := by
      decide
    have hselect : deleteStatement curTableName key ≠ selectStatement curTableName key :=
      fun heq => hhead (congrArg Statement.head heq)
    have hkey : (0 : UInt8) ∉ key.bytes := key.noNul
    show (if hkey : 0 ∉ key.bytes then _ else _) = _
    rw [dif_pos hkey]
    simp only [hselect, if_false, if_true]
  exist := by
    intro key _ row
    have hhead : ascii "SELECT exist(h, " ≠ ascii "SELECT h[" := by decide
    have hhead' : ascii "SELECT exist(h, " ≠
        ascii "UPDATE " ++ curTableName.bytes ++ ascii " SET h = delete(h, " := by
      decide
    have hselect : existStatement curTableName key ≠ selectStatement curTableName key :=
      fun heq => hhead (congrArg Statement.head heq)
    have hdelete : existStatement curTableName key ≠ deleteStatement curTableName key :=
      fun heq => hhead' (congrArg Statement.head heq)
    have hkey : (0 : UInt8) ∉ key.bytes := key.noNul
    show (if hkey : 0 ∉ key.bytes then _ else _) = _
    rw [dif_pos hkey]
    simp only [hselect, hdelete, if_false, if_true]

end PgRedisProxy
