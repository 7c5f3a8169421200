import PgRedisProxy.Server.Restarts
import PgRedisProxy.Start.Buffers

/-!
# From the configuration file to the next start (`proxy_start_work`)

`proxyStartWork` is what a worker does before its event loop: it loads the configuration,
sets up the hash tables and the tables of the database, and connects again. `Chronicle` is
what many starts leave, each of which fails or gets to the loop, whose callbacks then run
until the worker is stopped. Let PostgreSQL do what is documented of it. `worker_lives` is
the main result: as long as the files fit the buffers they are loaded into, no start is cut
off between the two statements that make `redis_0`, and the clients send only what can be
sent to PostgreSQL, every worker finds its row there, with all that the workers before it
have kept, and no other table is ever written.
-/

namespace PgRedisProxy

open Autocommit CLang KeyValue

/-- The configuration that `init_configuration` leaves, if it gets there within so many turns of its
loops. An error that it raises ends the worker. -/
def Loader.loaded : Nat → Loader → Option ProxyConfiguration
  | 0, _ => none
  | turns + 1, s =>
      match s.control with
      | .lines => s.step.loaded turns
      | .tokens _ => s.step.loaded turns
      | .finished => some s.config
      | .raised => none

/-- What a start of the worker meets: `redis.conf`, if it can be opened; whether `malloc` succeeds
in `init_hashes`; how `init_table` gets on with the database and the hash tables; whether
`init_proxy_status` and the second `init_work_with_db` succeed; and whether libev and the listening
socket can be set up. -/
structure WorkerStart where
  configFile : Option (List UInt8)
  scratch : Scratch
  hashesAllocated : Bool
  connects : Bool
  answers : List CallResult
  hashCreated : Nat → Bool
  statusAllocated : Bool
  reconnects : Bool
  listens : Bool

namespace WorkerStart

/-- The configuration that is loaded. -/
def config (turns : Nat) (w : WorkerStart) : Option ProxyConfiguration :=
  w.configFile.bind fun file => (initConfiguration file w.scratch).loaded turns

/-- What `init_table` meets. -/
def tableStart (w : WorkerStart) (config : ProxyConfiguration) : Start where
  dbCount := config.dbCount
  connects := w.connects
  answers := w.answers
  hashCreated := w.hashCreated

/-- The start is cut off between the two statements that make `redis_0`. -/
def Tears (turns : Nat) (w : WorkerStart) (tables : Tables) : Prop :=
  ∃ config, w.config turns = some config ∧ (w.tableStart config).Tears tables 0

end WorkerStart

/-- `proxy_start_work`, up to its event loop: what it makes of the tables, and the configuration if
it gets there. -/
def proxyStartWork (turns : Nat) (w : WorkerStart) (tables : Tables) :
    Tables × Option ProxyConfiguration :=
  match w.config turns with
  | none => (tables, none)
  | some config =>
      if (initHashes config.dbCount w.hashesAllocated).isSome then
        match initTable (w.tableStart config) tables with
        | (tables, .returned) =>
            (tables, if w.statusAllocated && w.reconnects && w.listens then some config else none)
        | (tables, .failed) => (tables, none)
        | (tables, .overrun) => (tables, none)
      else (tables, none)

/-- A start of the worker, and the callbacks until it is stopped, if it gets to its event loop. -/
structure WorkerLife where
  start : WorkerStart
  events : List ServerEvent

/-- The tables, and the regime and the history of each worker that got to its event loop. -/
structure Chronicle where
  tables : Tables
  histories : List (DumpStatus × List Entry)

/-- One more life. The callbacks work on the one row of `redis_0`; without it, or if one of them
ends the worker, nothing is said. -/
def Chronicle.live (D : Database) (turns : Nat) (past : Chronicle) (life : WorkerLife) :
    Option Chronicle :=
  match proxyStartWork turns life.start past.tables with
  | (tables, none) => some { past with tables := tables }
  | (tables, some config) =>
      match tables.lookup curTableName with
      | some [row] =>
          (Server.runOn D config.cachingRegime row life.events).map fun s =>
            { tables := tables.insert curTableName [s.shared.proxy.db]
              histories := past.histories ++ [(config.cachingRegime, s.shared.history)] }
      | _ => none

/-- The start stays inside its buffers, and is not cut off between the two statements that make
`redis_0`. If the worker gets to its event loop, there is at least one database, the regime is not
`ONLY_CACHE`, no callback ends the worker, what it executes can be sent, and the values that the key
is set to under `DEFFER_DUMP` fit the cache. -/
structure Chronicle.Orderly (D : Database) (Q : CString → Prop) (turns : Nat) (key : CString)
    (past : Chronicle) (life : WorkerLife) : Prop where
  fits : ∀ file ∈ life.start.configFile, FileFits file life.start.scratch
  not_torn : ¬ life.start.Tears turns past.tables
  started : ∀ tables config, proxyStartWork turns life.start past.tables = (tables, some config) →
    0 < config.dbCount ∧ config.cachingRegime ≠ .onlyCache ∧
      ∀ row, tables.lookup curTableName = some [row] →
        ∃ s, Server.runOn D config.cachingRegime row life.events = some s ∧
          s.shared.Sendable Q ∧ ValuesFit key (config.cachingRegime, s.shared.history)

/-- `redis_0` is missing as long as no worker got to its event loop, or it has one row, which has of
the key the last update that the workers kept. Every other table is as a start leaves it. -/
structure Chronicle.Accounts (key : CString) (past : Chronicle) : Prop where
  row : past.histories = [] ∧ tableName 0 ∉ past.tables ∨
    ∃ row kept, past.tables.lookup (tableName 0) = some [row] ∧
      List.Forall₂ (KeptIn key) kept past.histories ∧ row key = lastValue none kept.flatten
  others : ∀ i, i ≠ 0 → ∀ rows ∈ past.tables.lookup (tableName i), rows = [] ∨ rows = [emptyRow]

section Start

variable {turns : Nat} {w : WorkerStart} {tables : Tables} {key : CString}
  {histories : List (DumpStatus × List Entry)}

/-- A start changes the tables only in `init_table`, which has returned if the worker gets to its
event loop. -/
theorem proxyStartWork_cases (turns : Nat) (w : WorkerStart) (tables : Tables) :
    proxyStartWork turns w tables = (tables, none) ∨
      ∃ config, w.config turns = some config ∧
        (proxyStartWork turns w tables).1 = (initTable (w.tableStart config) tables).1 ∧
        ∀ started ∈ (proxyStartWork turns w tables).2, started = config ∧
          (initTable (w.tableStart config) tables).2 = .returned := by
  unfold proxyStartWork
  cases hconfig : w.config turns with
  | none => exact .inl rfl
  | some config =>
      dsimp only
      split
      · refine .inr ⟨config, rfl, ?_⟩
        cases hinit : initTable (w.tableStart config) tables with
        | mk tables' result =>
            cases result with
            | returned => simp +contextual
            | failed | overrun => simp
      · exact .inl rfl

/-- `init_table` keeps the account, and makes `redis_0` if it returns and there is a database. -/
theorem Chronicle.Accounts.initTable (h : Chronicle.Accounts key ⟨tables, histories⟩)
    {start : Start} (hwhole : ¬ start.Tears tables 0) :
    Chronicle.Accounts key ⟨(PgRedisProxy.initTable start tables).1, histories⟩ ∧
      ((PgRedisProxy.initTable start tables).2 = .returned → 0 < start.dbCount →
        tableName 0 ∈ (PgRedisProxy.initTable start tables).1) := by
  refine ⟨⟨?_, fun i hi rows hrows => ?_⟩, fun hreturned hlt =>
    (initTable_returned hreturned hlt).1⟩
  · by_cases hmem : tableName 0 ∈ tables
    · obtain ⟨-, hmissing⟩ | ⟨row, kept, hrow, hkept, hkey⟩ := h.row
      · exact absurd hmem hmissing
      · refine .inr ⟨row, kept, ?_, hkept, hkey⟩
        rw [initTable_lookup hmem]
        exact hrow
    · -- no worker has been there yet
      have hnone : histories = [] := by
        obtain ⟨hnone, -⟩ | ⟨row, kept, hrow, -⟩ := h.row
        · exact hnone
        · exact absurd (AList.lookup_isSome.mp (by rw [hrow]; rfl)) hmem
      subst hnone
      rcases initTable_leaves start hmem with
        ⟨htable, -, -⟩ | ⟨-, htorn, -⟩ | ⟨htable, -⟩
      · exact .inl ⟨rfl, AList.lookup_eq_none.mp htable⟩
      · exact absurd htorn hwhole
      · exact .inr ⟨emptyRow, [], htable, .nil, rfl⟩
  · by_cases hmem : tableName i ∈ tables
    · rw [initTable_lookup hmem] at hrows
      exact h.others i hi rows hrows
    · rcases initTable_leaves start hmem with ⟨htable, -, -⟩ | ⟨htable, -, -⟩ | ⟨htable, -⟩
      · rw [htable] at hrows
        cases hrows
      · rw [htable] at hrows
        cases hrows
        exact .inl rfl
      · rw [htable] at hrows
        cases hrows
        exact .inr rfl

/-- So does everything before the event loop. -/
theorem Chronicle.Accounts.start (h : Chronicle.Accounts key ⟨tables, histories⟩)
    (hwhole : ¬ w.Tears turns tables) :
    Chronicle.Accounts key ⟨(proxyStartWork turns w tables).1, histories⟩ ∧
      ∀ config ∈ (proxyStartWork turns w tables).2, 0 < config.dbCount →
        tableName 0 ∈ (proxyStartWork turns w tables).1 := by
  rcases proxyStartWork_cases turns w tables with hfailed | ⟨config, hconfig, htables, hstarted⟩
  · rw [hfailed]
    exact ⟨h, by simp⟩
  · obtain ⟨haccounts, hmade⟩ := h.initTable fun htears => hwhole ⟨config, hconfig, htears⟩
    rw [htables]
    refine ⟨haccounts, fun started hmem hlt => ?_⟩
    obtain ⟨rfl, hreturned⟩ := hstarted started hmem
    exact hmade hreturned hlt

end Start

/-! ## Lives -/

section Lives

variable {D : Database} {Q : CString → Prop} {turns : Nat} {key : CString} {past : Chronicle}
  {life : WorkerLife}

/-- The callbacks of one worker keep the account. -/
theorem Chronicle.Accounts.run {tables : Tables} {histories : List (DumpStatus × List Entry)}
    {row : Hstore} (h : Chronicle.Accounts key ⟨tables, histories⟩)
    (hrow : tables.lookup (tableName 0) = some [row]) {r : DumpStatus} (hr : r ≠ .onlyCache)
    {events : List ServerEvent} {s : Server} (hrun : Server.run r row events = some s)
    (hfits : ValuesFit key (r, s.shared.history)) :
    Chronicle.Accounts key
      ⟨tables.insert (tableName 0) [s.shared.proxy.db],
        histories ++ [(r, s.shared.history)]⟩ where
  row := by
    obtain ⟨-, hmissing⟩ | ⟨row', kept, hrow', hkept, hkey⟩ := h.row
    · exact absurd (AList.lookup_isSome.mp (by rw [hrow]; rfl)) hmissing
    · obtain rfl : row = row' := by
        have hsame := hrow.symm.trans hrow'
        simpa using hsame
      obtain ⟨last, hlast, hdb⟩ := Server.run_kept hr hrun hfits
      refine .inr ⟨s.shared.proxy.db, kept ++ [last], AList.lookup_insert _,
        List.rel_append hkept (.cons hlast .nil), ?_⟩
      rw [List.flatten_append, List.flatten_singleton, lastValue_append, ← hkey]
      exact hdb
  others := by
    intro i hi rows hrows
    have hne : tableName i ≠ tableName 0 := fun hname => hi (tableName_injective hname)
    rw [AList.lookup_insert_ne hne] at hrows
    exact h.others i hi rows hrows

/-- An orderly life leads to a state with an account. -/
theorem Chronicle.Accounts.live (hD : D.Intends Q) (h : past.Accounts key)
    (hlife : past.Orderly D Q turns key life) :
    ∃ past', past.live D turns life = some past' ∧ past'.Accounts key := by
  obtain ⟨tables, histories⟩ := past
  obtain ⟨haccounts, hmade⟩ := h.start hlife.not_torn
  have hstarted := hlife.started
  unfold Chronicle.live
  dsimp only at hmade hstarted ⊢
  cases hstart : proxyStartWork turns life.start tables with
  | mk tables' started =>
      rw [hstart] at haccounts hmade
      cases started with
      | none => exact ⟨⟨tables', histories⟩, rfl, haccounts⟩
      | some config =>
          obtain ⟨hcount, hregime, hrun⟩ := hstarted tables' config hstart
          have hname : tableName 0 = curTableName := by decide
          have hmem : tableName 0 ∈ tables' := hmade config rfl hcount
          obtain ⟨-, hmissing⟩ | ⟨row, kept, hrow, -⟩ := haccounts.row
          · exact absurd hmem hmissing
          · have hrow' : tables'.lookup curTableName = some [row] := hname ▸ hrow
            obtain ⟨s, hs, hsent, hfits⟩ := hrun row hrow'
            refine ⟨⟨tables'.insert curTableName [s.shared.proxy.db],
              histories ++ [(config.cachingRegime, s.shared.history)]⟩, ?_, ?_⟩
            · simp only [hrow', hs, Option.map_some]
            · rw [← hname]
              exact haccounts.run hrow hregime ((Server.runOn_iff hD hsent).mp hs).2 hfits

end Lives

/-- Let PostgreSQL do what is documented of it. On a database without the tables of the proxy, take
any number of lives of the worker, each with its own configuration file, any failures and cuts at
start-up, and any interleaving of callbacks up to a stop behind any of them. If every file fits the
buffers it is loaded into, no start is cut off between the two statements that make `redis_0`, and
all keys and values are legal and without quotes, no key empty, and all statement sizes `int`s, then
every worker that gets to its event loop finds its one row there. The row has of a key the last of
its updates that the workers kept, as in `lives_lose_little`, and no other table is ever written. -/
theorem worker_lives {pg : Postgres} {Legal : CString → Prop} (hpg : Documented pg Legal)
    {turns : Nat} {tables : Tables} (hfresh : ∀ i, tableName i ∉ tables) {key : CString}
    {all : List WorkerLife}
    (hall : Machine.Along (Chronicle.live (.ofPostgres pg) turns)
      (Chronicle.Orderly (.ofPostgres pg) (Quotable Legal) turns key) ⟨tables, []⟩ all) :
    ∃ past, Machine.runFrom (Chronicle.live (.ofPostgres pg) turns) ⟨tables, []⟩ all = some past ∧
      past.Accounts key := by
  refine Machine.runFrom_total (fun past life h hlife => h.live hpg.intends hlife)
    ⟨.inl ⟨rfl, hfresh 0⟩, fun i _ rows hrows => ?_⟩ hall
  rw [AList.lookup_eq_none.mpr (hfresh i)] at hrows
  cases hrows

/-- A start with one database under `GET_CACHE`. -/
def sampleStart (answers : List CallResult) : WorkerStart where
  configFile := some (ascii "databases 1\ncache-regime get-cache\n")
  scratch := .empty
  hashesAllocated := true
  connects := true
  answers := answers
  hashCreated := fun _ => true
  statusAllocated := true
  reconnects := true
  listens := true

theorem sampleStart_fits (answers : List CallResult) :
    ∀ file ∈ (sampleStart answers).configFile, FileFits file .empty := by
  rintro file hfile
  obtain rfl : ascii "databases 1\ncache-regime get-cache\n" = file := Option.some.inj hfile
  have htexts : textsOf (ascii "databases 1\ncache-regime get-cache\n") =
      [ascii "databases 1", ascii "cache-regime get-cache"] := by
    decide +kernel
  have hfirst : lineKind (.ofBytes (ascii "databases 1")) =
      .fields (ascii "databases") (some (ascii "1")) := rfl
  have hsecond : lineKind (.ofBytes (ascii "cache-regime get-cache")) =
      .fields (ascii "cache-regime") (some (ascii "get-cache")) := rfl
  rw [FileFits, if_neg (by decide), htexts]
  simp only [LinesFit, FieldsFit, hfirst, hsecond]
  refine ⟨by decide, ⟨by decide, by decide, by decide, fun hsave => ?_⟩, fun _ =>
    ⟨by decide, ⟨by decide, by decide, by decide, fun hsave => ?_⟩, fun _ => ?_⟩⟩
  · exact absurd hsave (by decide)
  · exact absurd hsave (by decide)
  · exact .inl (by decide)

/-- A start that is cut off before it lists the tables, and one whose worker serves two clients. -/
theorem worker_lives_two :
    ∃ past, Machine.runFrom (Chronicle.live (.ofPostgres samplePostgres) 10) ⟨∅, []⟩
        [⟨sampleStart [.lost false], []⟩, ⟨sampleStart [], twoClients⟩] = some past ∧
      past.Accounts sampleKey := by
  have hfirst : Chronicle.live (.ofPostgres samplePostgres) 10 ⟨∅, []⟩
      ⟨sampleStart [.lost false], []⟩ = some ⟨∅, []⟩ := rfl
  refine worker_lives samplePostgres_documented (fun i => AList.notMem_empty _)
    ⟨⟨sampleStart_fits _, ?_, ?_⟩, ?_⟩
  · rintro ⟨config, -, htears⟩
    cases htears.executed_eq
  · intro tables config hstart
    have hnone : (proxyStartWork 10 (sampleStart [.lost false]) ∅).2 = none := rfl
    have hstart' := congrArg Prod.snd hstart
    rw [hnone] at hstart'
    cases hstart'
  · rintro past hpast
    obtain rfl : (⟨∅, []⟩ : Chronicle) = past := Option.some.inj (hfirst.symm.trans hpast)
    refine ⟨⟨sampleStart_fits _, ?_, ?_⟩, fun _ _ => trivial⟩
    · rintro ⟨config, -, htears⟩
      cases htears.executed_eq
    · intro tables config hstart
      have hloaded : (proxyStartWork 10 (sampleStart []) ∅).2.map
          (fun config => (config.dbCount, config.cachingRegime)) = some (1, .getCache) := by
        decide +kernel
      have hmade : (proxyStartWork 10 (sampleStart []) ∅).1.lookup curTableName =
          some [emptyRow] := rfl
      rw [hstart] at hloaded hmade
      obtain ⟨hcount, hregime⟩ := Prod.mk.inj (Option.some.inj hloaded)
      rw [hcount, hregime]
      refine ⟨Nat.one_pos, by decide, fun row hrow => ?_⟩
      obtain rfl : row = emptyRow := by simpa using hrow.symm.trans hmade
      obtain ⟨s, hs, hchecked⟩ := Option.map_eq_some_iff.mp (by decide +kernel :
        (Server.runOn (.ofPostgres samplePostgres) .getCache emptyRow twoClients).map
          (fun s : Server => decide (∀ e ∈ eventsOf s.shared.history, e ∈ sampleEvents)) =
            some true)
      have hevents := of_decide_eq_true hchecked
      exact ⟨s, hs, fun e he => sampleEvents_sendable e (hevents e he),
        fun hdeffer => by cases hdeffer⟩

end PgRedisProxy
