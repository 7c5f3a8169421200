import PgRedisProxy.Base.Autocommit
import PgRedisProxy.Base.Resp
import PgRedisProxy.Store.Statements
import PgRedisProxy.Store.WorkWithDb
import Mathlib.Data.List.AList
import Mathlib.Data.Nat.Count

/-!
# The tables at start-up (`init_table`)

`Tables` is the schema `public`, the tables with their rows. `initTable` lists the tables
that are there and creates those that are missing, each with two statements that are
committed one by one: the table, and its one row. `TableEvent` is what changes the tables over
the life of the database: a start of the worker, which may be cut off at any of its calls,
and a request that updates the rows of a table.
-/

namespace PgRedisProxy

open CLang Autocommit

/-- The tables of the schema `public`, each with its rows. -/
abbrev Tables := AList fun _ : CString => List Hstore

/-- `''` as an hstore. -/
def emptyRow : Hstore := fun _ => none

namespace Tables

/-- `CREATE TABLE name (h hstore);` -/
def create (name : CString) (tables : Tables) : Option Tables :=
  if name ∈ tables then none else some (tables.insert name [])

/-- `INSERT INTO name VALUES ('');` -/
def insertRow (name : CString) (tables : Tables) : Option Tables :=
  (tables.lookup name).map fun rows => tables.insert name (rows ++ [emptyRow])

/-- `UPDATE name SET h ...;`, which stores or deletes one key in every row. -/
def updateRows (name : CString) (write : KeyValue.Write CString CString) (tables : Tables) :
    Option Tables :=
  (tables.lookup name).map fun rows =>
    tables.insert name (rows.map fun row => KeyValue.applyWrite row write)

/-- The table of a database number holds one row. -/
def HoldsRow (tables : Tables) (i : Nat) : Prop :=
  ∃ row, tables.lookup (tableName i) = some [row]

end Tables

/-- `CREATE_TABLE_REQV_SIZE` -/
def createTableReqvSize : Nat := 25

/-- `CREATE_HSTORE_REQV_SIZE` -/
def createHstoreReqvSize : Nat := 25

/-- `CREATE_TABLE` in `create_table`. -/
def createTableText (newTableName : CString) : List UInt8 :=
  snprintf (ascii "CREATE TABLE %s (h hstore);") [newTableName]

/-- `CREATE_HSTORE` in `create_table`. -/
def createHstoreText (newTableName : CString) : List UInt8 :=
  snprintf (ascii "INSERT INTO %s VALUES ('');") [newTableName]

/-- `get_table_name`, which lists the tables in some order. -/
def getTableName (s : Client Tables) : Client Tables × Option (List CString) :=
  match s.exec some with
  | (s, true) => (s, some s.state.keys)
  | (s, false) => (s, none)

/-- `check_table_existence` -/
def checkTableExistence (tableNames : List CString) (newTableName : CString) : Bool :=
  tableNames.any fun name => name = newTableName

/-- `create_table` -/
def createTable (newTableName : CString) (s : Client Tables) : Client Tables × ReqResult :=
  if (createTableText newTableName).length ≠ newTableName.strlen + createTableReqvSize then
    (s, .errReq)
  else
    match s.exec (Tables.create newTableName) with
    | (s, false) => (s, .errReq)
    | (s, true) =>
        if (createHstoreText newTableName).length ≠ newTableName.strlen + createHstoreReqvSize then
          (s, .errReq)
        else
          match s.exec (Tables.insertRow newTableName) with
          | (s, false) => (s, .errReq)
          | (s, true) => (s, .ok)

/-- What a start of the worker meets: `config.db_count`, whether `init_work_with_db` reaches the
database, what becomes of the calls of `PQexec`, and for which tables `create_hash_table`
succeeds. -/
structure Start where
  dbCount : Nat
  connects : Bool
  answers : List CallResult
  hashCreated : Nat → Bool

/-- How a run of `init_table` ends: it returns 0, or it fails or is cut off, or the name of a table
does not fit into its buffer. -/
inductive InitEnd where
  | returned
  | failed
  | overrun
  deriving DecidableEq, Repr

/-- `char new_table_name[12]` -/
def newTableNameSize : Nat := 12

/-- What the loop of `init_table` does about one table before it creates its hash table. -/
def ensureTable (tableNames : List CString) (newTableName : CString) (s : Client Tables) :
    Client Tables × ReqResult :=
  if checkTableExistence tableNames newTableName then (s, .ok) else createTable newTableName s

/-- The loop of `init_table` from the table `i` on, with the number of tables still to come. -/
def Start.tableLoop (start : Start) (tableNames : List CString) :
    Nat → Nat → Client Tables → Client Tables × InitEnd
  | 0, _, s => (s, .returned)
  | more + 1, i, s =>
      if newTableNameSize < (tableName i).strlen + 1 then (s, .overrun)
      else
        match ensureTable tableNames (tableName i) s with
        | (s, .errReq) => (s, .failed)
        | (s, _) =>
            if start.hashCreated i then start.tableLoop tableNames more (i + 1) s else (s, .failed)

/-- `init_table` -/
def initTable (start : Start) (tables : Tables) : Tables × InitEnd :=
  if start.connects then
    match getTableName ⟨tables, start.answers⟩ with
    | (s, none) => (s.state, .failed)
    | (s, some tableNames) =>
        let (s, result) := start.tableLoop tableNames start.dbCount 0 s
        (s.state, result)
  else (tables, .failed)

/-- What changes the tables: a start of the worker, and a request that updates the rows of a
table. -/
inductive TableEvent where
  | start (begun : Start)
  | update (table : CString) (write : KeyValue.Write CString CString)

/-- The tables after an event. A request for a table that is not there changes nothing. -/
def TableEvent.apply (tables : Tables) : TableEvent → Tables
  | .start begun => (initTable begun tables).1
  | .update table write => (tables.updateRows table write).getD tables

/-- The tables after a history. -/
def Tables.after (tables : Tables) (history : List TableEvent) : Tables :=
  history.foldl TableEvent.apply tables

/-! ## Creating a table -/

section Create

variable {name : CString} {s : Client Tables} {tables : Tables}

/-- `snprintf` writes as many bytes as `create_table` expects. -/
theorem length_createTableText (name : CString) :
    (createTableText name).length = name.strlen + createTableReqvSize := by
  have htext : createTableText name =
      ascii "CREATE TABLE " ++ (name.bytes ++ ascii " (h hstore);") := rfl
  rw [htext, List.length_append, List.length_append]
  show 13 + (name.strlen + 12) = _
  simp only [createTableReqvSize]
  omega

theorem length_createHstoreText (name : CString) :
    (createHstoreText name).length = name.strlen + createHstoreReqvSize := by
  have htext : createHstoreText name =
      ascii "INSERT INTO " ++ (name.bytes ++ ascii " VALUES ('');") := rfl
  rw [htext, List.length_append, List.length_append]
  show 12 + (name.strlen + 13) = _
  simp only [createHstoreReqvSize]
  omega

/-- The tables once a table is there with its one row, the empty hstore. -/
def Tables.made (name : CString) (tables : Tables) : Tables :=
  (tables.insert name []).insert name [emptyRow]

theorem Tables.insertRow_insert :
    Tables.insertRow name (tables.insert name []) = some (tables.made name) := by
  rw [Tables.insertRow, AList.lookup_insert]
  rfl

/-- What `create_table` leaves of a table that was missing: the table with its row; or no table; or
one without a row, if the first statement is the last one executed; or the table with its row, but
no result. -/
theorem createTable_cases (hmissing : name ∉ s.state) :
    (∃ s' : Client Tables, createTable name s = (s', .ok) ∧ s'.state = s.state.made name ∧
      executed s.answers = (executed s'.answers).map (· + 2)) ∨
    ∃ (s' : Client Tables) (n : Nat), createTable name s = (s', .errReq) ∧
      executed s.answers = some n ∧
      (n = 0 ∧ s'.state = s.state ∨ n = 1 ∧ s'.state = s.state.insert name [] ∨
        n = 2 ∧ s'.state = s.state.made name) := by
  have hcreate : Tables.create name s.state = some (s.state.insert name []) := if_neg hmissing
  have htable := not_not_intro (length_createTableText name)
  have hhstore := not_not_intro (length_createHstoreText name)
  rcases s.exec_cases hcreate with ⟨s₁, hexec, hstate, hcount⟩ | ⟨s₁, hexec, hstate, hcount⟩ |
    ⟨s₁, hexec, hstate, hcount⟩
  · have hinsert : Tables.insertRow name s₁.state = some (s.state.made name) := by
      rw [hstate, Tables.insertRow_insert]
    rcases s₁.exec_cases hinsert with ⟨s₂, hexec₂, hstate₂, hcount₂⟩ |
      ⟨s₂, hexec₂, hstate₂, hcount₂⟩ | ⟨s₂, hexec₂, hstate₂, hcount₂⟩
    · refine .inl ⟨s₂, ?_, hstate₂, ?_⟩
      · simp only [createTable, if_neg htable, hexec, if_neg hhstore, hexec₂]
      · rw [hcount, hcount₂, Option.map_map]
        rfl
    · refine .inr ⟨s₂, 1, ?_, by rw [hcount, hcount₂]; rfl, .inr (.inl ⟨rfl, ?_⟩)⟩
      · simp only [createTable, if_neg htable, hexec, if_neg hhstore, hexec₂]
      · rw [hstate₂, hstate]
    · refine .inr ⟨s₂, 2, ?_, by rw [hcount, hcount₂]; rfl, .inr (.inr ⟨rfl, hstate₂⟩)⟩
      simp only [createTable, if_neg htable, hexec, if_neg hhstore, hexec₂]
  · refine .inr ⟨s₁, 0, ?_, hcount, .inl ⟨rfl, hstate⟩⟩
    simp only [createTable, if_neg htable, hexec]
  · refine .inr ⟨s₁, 1, ?_, hcount, .inr (.inl ⟨rfl, hstate⟩)⟩
    simp only [createTable, if_neg htable, hexec]

end Create

/-! ## The loop -/

/-- The name of the table fits into its buffer. -/
def Fits (i : Nat) : Prop :=
  (tableName i).strlen + 1 ≤ newTableNameSize

instance (i : Nat) : Decidable (Fits i) :=
  inferInstanceAs (Decidable (_ ≤ _))

/-- The loop can get behind the table `i`. -/
def Start.Passes (start : Start) (i : Nat) : Prop :=
  Fits i ∧ start.hashCreated i = true

instance (start : Start) (i : Nat) : Decidable (start.Passes i) :=
  inferInstanceAs (Decidable (_ ∧ _))

/-- How many of the first `i` tables are missing. -/
def Tables.missing (tables : Tables) (i : Nat) : Nat :=
  Nat.count (fun k => tableName k ∉ tables) i

/-- From the table `i` on, the loop executes the first statement for the table `j` and not the
second one. It executes two statements for each table that is missing, `tables` being those
listed. -/
structure Start.TearsFrom (start : Start) (tables : Tables) (i : Nat) (answers : List CallResult)
    (j : Nat) : Prop where
  passes : ∀ k, i ≤ k → k < j → start.Passes k
  fits : Fits j
  executed_eq : (executed answers).map (· + 2 * tables.missing i) = some (2 * tables.missing j + 1)

section Tears

variable {start : Start} {tables : Tables} {i j : Nat} {answers answers' : List CallResult}

theorem Tables.missing_zero : tables.missing 0 = 0 :=
  Nat.count_zero _

theorem Tables.missing_succ (hmissing : tableName i ∉ tables) :
    tables.missing (i + 1) = tables.missing i + 1 := by
  rw [missing, Nat.count_succ, if_pos hmissing]
  rfl

theorem Tables.missing_succ_of_mem (hmem : tableName i ∈ tables) :
    tables.missing (i + 1) = tables.missing i := by
  rw [missing, Nat.count_succ, if_neg (not_not_intro hmem)]
  rfl

theorem Tables.missing_lt (hmissing : tableName i ∉ tables) (hlt : i < j) :
    tables.missing i < tables.missing j :=
  Nat.count_strict_mono hmissing hlt

theorem Start.tearsFrom_self_iff :
    start.TearsFrom tables i answers i ↔ Fits i ∧ executed answers = some 1 := by
  constructor
  · rintro ⟨-, hfits, hexecuted⟩
    obtain ⟨n, hn, hsum⟩ := Option.map_eq_some_iff.mp hexecuted
    exact ⟨hfits, by rw [hn]; congr 1; omega⟩
  · rintro ⟨hfits, hexecuted⟩
    refine ⟨fun k hle hlt => by omega, hfits, ?_⟩
    rw [hexecuted, Option.map_some]
    congr 1
    omega

/-- Nothing is torn behind a table that the loop does not get past. -/
theorem Start.not_tearsFrom_of_stop (hlt : i < j)
    (hstop : ¬ start.Passes i ∨ tableName i ∉ tables ∧ ∃ n, executed answers = some n ∧ n ≤ 2) :
    ¬ start.TearsFrom tables i answers j := by
  intro htears
  rcases hstop with hstop | ⟨hmissing, n, hn, hle⟩
  · exact hstop (htears.passes i (Nat.le_refl i) hlt)
  · have hcount := Tables.missing_lt hmissing hlt
    have hsum := htears.executed_eq
    rw [hn, Option.map_some, Option.some_inj] at hsum
    omega

/-- A table that is there leaves to the next one what it found. -/
theorem Start.tearsFrom_succ_of_mem (hpasses : start.Passes i)
    (hmem : tableName i ∈ tables) :
    start.TearsFrom tables (i + 1) answers j ↔ start.TearsFrom tables i answers j := by
  constructor
  · rintro ⟨hrest, hfits, hexecuted⟩
    rw [Tables.missing_succ_of_mem hmem] at hexecuted
    refine ⟨fun k hle hk => ?_, hfits, hexecuted⟩
    by_cases hki : k = i
    · exact hki ▸ hpasses
    · exact hrest k (by omega) hk
  · rintro ⟨hrest, hfits, hexecuted⟩
    rw [← Tables.missing_succ_of_mem hmem] at hexecuted
    exact ⟨fun k hle hk => hrest k (by omega) hk, hfits, hexecuted⟩

/-- A table that is created takes two statements. -/
theorem Start.tearsFrom_succ (hpasses : start.Passes i) (hmissing : tableName i ∉ tables)
    (hexecuted : executed answers = (executed answers').map (· + 2)) :
    start.TearsFrom tables (i + 1) answers' j ↔ start.TearsFrom tables i answers j := by
  have hshift : (executed answers).map (· + 2 * tables.missing i) =
      (executed answers').map (· + 2 * tables.missing (i + 1)) := by
    rw [hexecuted, Option.map_map, Tables.missing_succ hmissing]
    congr 1
    funext n
    show n + 2 + 2 * tables.missing i = n + 2 * (tables.missing i + 1)
    omega
  constructor
  · rintro ⟨hrest, hfits, hsum⟩
    refine ⟨fun k hle hk => ?_, hfits, hshift.trans hsum⟩
    by_cases hki : k = i
    · exact hki ▸ hpasses
    · exact hrest k (by omega) hk
  · rintro ⟨hrest, hfits, hsum⟩
    exact ⟨fun k hle hk => hrest k (by omega) hk, hfits, hshift.symm.trans hsum⟩

end Tears

/-- What a start leaves of a table that was missing: nothing, the table without its row, or the
table with it. -/
inductive Leaves (table : Option (List Hstore)) (torn returned : Prop) : Prop where
  | absent (h : table = none) (htorn : ¬ torn) (hreturned : ¬ returned)
  | empty (h : table = some []) (htorn : torn) (hreturned : ¬ returned)
  | made (h : table = some [emptyRow]) (htorn : ¬ torn)

section Loop

variable {start : Start} {listed : Tables} {i more : Nat} {s : Client Tables}

theorem tableName_injective : Function.Injective tableName := by
  intro i j hname
  have hdecimal : decimal i = decimal j :=
    List.append_cancel_left (congrArg CString.bytes hname : ascii "redis_" ++ _ = ascii "redis_" ++ _)
  have hread : Resp.readNat (decimal i) = some j := by
    rw [hdecimal, Resp.readNat_decimal]
  rw [Resp.readNat_decimal] at hread
  exact Option.some_inj.mp hread

theorem Tables.lookup_made {name : CString} {tables : Tables} :
    (tables.made name).lookup name = some [emptyRow] :=
  AList.lookup_insert _

theorem Tables.lookup_made_ne {name name' : CString} {tables : Tables} (hne : name' ≠ name) :
    (tables.made name).lookup name' = tables.lookup name' := by
  rw [made, AList.lookup_insert_ne hne, AList.lookup_insert_ne hne]

theorem Tables.mem_made_of_ne {name name' : CString} {tables : Tables} (hne : name' ≠ name) :
    name' ∈ tables.made name ↔ name' ∈ tables := by
  rw [← AList.lookup_isSome, lookup_made_ne hne, AList.lookup_isSome]

theorem checkTableExistence_iff {name : CString} :
    checkTableExistence listed.keys name = true ↔ name ∈ listed := by
  rw [AList.mem_keys]
  simp [checkTableExistence]

variable (start more) in
/-- One turn of the loop. It goes on from a table that was there or that it has created, or stops
without a statement for the table, between its two statements, or behind them. -/
theorem tableLoop_cases (hsame : tableName i ∈ s.state ↔ tableName i ∈ listed) :
    (∃ s', start.tableLoop listed.keys (more + 1) i s =
        start.tableLoop listed.keys more (i + 1) s' ∧ start.Passes i ∧
        (tableName i ∈ listed ∧ s' = s ∨
          tableName i ∉ listed ∧ s'.state = s.state.made (tableName i) ∧
            executed s.answers = (executed s'.answers).map (· + 2))) ∨
    ∃ s' result, start.tableLoop listed.keys (more + 1) i s = (s', result) ∧ result ≠ .returned ∧
      (¬ start.Passes i ∨
        tableName i ∉ listed ∧ ∃ n, executed s.answers = some n ∧ n ≤ 2) ∧
      (s'.state = s.state ∧ (tableName i ∉ listed → Fits i → executed s.answers ≠ some 1) ∨
        tableName i ∉ listed ∧ s'.state = s.state.insert (tableName i) [] ∧ Fits i ∧
          executed s.answers = some 1 ∨
        tableName i ∉ listed ∧ s'.state = s.state.made (tableName i) ∧
          executed s.answers ≠ some 1) := by
  by_cases hfits : Fits i
  · have hroom : ¬ newTableNameSize < (tableName i).strlen + 1 := Nat.not_lt.mpr hfits
    by_cases hmem : tableName i ∈ listed
    · have hensure : ensureTable listed.keys (tableName i) s = (s, .ok) :=
        if_pos (checkTableExistence_iff.mpr hmem)
      cases hhash : start.hashCreated i with
      | true =>
          refine .inl ⟨s, ?_, ⟨hfits, hhash⟩, .inl ⟨hmem, rfl⟩⟩
          simp only [Start.tableLoop, if_neg hroom, hensure, hhash, if_true]
      | false =>
          refine .inr ⟨s, .failed, ?_, by simp, .inl (by simp [Start.Passes, hhash]),
            .inl ⟨rfl, fun hmissing => absurd hmem hmissing⟩⟩
          simp only [Start.tableLoop, if_neg hroom, hensure, hhash, Bool.false_eq_true, if_false]
    · have hensure : ensureTable listed.keys (tableName i) s = createTable (tableName i) s :=
        if_neg (mt checkTableExistence_iff.mp hmem)
      rcases createTable_cases (mt hsame.mp hmem) with ⟨s', hcreate, hstate, hexecuted⟩ |
        ⟨s', n, hcreate, hexecuted, hstate⟩
      · cases hhash : start.hashCreated i with
        | true =>
            refine .inl ⟨s', ?_, ⟨hfits, hhash⟩, .inr ⟨hmem, hstate, hexecuted⟩⟩
            simp only [Start.tableLoop, if_neg hroom, hensure, hcreate, hhash, if_true]
        | false =>
            refine .inr ⟨s', .failed, ?_, by simp, .inl (by simp [Start.Passes, hhash]),
              .inr (.inr ⟨hmem, hstate, ?_⟩)⟩
            · simp only [Start.tableLoop, if_neg hroom, hensure, hcreate, hhash,
                Bool.false_eq_true, if_false]
            · rw [hexecuted]
              intro hone
              obtain ⟨n, -, hn⟩ := Option.map_eq_some_iff.mp hone
              omega
      · -- a call of `create_table` got no result, and how many statements are executed says what is left
        have hturn : start.tableLoop listed.keys (more + 1) i s = (s', .failed) := by
          simp only [Start.tableLoop, if_neg hroom, hensure, hcreate]
        refine .inr ⟨s', .failed, hturn, by simp, .inr ⟨hmem, n, hexecuted, by omega⟩, ?_⟩
        rw [hexecuted]
        rcases hstate with ⟨rfl, hstate⟩ | ⟨rfl, hstate⟩ | ⟨rfl, hstate⟩
        · exact .inl ⟨hstate, by simp⟩
        · exact .inr (.inl ⟨hmem, hstate, hfits, rfl⟩)
        · exact .inr (.inr ⟨hmem, hstate, by simp⟩)
  · -- the name does not fit `new_table_name`
    refine .inr ⟨s, .overrun, ?_, by simp, .inl fun hpasses => hfits hpasses.1,
      .inl ⟨rfl, fun _ hfits' => absurd hfits' hfits⟩⟩
    simp only [Start.tableLoop, if_pos (Nat.lt_of_not_le hfits)]

/-- From the table `i` on, the tables are those listed. -/
def Tables.AgreesFrom (tables listed : Tables) (i : Nat) : Prop :=
  ∀ j, i ≤ j → (tableName j ∈ tables ↔ tableName j ∈ listed)

/-- Creating a table changes no table behind it. -/
theorem Tables.AgreesFrom.next {tables tables' : Tables} (h : tables.AgreesFrom listed i)
    (hstate : tables' = tables ∨ tables' = tables.made (tableName i)) :
    tables'.AgreesFrom listed (i + 1) := by
  intro j hj
  have hne : tableName j ≠ tableName i := by
    intro hname
    have hji := tableName_injective hname
    omega
  rcases hstate with rfl | rfl
  · exact h j (by omega)
  · rw [Tables.mem_made_of_ne hne]
    exact h j (by omega)

/-- The loop leaves a table as it is if it need not create it. -/
theorem tableLoop_frame {name : CString} (hagrees : Tables.AgreesFrom s.state listed i)
    (hname : ∀ j, i ≤ j → j < i + more → tableName j ∉ listed → name ≠ tableName j) :
    (start.tableLoop listed.keys more i s).1.state.lookup name = s.state.lookup name := by
  induction more generalizing i s with
  | zero => rfl
  | succ more ih =>
      have hother : tableName i ∉ listed → name ≠ tableName i :=
        hname i (Nat.le_refl i) (by omega)
      have hlater : ∀ j, i + 1 ≤ j → j < i + 1 + more → tableName j ∉ listed →
          name ≠ tableName j := fun j hj hlt => hname j (by omega) (by omega)
      rcases tableLoop_cases start more (hagrees i (Nat.le_refl i)) with
        ⟨s', hturn, -, hstate⟩ | ⟨s', result, hturn, -, -, hstate⟩
      · rw [hturn]
        rcases hstate with ⟨-, rfl⟩ | ⟨hmissing, hstate, -⟩
        · exact ih (hagrees.next (.inl rfl)) hlater
        · rw [ih (hagrees.next (.inr hstate)) hlater, hstate,
            Tables.lookup_made_ne (hother hmissing)]
      · rw [hturn]
        rcases hstate with ⟨hstate, -⟩ | ⟨hmissing, hstate, -⟩ | ⟨hmissing, hstate, -⟩
        · rw [hstate]
        · rw [hstate, AList.lookup_insert_ne (hother hmissing)]
        · rw [hstate, Tables.lookup_made_ne (hother hmissing)]

/-- What the loop leaves of a table that was missing. -/
theorem tableLoop_leaves {j : Nat} (hagrees : Tables.AgreesFrom s.state listed i) (hle : i ≤ j)
    (hlt : j < i + more) (hmissing : tableName j ∉ listed) :
    Leaves ((start.tableLoop listed.keys more i s).1.state.lookup (tableName j))
      (start.TearsFrom listed i s.answers j)
      ((start.tableLoop listed.keys more i s).2 = .returned) := by
  induction more generalizing i s with
  | zero => omega
  | succ more ih =>
      have habsent : s.state.lookup (tableName j) = none :=
        AList.lookup_eq_none.mpr (mt (hagrees j hle).mp hmissing)
      rcases Nat.eq_or_lt_of_le hle with rfl | hbehind
      · -- the table of this turn
        rcases tableLoop_cases start more (hagrees i (Nat.le_refl i)) with
          ⟨s', hturn, hpasses, hstate⟩ | ⟨s', result, hturn, hresult, -, hstate⟩
        · obtain ⟨-, hstate, hexecuted⟩ := hstate.resolve_left fun h => hmissing h.1
          have hframe : (start.tableLoop listed.keys more (i + 1) s').1.state.lookup (tableName i) =
              s'.state.lookup (tableName i) := by
            refine tableLoop_frame (hagrees.next (.inr hstate)) fun j hj _ _ hname => ?_
            have hij := tableName_injective hname
            omega
          rw [hturn]
          refine .made (by rw [hframe, hstate, Tables.lookup_made]) fun htears => ?_
          have hone := (Start.tearsFrom_self_iff.mp htears).2
          rw [hexecuted] at hone
          obtain ⟨n, -, hn⟩ := Option.map_eq_some_iff.mp hone
          omega
        · rw [hturn]
          rcases hstate with ⟨hstate, hnone⟩ | ⟨-, hstate, hfits, hone⟩ | ⟨-, hstate, hnone⟩
          · refine .absent (by rw [hstate, habsent]) (fun htears => ?_) hresult
            obtain ⟨hfits, hone⟩ := Start.tearsFrom_self_iff.mp htears
            exact hnone hmissing hfits hone
          · exact .empty (by rw [hstate, AList.lookup_insert])
              (Start.tearsFrom_self_iff.mpr ⟨hfits, hone⟩) hresult
          · exact .made (by rw [hstate, Tables.lookup_made])
              fun htears => hnone (Start.tearsFrom_self_iff.mp htears).2
      · -- a later one
        have hne : tableName j ≠ tableName i := by
          intro hname
          have hji := tableName_injective hname
          omega
        rcases tableLoop_cases start more (hagrees i (Nat.le_refl i)) with
          ⟨s', hturn, hpasses, hstate⟩ | ⟨s', result, hturn, hresult, hstop, hstate⟩
        · rw [hturn]
          rcases hstate with ⟨hmem, rfl⟩ | ⟨hmissing', hstate, hexecuted⟩
          · rw [← Start.tearsFrom_succ_of_mem hpasses hmem]
            exact ih (hagrees.next (.inl rfl)) hbehind (by omega)
          · rw [← Start.tearsFrom_succ hpasses hmissing' hexecuted]
            exact ih (hagrees.next (.inr hstate)) hbehind (by omega)
        · rw [hturn]
          refine .absent ?_ (Start.not_tearsFrom_of_stop hbehind hstop) hresult
          rcases hstate with ⟨hstate, -⟩ | ⟨-, hstate, -⟩ | ⟨-, hstate, -⟩
          · rw [hstate, habsent]
          · rw [hstate, AList.lookup_insert_ne hne, habsent]
          · rw [hstate, Tables.lookup_made_ne hne, habsent]

end Loop

/-! ## A start -/

/-- The start ends between the two statements for the table `j`: the table is missing and the loop
gets to it, and the last statement executed is the first one for it. One call lists the tables, and
each table missing before takes two. -/
structure Start.Tears (start : Start) (tables : Tables) (j : Nat) : Prop where
  connects : start.connects = true
  lt : j < start.dbCount
  missing : tableName j ∉ tables
  passes : ∀ k < j, start.Passes k
  fits : Fits j
  executed_eq : executed start.answers = some (2 * tables.missing j + 2)

section Start

variable {start : Start} {tables : Tables} {j : Nat}

/-- A start fails before the loop, or it is the loop with the tables that are there. -/
theorem initTable_cases (start : Start) (tables : Tables) :
    (initTable start tables = (tables, .failed) ∧ ∀ j, ¬ start.Tears tables j) ∨
    ∃ s : Client Tables, s.state = tables ∧ start.connects = true ∧
      executed start.answers = (executed s.answers).map (· + 1) ∧
      initTable start tables =
        ((start.tableLoop tables.keys start.dbCount 0 s).1.state,
          (start.tableLoop tables.keys start.dbCount 0 s).2) := by
  cases hconnects : start.connects with
  | false =>
      refine .inl ⟨by simp [initTable, hconnects], fun j htears => ?_⟩
      have hconnects' := htears.connects
      simp [hconnects] at hconnects'
  | true =>
      have hlisted : (some : Tables → Option Tables) tables = some tables := rfl
      rcases Client.exec_cases (s := ⟨tables, start.answers⟩) hlisted with
        ⟨s, hexec, hstate, hexecuted⟩ | ⟨s, hexec, hstate, hexecuted⟩ |
        ⟨s, hexec, hstate, hexecuted⟩
      · refine .inr ⟨s, hstate, rfl, hexecuted, ?_⟩
        simp only [initTable, hconnects, if_true, getTableName, hexec, hstate]
      · refine .inl ⟨by simp only [initTable, hconnects, if_true, getTableName, hexec, hstate],
          fun j htears => ?_⟩
        have hsum := hexecuted.symm.trans htears.executed_eq
        rw [Option.some_inj] at hsum
        omega
      · refine .inl ⟨by simp only [initTable, hconnects, if_true, getTableName, hexec, hstate],
          fun j htears => ?_⟩
        have hsum := hexecuted.symm.trans htears.executed_eq
        rw [Option.some_inj] at hsum
        omega

/-- A start leaves every table as it is that is there. -/
theorem initTable_lookup {name : CString} (hmem : name ∈ tables) :
    (initTable start tables).1.lookup name = tables.lookup name := by
  rcases initTable_cases start tables with ⟨hfailed, -⟩ | ⟨s, hstate, -, -, hloop⟩
  · rw [hfailed]
  · rw [hloop, ← hstate]
    refine tableLoop_frame (fun j _ => Iff.rfl) fun j _ _ hmissing hname => hmissing ?_
    rw [← hname, hstate]
    exact hmem

/-- What a start leaves of a table that was missing. -/
theorem initTable_leaves (start : Start) (hmissing : tableName j ∉ tables) :
    Leaves ((initTable start tables).1.lookup (tableName j)) (start.Tears tables j)
      (j < start.dbCount ∧ (initTable start tables).2 = .returned) := by
  have habsent : tables.lookup (tableName j) = none := AList.lookup_eq_none.mpr hmissing
  rcases initTable_cases start tables with ⟨hfailed, htears⟩ | ⟨s, rfl, hconnects, hexecuted, hloop⟩
  · rw [hfailed]
    exact .absent habsent (htears j) (by simp)
  · rw [hloop]
    by_cases hlt : j < start.dbCount
    · have hcount : executed start.answers = some (2 * s.state.missing j + 2) ↔
          (executed s.answers).map (· + 2 * s.state.missing 0) =
            some (2 * s.state.missing j + 1) := by
        rw [hexecuted, Tables.missing_zero]
        cases executed s.answers with
        | none => simp
        | some n => simp
      have htears : start.Tears s.state j ↔ start.TearsFrom s.state 0 s.answers j :=
        ⟨fun h => ⟨fun k _ hk => h.passes k hk, h.fits, hcount.mp h.executed_eq⟩,
          fun h => ⟨hconnects, hlt, hmissing, fun k hk => h.passes k (Nat.zero_le k) hk, h.fits,
            hcount.mpr h.executed_eq⟩⟩
      rw [htears, and_iff_right hlt]
      exact tableLoop_leaves (fun j _ => Iff.rfl) (Nat.zero_le j) (by omega) hmissing
    · refine .absent ?_ (fun htears => hlt htears.lt) fun hreturned => hlt hreturned.1
      rw [← habsent]
      refine tableLoop_frame (fun j _ => Iff.rfl) fun k _ hk _ hname => ?_
      have hjk := tableName_injective hname
      omega

/-- Where there is a table for the number, it holds one row. -/
def Tables.Whole (tables : Tables) (j : Nat) : Prop :=
  ∀ rows, tables.lookup (tableName j) = some rows → ∃ row, rows = [row]

/-- After a start the table is whole if it was, unless the start has torn it. -/
theorem initTable_whole_iff :
    (initTable start tables).1.Whole j ↔ tables.Whole j ∧ ¬ start.Tears tables j := by
  by_cases hmem : tableName j ∈ tables
  · rw [Tables.Whole, Tables.Whole, initTable_lookup hmem]
    exact (and_iff_left fun htears => htears.missing hmem).symm
  · have hwhole : tables.Whole j := by
      intro rows hrows
      rw [AList.lookup_eq_none.mpr hmem] at hrows
      cases hrows
    rw [and_iff_right hwhole]
    rcases initTable_leaves start hmem with
      ⟨htable, htears, -⟩ | ⟨htable, htears, -⟩ | ⟨htable, htears⟩
    · refine iff_of_true (fun rows hrows => ?_) htears
      rw [htable] at hrows
      cases hrows
    · refine iff_of_false (fun hwhole' => ?_) (not_not_intro htears)
      obtain ⟨row, hrow⟩ := hwhole' [] htable
      cases hrow
    · refine iff_of_true (fun rows hrows => ?_) htears
      rw [htable] at hrows
      exact ⟨emptyRow, (Option.some_inj.mp hrows).symm⟩

/-- A start that returns 0 leaves all tables there, and has torn none. -/
theorem initTable_returned (hreturned : (initTable start tables).2 = .returned)
    (hlt : j < start.dbCount) :
    tableName j ∈ (initTable start tables).1 ∧ ¬ start.Tears tables j := by
  by_cases hmem : tableName j ∈ tables
  · refine ⟨?_, fun htears => htears.missing hmem⟩
    rw [← AList.lookup_isSome, initTable_lookup hmem, AList.lookup_isSome]
    exact hmem
  · rcases initTable_leaves start hmem with
      ⟨-, -, hnot⟩ | ⟨-, -, hnot⟩ | ⟨htable, htears⟩
    · exact absurd ⟨hlt, hreturned⟩ hnot
    · exact absurd ⟨hlt, hreturned⟩ hnot
    · refine ⟨?_, htears⟩
      rw [← AList.lookup_isSome, htable]
      rfl

end Start

/-! ## A request -/

section Update

variable {tables : Tables} {table key value : CString} {row : Hstore}

/-- On a table with its row, a SET does to the row what `set_value` does. -/
theorem Tables.updateRows_setValue (hrow : tables.lookup table = some [row]) :
    ∃ tables', tables.updateRows table (key, some value) = some tables' ∧
      tables'.lookup table = some [(setValue false row key value).2] := by
  refine ⟨tables.insert table [(setValue false row key value).2], ?_, AList.lookup_insert _⟩
  rw [updateRows, hrow, setValue_eq]
  rfl

/-- On a table without a row, an update succeeds and changes no row. -/
theorem Tables.updateRows_noRow (hempty : tables.lookup table = some [])
    (write : KeyValue.Write CString CString) :
    ∃ tables', tables.updateRows table write = some tables' ∧
      ∀ name, tables'.lookup name = tables.lookup name := by
  refine ⟨tables.insert table [], by rw [updateRows, hempty]; rfl, fun name => ?_⟩
  by_cases hname : name = table
  · rw [hname, AList.lookup_insert, hempty]
  · exact AList.lookup_insert_ne hname

/-- An update leaves as many rows in every table as there were. -/
theorem TableEvent.update_lookup (name : CString) (write : KeyValue.Write CString CString) :
    ((TableEvent.update table write).apply tables).lookup name = tables.lookup name ∨
      ∃ rows, tables.lookup name = some rows ∧
        ((TableEvent.update table write).apply tables).lookup name =
          some (rows.map fun row => KeyValue.applyWrite row write) := by
  cases hrows : tables.lookup table with
  | none => exact .inl (by simp [apply, Tables.updateRows, hrows])
  | some rows =>
      have happly : (TableEvent.update table write).apply tables =
          tables.insert table (rows.map fun row => KeyValue.applyWrite row write) := by
        simp [apply, Tables.updateRows, hrows]
      rw [happly]
      by_cases hname : name = table
      · subst hname
        exact .inr ⟨rows, hrows, AList.lookup_insert _⟩
      · exact .inl (AList.lookup_insert_ne hname)

end Update

/-! ## A history -/

/-- The event ends between the two statements for the table `j`. -/
def TableEvent.Tears (tables : Tables) (j : Nat) : TableEvent → Prop
  | .start begun => begun.Tears tables j
  | .update _ _ => False

/-- Some start of the history ends between the two statements for the table `j`. -/
def Tables.Torn (tables : Tables) : List TableEvent → Nat → Prop
  | [], _ => False
  | event :: history, j => event.Tears tables j ∨ Torn (event.apply tables) history j

section History

variable {tables : Tables} {j : Nat}

/-- An event leaves the table whole if it was, unless it has torn it. -/
theorem TableEvent.apply_whole_iff (event : TableEvent) :
    (event.apply tables).Whole j ↔ tables.Whole j ∧ ¬ event.Tears tables j := by
  cases event with
  | start begun => exact initTable_whole_iff
  | update table write =>
      rw [Tears, not_false_eq_true, and_true]
      rcases update_lookup (tableName j) write with hsame | ⟨rows, hrows, hmap⟩
      · rw [Tables.Whole, Tables.Whole, hsame]
      · simp only [Tables.Whole, hrows, hmap, Option.some_inj, forall_eq']
        simp only [← List.length_eq_one_iff, List.length_map]

/-- After a history the table is whole if it was, unless a start of the history has torn it. -/
theorem Tables.after_whole_iff (history : List TableEvent) :
    (tables.after history).Whole j ↔ tables.Whole j ∧ ¬ tables.Torn history j := by
  induction history generalizing tables with
  | nil => exact (and_iff_left not_false).symm
  | cons event history ih =>
      have hafter : tables.after (event :: history) = Tables.after (event.apply tables) history := rfl
      rw [hafter, ih, event.apply_whole_iff, Torn, not_or, and_assoc]

/-- Whatever the history of the tables that the proxy has made: after a start that returns 0, every
table is there with its one row, and those that held theirs are as they were, exactly if no start of
the history has ended between the two statements for one of these tables. -/
theorem initTable_repairs_iff (hfresh : ∀ i, tableName i ∉ tables) (history : List TableEvent)
    {start : Start} (hreturned : (initTable start (tables.after history)).2 = .returned) :
    ((∀ i < start.dbCount, (initTable start (tables.after history)).1.HoldsRow i) ∧
        ∀ i, (tables.after history).HoldsRow i →
          (initTable start (tables.after history)).1.lookup (tableName i) =
            (tables.after history).lookup (tableName i)) ↔
      ∀ i < start.dbCount, ¬ tables.Torn history i := by
  have hholds : ∀ i < start.dbCount,
      ((initTable start (tables.after history)).1.HoldsRow i ↔ ¬ tables.Torn history i) := by
    intro i hlt
    obtain ⟨hmem, htears⟩ := initTable_returned hreturned hlt
    have hwhole : tables.Whole i := by
      intro rows hrows
      rw [AList.lookup_eq_none.mpr (hfresh i)] at hrows
      cases hrows
    have hiff : (initTable start (tables.after history)).1.Whole i ↔ ¬ tables.Torn history i := by
      rw [initTable_whole_iff, Tables.after_whole_iff, and_iff_left htears, and_iff_right hwhole]
    rw [← hiff]
    obtain ⟨rows, hrows⟩ := Option.isSome_iff_exists.mp (AList.lookup_isSome.mpr hmem)
    simp [Tables.HoldsRow, Tables.Whole, hrows]
  have hframe : ∀ i, (tables.after history).HoldsRow i →
      (initTable start (tables.after history)).1.lookup (tableName i) =
        (tables.after history).lookup (tableName i) := by
    rintro i ⟨row, hrow⟩
    exact initTable_lookup (AList.lookup_isSome.mp (by rw [hrow]; rfl))
  rw [and_iff_left hframe]
  exact forall_congr' fun i => forall_congr' fun hlt => hholds i hlt

end History

/-- After a start that is cut off before it lists the tables, the next one makes `redis_0`. -/
theorem initTable_repairs_iff_one :
    (initTable ⟨1, true, [], fun _ => true⟩
      (Tables.after ∅ [.start ⟨1, true, [.lost false], fun _ => true⟩])).1.HoldsRow 0 := by
  refine ((initTable_repairs_iff (fun i => AList.notMem_empty _) _ ?_).mpr ?_).1 0 Nat.one_pos
  · rfl
  · intro i _ htorn
    rcases htorn with htears | hnone
    · have hexecuted := htears.executed_eq
      cases hexecuted
    · exact hnone

/-- After a start that is cut off behind `CREATE TABLE redis_0`, the next one returns 0, and the
table has no row. A SET is then acknowledged, and changes nothing. -/
theorem created_table_stays_empty :
    ∃ tables : Tables,
      initTable ⟨1, true, [], fun _ => true⟩
          (Tables.after ∅ [.start ⟨1, true, [.answered, .answered, .lost false], fun _ => true⟩]) =
        (tables, .returned) ∧
      ¬ tables.HoldsRow 0 ∧
      ∃ tables', Tables.updateRows (tableName 0) (⟨ascii "k", by decide⟩, some ⟨ascii "v", by decide⟩)
          tables = some tables' ∧
        ∀ name, tables'.lookup name = tables.lookup name := by
  have hempty : AList.lookup (tableName 0) (AList.insert (tableName 0) [] ∅ : Tables) = some [] :=
    AList.lookup_insert _
  refine ⟨AList.insert (tableName 0) [] ∅, rfl, ?_, Tables.updateRows_noRow hempty _⟩
  rintro ⟨row, hrow⟩
  rw [hempty, Option.some_inj] at hrow
  cases hrow

end PgRedisProxy
