import PgRedisProxy.Base.Access
import PgRedisProxy.Start.InitTable

/-!
# Table names and hash-table slots at start-up

`startWrites` is every write that `init_hashes` and `init_table` make into the buffer of a
table's name and into the slots of the hash tables. `tables_inside_iff` says for which number of
databases they stay inside, whatever the database answers.
-/

namespace PgRedisProxy

open CLang Autocommit

/-- What start-up writes into: the arrays of `init_configuration`, the name of a table, and the
slots of the hash tables. -/
inductive StartBuffer where
  | line
  | parameterName
  | parameterValue
  | saveData
  | rawBind
  | logfile
  | newTableName
  | hashes
  deriving DecidableEq, Repr

/-- `REDIS_CONFIGURATION_MAXLINE` -/
def redisConfigurationMaxline : Nat := 512

/-- `REDIS_CONFIGURATION_MAXKEY` -/
def redisConfigurationMaxkey : Nat := 256

/-- `REDIS_CONFIGURATION_MAXVALUE` -/
def redisConfigurationMaxvalue : Nat := 256

/-- The sizes of the buffers, and of `save_data` and `hashes` how many elements they have. -/
def StartBuffer.size (countHashTable : Nat) : StartBuffer → Nat
  | line => redisConfigurationMaxline
  | parameterName => redisConfigurationMaxkey
  | parameterValue => redisConfigurationMaxvalue
  | saveData => 16
  | rawBind => 1024
  | logfile => 1024
  | newTableName => newTableNameSize
  | hashes => countHashTable

/-- `init_hashes`: how many slots there are. It gets the number as an `int`, and a negative one asks
`malloc` for more than there can be. -/
def initHashes (countTable : Nat) (allocated : Bool) : Option Nat :=
  if 0 ≤ wrap32 countTable ∧ allocated = true then some (wrap32 countTable).toNat else none

/-- The writes of the loop of `init_table` from the table `i` on, with the number of tables still to
come: a name, and a slot in `create_hash_table`. -/
def Start.tableWrites (start : Start) (tableNames : List CString) :
    Nat → Nat → Client Tables → List (Access StartBuffer)
  | 0, _, _ => []
  | more + 1, i, s =>
      ⟨.newTableName, 0, (tableName i).strlen + 1⟩ ::
        match ensureTable tableNames (tableName i) s with
        | (_, .errReq) => []
        | (s, _) =>
            if start.hashCreated i then
              ⟨.hashes, i, 1⟩ :: start.tableWrites tableNames more (i + 1) s
            else []

/-- The writes of `init_hashes` and `init_table` into the buffers. -/
def startWrites (allocated : Bool) (start : Start) (tables : Tables) : List (Access StartBuffer) :=
  if (initHashes start.dbCount allocated).isSome ∧ start.connects = true then
    match getTableName ⟨tables, start.answers⟩ with
    | (_, none) => []
    | (s, some tableNames) => start.tableWrites tableNames start.dbCount 0 s
  else []

/-- Whatever the database answers, start-up with this number of databases stays inside. -/
def TablesInside (dbCount : Nat) : Prop :=
  ∀ allocated start tables, start.dbCount = dbCount →
    AllInside (StartBuffer.size ((initHashes dbCount allocated).getD 0))
      (startWrites allocated start tables)

section Names

/-- A name has room if its number has at most five digits. -/
theorem fits_of_lt {i : Nat} (h : i < 100000) : Fits i := by
  have hdigits : (decimal i).length ≤ 5 := length_decimal_le h
  have hname : (tableName i).strlen = 6 + (decimal i).length := List.length_append
  rw [Fits, hname, newTableNameSize]
  omega

theorem not_fits_100000 : ¬ Fits 100000 := by
  decide

end Names

section Loop

variable {start : Start} {tableNames : List CString} {s : Client Tables}

/-- The loop ends at a name without room exactly if it writes one. -/
theorem tableLoop_overrun_iff {more i : Nat} :
    (start.tableLoop tableNames more i s).2 = .overrun ↔
      ∃ a ∈ start.tableWrites tableNames more i s,
        a.object = .newTableName ∧ newTableNameSize < a.off + a.count := by
  induction more generalizing i s with
  | zero => simp [Start.tableLoop, Start.tableWrites]
  | succ more ih =>
      rw [Start.tableLoop, Start.tableWrites, List.exists_mem_cons_iff, Nat.zero_add]
      by_cases hroom : newTableNameSize < (tableName i).strlen + 1
      · simp [hroom]
      · rw [if_neg hroom, or_iff_right fun h => hroom h.2]
        rcases hensure : ensureTable tableNames (tableName i) s with ⟨s', result⟩
        cases result with
        | errReq => simp
        | ok | non =>
            cases hhash : start.hashCreated i with
            | false => simp
            | true =>
                simp only [if_true]
                rw [ih, List.exists_mem_cons_iff, or_iff_right]
                simp

/-- The loop stays inside if every number that is left has a name with room and a slot. -/
theorem tableWrites_inside {slots more i : Nat} (hnames : i + more ≤ 100000)
    (hslots : i + more ≤ slots) :
    AllInside (StartBuffer.size slots) (start.tableWrites tableNames more i s) := by
  induction more generalizing i s with
  | zero => exact allInside_nil
  | succ more ih =>
      have hname : 0 + ((tableName i).strlen + 1) ≤ newTableNameSize := by
        have hfits : Fits i := fits_of_lt (by omega)
        rwa [Nat.zero_add]
      rw [Start.tableWrites, allInside_cons]
      refine ⟨hname, ?_⟩
      split
      · exact allInside_nil
      · split_ifs
        · have hslot : i + 1 ≤ slots := by omega
          exact allInside_cons.mpr ⟨hslot, ih (by omega) (by omega)⟩
        · exact allInside_nil

/-- Where all tables are there, the loop comes to the first name without room. -/
theorem tableWrites_overrun {slots more i : Nat} (hhash : ∀ k, start.hashCreated k = true)
    (hnames : ∀ k < 100000, checkTableExistence tableNames (tableName k) = true)
    (hle : i ≤ 100000) (hlt : 100000 < i + more) :
    ¬ AllInside (StartBuffer.size slots) (start.tableWrites tableNames more i s) := by
  induction more generalizing i with
  | zero => omega
  | succ more ih =>
      intro hinside
      rw [Start.tableWrites, allInside_cons] at hinside
      by_cases hi : i = 100000
      · subst hi
        have hname : 0 + ((tableName 100000).strlen + 1) ≤ newTableNameSize := hinside.1
        rw [Nat.zero_add] at hname
        exact not_fits_100000 hname
      · have hensure : ensureTable tableNames (tableName i) s = (s, .ok) :=
          if_pos (hnames i (by omega))
        have hrest := hinside.2
        simp only [hensure, hhash i, if_true, allInside_cons] at hrest
        exact ih (by omega) (by omega) hrest.2

end Loop

/-- The tables of the first databases. -/
def Tables.upTo : Nat → Tables
  | 0 => ∅
  | n + 1 => (upTo n).insert (tableName n) []

theorem Tables.mem_upTo {n k : Nat} (h : k < n) : tableName k ∈ Tables.upTo n := by
  induction n with
  | zero => omega
  | succ n ih =>
      rw [upTo, AList.mem_insert]
      by_cases hk : k = n
      · exact .inl (by rw [hk])
      · exact .inr (ih (by omega))

/-- Start-up stays inside for at most 100000 databases, and for so many that no slots are
allocated. -/
theorem tables_inside_iff (dbCount : Nat) :
    TablesInside dbCount ↔ dbCount ≤ 100000 ∨ wrap32 dbCount < 0 := by
  constructor
  · intro hinside
    by_contra hout
    obtain ⟨hmany, hcount⟩ := not_or.mp hout
    set start : Start := ⟨dbCount, true, [], fun _ => true⟩ with hstart
    have hslots : (initHashes start.dbCount true).isSome := by
      rw [initHashes, if_pos ⟨Int.not_lt.mp hcount, rfl⟩]
      rfl
    have hoverrun := hinside true start (Tables.upTo 100000) rfl
    rw [startWrites, if_pos ⟨hslots, rfl⟩] at hoverrun
    have hreached : 100000 < 0 + dbCount := by omega
    refine tableWrites_overrun (fun _ => rfl) (fun k hk => ?_) (Nat.zero_le _) hreached hoverrun
    exact checkTableExistence_iff.mpr (Tables.mem_upTo hk)
  · rintro hcount allocated start tables rfl
    rw [startWrites]
    split_ifs with hstarts
    · obtain ⟨hallocated, -⟩ := hstarts
      have hpositive : 0 ≤ wrap32 start.dbCount := by
        unfold initHashes at hallocated
        split_ifs at hallocated with h
        · exact h.1
        · cases hallocated
      have hfew : start.dbCount ≤ 100000 := hcount.resolve_right (by omega)
      have hslots : (initHashes start.dbCount allocated).getD 0 = start.dbCount := by
        have hwrap : wrap32 start.dbCount = start.dbCount := wrap32_of_range (by omega) (by omega)
        unfold initHashes at hallocated ⊢
        split_ifs at hallocated ⊢
        · rw [hwrap]
          rfl
        · cases hallocated
      split
      · exact allInside_nil
      · exact tableWrites_inside (by omega) (by omega)
    · exact allInside_nil

end PgRedisProxy
