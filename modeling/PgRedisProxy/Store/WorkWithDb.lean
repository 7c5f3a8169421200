import PgRedisProxy.Base.Bytes
import PgRedisProxy.Base.KeyValue

/-!
# Reading and writing the table (`work_with_db`)

The table of the current database number holds one row with one hstore, which is
a map from keys to values. `getValue`, `setValue`, and `delValue` run one request
against it; the effect of a statement on the row is the intended one. A request
whose statement fails reports `errReq` and leaves the row as it was.
-/

namespace PgRedisProxy

open CLang

/-- `enum req_result` -/
inductive ReqResult where
  | errReq
  | ok
  | non
  deriving DecidableEq, Repr

/-- The hstore of the one row. -/
abbrev Hstore := KeyValue.Map CString CString

/-- What a GET reports: the result, the value or `NULL`, and the length with the terminator. -/
structure GetReply where
  res : ReqResult
  value : Option CString
  length : Nat
  deriving DecidableEq

/-- `get_value`. libpq returns the empty string for a missing key, so a stored empty string
also counts as missing. -/
def getValue (fails : Bool) (db : Hstore) (key : CString) : GetReply :=
  if fails then ⟨.errReq, none, 0⟩
  else
    let value := (db key).getD CString.empty
    if value = CString.empty then ⟨.non, none, value.strlen + 1⟩
    else ⟨.ok, some value, value.strlen + 1⟩

/-- `set_value` -/
def setValue (fails : Bool) (db : Hstore) (key value : CString) : ReqResult × Hstore :=
  if fails then (.errReq, db) else (.ok, KeyValue.applyWrite db (key, some value))

/-- `del_value`: look the key up, and delete it if it is there. -/
def delValue (fails : Bool) (db : Hstore) (key : CString) : ReqResult × Hstore :=
  if fails then (.errReq, db)
  else if (db key).isNone then (.non, db)
  else (.ok, KeyValue.applyWrite db (key, none))

/-- What a GET reads from the row. -/
def stored (db : Hstore) (key : CString) : Option CString :=
  (db key).filter fun value => value ≠ CString.empty

/-- A row without an empty value stores what it holds. -/
theorem stored_eq {db : Hstore} {key : CString} (hne : db key ≠ some CString.empty) :
    stored db key = db key := by
  unfold stored
  cases hvalue : db key with
  | none => rfl
  | some value =>
      have hvalue' : value ≠ CString.empty := fun heq => hne (by rw [hvalue, heq])
      simp [Option.filter, hvalue']

/-- What `get_value` can report: an error, no value, or a value that is not empty. -/
theorem getValue_cases (fails : Bool) (db : Hstore) (key : CString) :
    fails = true ∧ getValue fails db key = ⟨.errReq, none, 0⟩ ∨
      fails = false ∧ getValue fails db key = ⟨.non, none, 1⟩ ∨
      ∃ value, value ≠ CString.empty ∧
        getValue fails db key = ⟨.ok, some value, value.strlen + 1⟩ := by
  cases fails with
  | true => exact .inl ⟨rfl, rfl⟩
  | false =>
      by_cases hempty : (db key).getD CString.empty = CString.empty
      · exact .inr (.inl ⟨rfl, by simp [getValue, hempty]⟩)
      · exact .inr (.inr ⟨_, hempty, by simp [getValue, hempty]⟩)

/-- The reply to a GET whose value, if any, is `value`. -/
def GetReply.of : Option CString → GetReply
  | some value => ⟨.ok, some value, value.strlen + 1⟩
  | none => ⟨.non, none, 1⟩

/-- `get_value` replies with what the row stores. -/
theorem getValue_eq (db : Hstore) (key : CString) :
    getValue false db key = .of (stored db key) := by
  unfold getValue stored
  cases hvalue : db key with
  | none => simp [GetReply.of]
  | some value =>
      by_cases hempty : value = CString.empty
      · simp [hempty, Option.filter, GetReply.of]
      · simp [hempty, Option.filter, GetReply.of]

theorem setValue_eq (db : Hstore) (key value : CString) :
    setValue false db key value = (.ok, KeyValue.applyWrite db (key, some value)) := rfl

/-- Whether the key was there or not, `del_value` leaves the row without it. -/
theorem delValue_eq (db : Hstore) (key : CString) :
    delValue false db key =
      (if (db key).isSome then .ok else .non, KeyValue.applyWrite db (key, none)) := by
  unfold delValue
  cases hvalue : db key with
  | none =>
      have hsame : KeyValue.applyWrite db (key, none) = db := by
        rw [KeyValue.applyWrite, ← hvalue, Function.update_eq_self]
      simp [hsame]
  | some value => simp

end PgRedisProxy
