import PgRedisProxy.Base.Bytes
import PgRedisProxy.Base.SqlText

/-!
# The statement texts of `work_with_db`

The texts that `get_value`, `set_value`, `del_value`, `add_set`, and `add_del` format
with `snprintf`, and the statements they are meant to be. `statements_meant_iff` is the
main result: PostgreSQL reads the texts as these statements, and no other request has
the same texts, exactly if neither the key nor the value holds a quote.
-/

namespace PgRedisProxy

open CLang SqlText

/-- The text `snprintf` writes for a format whose only conversions are `%s`. -/
def snprintf : List UInt8 → List CString → List UInt8
  | 37 :: 115 :: format, arg :: args => arg.bytes ++ snprintf format args
  | c :: format, args => c :: snprintf format args
  | [], _ => []

/-- `redis_%d`, the name of a table. -/
def tableName (i : Nat) : CString where
  bytes := ascii "redis_" ++ decimal i
  noNul := by
    intro hzero
    rcases List.mem_append.mp hzero with hzero | hzero
    · exact absurd hzero (by decide)
    · exact absurd (isDigit_of_mem_decimal hzero) (by decide)

/-- The request of `get_value`. -/
def getValueText (table key : CString) : List UInt8 :=
  snprintf (ascii "SELECT h['%s'] FROM %s;") [key, table]

/-- The request of `set_value`. -/
def setValueText (table key value : CString) : List UInt8 :=
  snprintf (ascii "UPDATE %s SET h['%s']='%s';") [table, key, value]

/-- `DELETE` in `del_value`. -/
def delValueText (table key : CString) : List UInt8 :=
  snprintf (ascii "UPDATE %s SET h = delete(h, '%s');") [table, key]

/-- `FIND` in `del_value`. -/
def findText (table key : CString) : List UInt8 :=
  snprintf (ascii "SELECT exist(h, '%s') FROM %s;") [key, table]

/-- What `add_set` adds to the transaction. -/
def addSetText (table key value : CString) : List UInt8 :=
  snprintf (ascii "UPDATE %s SET h['%s']='%s';") [table, key, value]

/-- What `add_del` adds to the transaction. -/
def addDelText (table key : CString) : List UInt8 :=
  snprintf (ascii "UPDATE %s SET h = delete(h, '%s');") [table, key]

/-- `'` -/
def quote : UInt8 := 39

/-- `;` -/
def semicolon : UInt8 := 59

/-! ## What the texts are meant to be -/

/-- Read the value of a key. -/
def selectStatement (table key : CString) : Statement UInt8 :=
  ⟨ascii "SELECT h[", [(key.bytes, ascii "] FROM " ++ table.bytes ++ [semicolon])]⟩

/-- Set the value of a key. -/
def updateStatement (table key value : CString) : Statement UInt8 :=
  ⟨ascii "UPDATE " ++ table.bytes ++ ascii " SET h[",
    [(key.bytes, ascii "]="), (value.bytes, [semicolon])]⟩

/-- Delete a key. -/
def deleteStatement (table key : CString) : Statement UInt8 :=
  ⟨ascii "UPDATE " ++ table.bytes ++ ascii " SET h = delete(h, ",
    [(key.bytes, ascii ")" ++ [semicolon])]⟩

/-- Ask whether a key is there. -/
def existStatement (table key : CString) : Statement UInt8 :=
  ⟨ascii "SELECT exist(h, ", [(key.bytes, ascii ") FROM " ++ table.bytes ++ [semicolon])]⟩

/-- A text is read as a statement, which is a single one. -/
structure Meant (text : List UInt8) (statement : Statement UInt8) : Prop where
  read_eq : readStatement quote text = some statement
  single : statement.Single semicolon

/-- The texts of the requests for a key and a value are read as what they are meant to be, and those
for another key or value are different. -/
structure StatementsMeant (table key value : CString) : Prop where
  get : Meant (getValueText table key) (selectStatement table key)
  set : Meant (setValueText table key value) (updateStatement table key value)
  del : Meant (delValueText table key) (deleteStatement table key)
  find : Meant (findText table key) (existStatement table key)
  addSet : Meant (addSetText table key value) (updateStatement table key value)
  addDel : Meant (addDelText table key) (deleteStatement table key)
  get_injective : ∀ key', getValueText table key' = getValueText table key → key' = key
  set_injective : ∀ key' value', setValueText table key' value' = setValueText table key value →
    key' = key ∧ value' = value
  del_injective : ∀ key', delValueText table key' = delValueText table key → key' = key
  find_injective : ∀ key', findText table key' = findText table key → key' = key
  addSet_injective : ∀ key' value', addSetText table key' value' = addSetText table key value →
    key' = key ∧ value' = value
  addDel_injective : ∀ key', addDelText table key' = addDelText table key → key' = key

section Texts

variable (table key value : CString)

theorem getValueText_eq : getValueText table key = (selectStatement table key).plain quote := by
  have htext : getValueText table key =
      ascii "SELECT h['" ++ (key.bytes ++ (ascii "'] FROM " ++ (table.bytes ++ [semicolon]))) := rfl
  simp [htext, selectStatement, Statement.plain, ascii, quote]

theorem setValueText_eq :
    setValueText table key value = (updateStatement table key value).plain quote := by
  have htext : setValueText table key value = ascii "UPDATE " ++ (table.bytes ++
      (ascii " SET h['" ++ (key.bytes ++ (ascii "']='" ++ (value.bytes ++ ascii "';"))))) := rfl
  simp [htext, updateStatement, Statement.plain, ascii, quote, semicolon]

theorem delValueText_eq : delValueText table key = (deleteStatement table key).plain quote := by
  have htext : delValueText table key = ascii "UPDATE " ++ (table.bytes ++
      (ascii " SET h = delete(h, '" ++ (key.bytes ++ ascii "');"))) := rfl
  simp [htext, deleteStatement, Statement.plain, ascii, quote, semicolon]

theorem findText_eq : findText table key = (existStatement table key).plain quote := by
  have htext : findText table key = ascii "SELECT exist(h, '" ++ (key.bytes ++
      (ascii "') FROM " ++ (table.bytes ++ [semicolon]))) := rfl
  simp [htext, existStatement, Statement.plain, ascii, quote]

end Texts

/-! ## Their shape -/

/-- Neither a quote nor a semicolon is among these bytes. -/
def Plain (bytes : List UInt8) : Prop :=
  quote ∉ bytes ∧ semicolon ∉ bytes

instance (bytes : List UInt8) : Decidable (Plain bytes) :=
  inferInstanceAs (Decidable (_ ∧ _))

theorem Plain.append {first second : List UInt8} (hfirst : Plain first) (hsecond : Plain second) :
    Plain (first ++ second) := by
  simp only [Plain, List.mem_append, not_or]
  exact ⟨⟨hfirst.1, hsecond.1⟩, hfirst.2, hsecond.2⟩

theorem tableName_plain (i : Nat) : Plain (tableName i).bytes := by
  have hprefix : Plain (ascii "redis_") := by decide
  refine hprefix.append ⟨fun hc => ?_, fun hc => ?_⟩
  · exact absurd (isDigit_of_mem_decimal hc) (by decide)
  · exact absurd (isDigit_of_mem_decimal hc) (by decide)

/-- The SQL text of a statement is plain up to the semicolon at its end, and some of it stands
behind each literal. -/
structure Shaped (statement : Statement UInt8) : Prop where
  sql_eq : ∃ text, statement.sql = text ++ [semicolon] ∧ Plain text
  tail_ne : ∀ part ∈ statement.tail, part.2 ≠ []

section Shape

variable {statement : Statement UInt8}

theorem Shaped.single (hs : Shaped statement) : statement.Single semicolon := by
  obtain ⟨text, hsql, htext⟩ := hs.sql_eq
  exact ⟨text, hsql, htext.2⟩

theorem Shaped.wellShaped (hs : Shaped statement) : statement.WellShaped quote := by
  obtain ⟨text, hsql, htext⟩ := hs.sql_eq
  have hquote : quote ∉ statement.sql := by
    have hend : quote ∉ [semicolon] := by decide
    rw [hsql, List.mem_append, not_or]
    exact ⟨htext.1, hend⟩
  rw [Statement.sql, List.mem_append, not_or] at hquote
  refine ⟨hquote.1, fun part hpart => ⟨fun hc => hquote.2 ?_, hs.tail_ne part hpart⟩⟩
  exact List.mem_flatMap.mpr ⟨part, hpart, hc⟩

/-- The text of a statement is read as the statement exactly if no literal holds a quote. -/
theorem Shaped.meant_iff (hs : Shaped statement) :
    Meant (statement.plain quote) statement ↔ ∀ part ∈ statement.tail, quote ∉ part.1 := by
  rw [← readStatement_plain_iff hs.wellShaped]
  exact ⟨Meant.read_eq, fun hread => ⟨hread, hs.single⟩⟩

/-- Where no literal holds a quote, no other literals give the same text. -/
theorem Shaped.literals_eq {statement' : Statement UInt8} (hs : Shaped statement)
    (hs' : Shaped statement') (hlength : statement'.tail.length = statement.tail.length)
    (hliterals : ∀ part ∈ statement.tail, quote ∉ part.1)
    (heq : statement'.plain quote = statement.plain quote) :
    statement'.tail.map Prod.fst = statement.tail.map Prod.fst :=
  congrArg (fun s => s.tail.map Prod.fst)
    (plain_injective hs.wellShaped hs'.wellShaped hlength hliterals heq)

end Shape

section Statements

variable {table : CString} (htable : Plain table.bytes) (key value : CString)
include htable

theorem selectStatement_shaped : Shaped (selectStatement table key) where
  sql_eq := by
    have hselect : Plain (ascii "SELECT h[") := by decide
    have hfrom : Plain (ascii "] FROM ") := by decide
    exact ⟨ascii "SELECT h[" ++ (ascii "] FROM " ++ table.bytes),
      by simp [Statement.sql, selectStatement], hselect.append (hfrom.append htable)⟩
  tail_ne := by simp [selectStatement]

theorem updateStatement_shaped : Shaped (updateStatement table key value) where
  sql_eq := by
    have hupdate : Plain (ascii "UPDATE ") := by decide
    have hset : Plain (ascii " SET h[" ++ ascii "]=") := by decide
    exact ⟨ascii "UPDATE " ++ (table.bytes ++ (ascii " SET h[" ++ ascii "]=")),
      by simp [Statement.sql, updateStatement], hupdate.append (htable.append hset)⟩
  tail_ne := by simp [updateStatement, ascii]

theorem deleteStatement_shaped : Shaped (deleteStatement table key) where
  sql_eq := by
    have hupdate : Plain (ascii "UPDATE ") := by decide
    have hset : Plain (ascii " SET h = delete(h, " ++ ascii ")") := by decide
    exact ⟨ascii "UPDATE " ++ (table.bytes ++ (ascii " SET h = delete(h, " ++ ascii ")")),
      by simp [Statement.sql, deleteStatement], hupdate.append (htable.append hset)⟩
  tail_ne := by simp [deleteStatement]

theorem existStatement_shaped : Shaped (existStatement table key) where
  sql_eq := by
    have hselect : Plain (ascii "SELECT exist(h, ") := by decide
    have hfrom : Plain (ascii ") FROM ") := by decide
    exact ⟨ascii "SELECT exist(h, " ++ (ascii ") FROM " ++ table.bytes),
      by simp [Statement.sql, existStatement], hselect.append (hfrom.append htable)⟩
  tail_ne := by simp [existStatement]

end Statements

/-- Texts that are put together from their literals as statements of one shape: where no literal
holds a quote, the text is read as the statement, and other literals give another text. -/
theorem meant_of_plain {ι : Type*} {text : ι → List UInt8} {statement : ι → Statement UInt8}
    (literals : ι → List (List UInt8)) (htext : ∀ x, text x = (statement x).plain quote)
    (hshaped : ∀ x, Shaped (statement x))
    (hliterals : ∀ x, (statement x).tail.map Prod.fst = literals x)
    (hlength : ∀ x y, (literals x).length = (literals y).length)
    {x : ι} (hx : ∀ literal ∈ literals x, quote ∉ literal) :
    Meant (text x) (statement x) ∧ ∀ y, text y = text x → literals y = literals x := by
  have hplain : ∀ part ∈ (statement x).tail, quote ∉ part.1 := by
    intro part hpart
    apply hx
    rw [← hliterals]
    exact List.mem_map_of_mem hpart
  refine ⟨?_, fun y heq => ?_⟩
  · rw [htext]
    exact (hshaped x).meant_iff.mpr hplain
  · have hcount := hlength y x
    rw [← hliterals, ← hliterals, List.length_map, List.length_map] at hcount
    rw [htext, htext] at heq
    rw [← hliterals, ← hliterals]
    exact (hshaped x).literals_eq (hshaped y) hcount hplain heq

section Texts

variable {table key value : CString} (htable : Plain table.bytes) (hkey : quote ∉ key.bytes)
include htable hkey

theorem getValueText_meant :
    Meant (getValueText table key) (selectStatement table key) ∧
      ∀ key', getValueText table key' = getValueText table key → key' = key := by
  obtain ⟨hmeant, hother⟩ := meant_of_plain (fun key => [key.bytes]) (getValueText_eq table)
    (selectStatement_shaped htable) (fun _ => rfl) (fun _ _ => rfl) (x := key)
    (by simpa using hkey)
  exact ⟨hmeant, fun key' heq => CString.ext (List.cons.inj (hother key' heq)).1⟩

theorem delValueText_meant :
    Meant (delValueText table key) (deleteStatement table key) ∧
      ∀ key', delValueText table key' = delValueText table key → key' = key := by
  obtain ⟨hmeant, hother⟩ := meant_of_plain (fun key => [key.bytes]) (delValueText_eq table)
    (deleteStatement_shaped htable) (fun _ => rfl) (fun _ _ => rfl) (x := key)
    (by simpa using hkey)
  exact ⟨hmeant, fun key' heq => CString.ext (List.cons.inj (hother key' heq)).1⟩

theorem findText_meant :
    Meant (findText table key) (existStatement table key) ∧
      ∀ key', findText table key' = findText table key → key' = key := by
  obtain ⟨hmeant, hother⟩ := meant_of_plain (fun key => [key.bytes]) (findText_eq table)
    (existStatement_shaped htable) (fun _ => rfl) (fun _ _ => rfl) (x := key)
    (by simpa using hkey)
  exact ⟨hmeant, fun key' heq => CString.ext (List.cons.inj (hother key' heq)).1⟩

theorem setValueText_meant (hvalue : quote ∉ value.bytes) :
    Meant (setValueText table key value) (updateStatement table key value) ∧
      ∀ key' value', setValueText table key' value' = setValueText table key value →
        key' = key ∧ value' = value := by
  obtain ⟨hmeant, hother⟩ := meant_of_plain (fun x => [x.1.bytes, x.2.bytes])
    (fun x : CString × CString => setValueText_eq table x.1 x.2)
    (fun x => updateStatement_shaped htable x.1 x.2) (fun _ => rfl) (fun _ _ => rfl)
    (x := (key, value)) (by simpa using ⟨hkey, hvalue⟩)
  refine ⟨hmeant, fun key' value' heq => ?_⟩
  obtain ⟨hkey', hrest⟩ := List.cons.inj (hother (key', value') heq)
  exact ⟨CString.ext hkey', CString.ext (List.cons.inj hrest).1⟩

end Texts

/-- PostgreSQL reads the texts of the requests for a key and a value as what they are meant to be,
and no other key or value gives the same ones, exactly if neither of them holds a quote. -/
theorem statements_meant_iff (i : Nat) (key value : CString) :
    StatementsMeant (tableName i) key value ↔ quote ∉ key.bytes ∧ quote ∉ value.bytes := by
  have htable := tableName_plain i
  constructor
  · intro hmeant
    have hset := hmeant.set
    rw [setValueText_eq, (updateStatement_shaped htable key value).meant_iff] at hset
    simpa [updateStatement] using hset
  · rintro ⟨hkey, hvalue⟩
    obtain ⟨hget, hgetOther⟩ := getValueText_meant htable hkey
    obtain ⟨hset, hsetOther⟩ := setValueText_meant htable hkey hvalue
    obtain ⟨hdel, hdelOther⟩ := delValueText_meant htable hkey
    obtain ⟨hfind, hfindOther⟩ := findText_meant htable hkey
    -- `add_set` and `add_del` format as `set_value` and `del_value` do
    exact ⟨hget, hset, hdel, hfind, hset, hdel, hgetOther, hsetOther, hdelOther, hfindOther,
      hsetOther, hdelOther⟩

/-- Two requests with the same text: SET of `a` to `b']='c`, and of `a']='b` to `c`. Neither is what
it is meant to be. -/
theorem quote_ends_literal :
    setValueText (tableName 0) ⟨ascii "a", by decide⟩ ⟨ascii "b']='c", by decide⟩ =
        setValueText (tableName 0) ⟨ascii "a']='b", by decide⟩ ⟨ascii "c", by decide⟩ ∧
      ¬ StatementsMeant (tableName 0) ⟨ascii "a", by decide⟩ ⟨ascii "b']='c", by decide⟩ ∧
      ¬ StatementsMeant (tableName 0) ⟨ascii "a']='b", by decide⟩ ⟨ascii "c", by decide⟩ := by
  refine ⟨by decide, fun hmeant => ?_, fun hmeant => ?_⟩
  · have hread := hmeant.set.read_eq
    revert hread
    decide +kernel
  · have hread := hmeant.set.read_eq
    revert hread
    decide +kernel

end PgRedisProxy
