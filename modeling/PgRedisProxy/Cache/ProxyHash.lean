import Mathlib.Logic.Function.Basic
import PgRedisProxy.Base.Block

/-!
# The cache of one table (`proxy_hash`)

A cell has `dataSize` bytes: the key in the first `keySize`, one status byte (1
for a deleted key), then the value. dynahash hands out the cell whose key bytes
read as the key asked for, or a fresh cell with only the key copied in.
`cached` is what the table says about a key, and `cached_set_live` and
`cached_set_deleted` say how one call of `setHashTable` changes it.
-/

namespace PgRedisProxy

open CLang

/-- `KEY_SIZE` -/
def keySize : Nat := 100

/-- `DATA_SIZE` -/
def dataSize : Nat := 200

/-- `VALUE_SIZE`, that is `DATA_SIZE - 1 - KEY_SIZE`. -/
def valueSize : Nat := dataSize - 1 - keySize

/-- One entry of a hash table. -/
abbrev Cell := CharArray dataSize

namespace Cell

/-- The key dynahash compares with under `HASH_STRINGS`. -/
def key (c : Cell) : Option CString :=
  Block.cstr (c.bytes.take keySize)

/-- `result[KEY_SIZE]` -/
def status (c : Cell) : Option UInt8 :=
  c.bytes[keySize]?.join

/-- The string at `result + KEY_SIZE + 1`. -/
def value (c : Cell) : CString :=
  Block.str (c.bytes.drop (keySize + 1))

/-- A cell dynahash has just created: the key is copied in, the rest is indeterminate. -/
def fresh (key : CString) : Cell :=
  (CharArray.uninit dataSize).write 0 (Block.ofBytes key.buffer)

/-- What `set_hash_table` writes into the cell it got. `key.bytes.tail.length` is
`strlen(key + 1)`, so the first copy leaves out the last byte of the key. The copy of the value
always takes `VALUE_SIZE` bytes, also past the end of the value's buffer. -/
def fill (c : Cell) (key : CString) (value : Option CString) (newStatus : UInt8) : Cell :=
  let c := c.write 0 (Block.ofBytes (key.bytes.take key.bytes.tail.length))
  let c :=
    if key.strlen + 1 < keySize then
      c.write (key.strlen + 1) (Block.ofBytes (List.replicate (keySize - (key.strlen + 1)) 0))
    else c
  let c := c.write keySize [some newStatus]
  match value with
  | some value => c.write (keySize + 1) ((Block.ofBytes value.buffer).read 0 valueSize)
  | none => c

end Cell

/-- A hash table of dynahash, as the list of its cells. -/
abbrev Htab := List Cell

/-- `hash_search` with `HASH_FIND` -/
def hashFind (t : Htab) (key : CString) : Option Cell :=
  t.find? fun c => c.key = some key

/-- `hash_search` with `HASH_ENTER`, followed by the caller's update of the cell. -/
def hashEnter (t : Htab) (key : CString) (update : Cell → Cell) : Htab :=
  match t with
  | [] => [update (Cell.fresh key)]
  | c :: t => if c.key = some key then update c :: t else c :: hashEnter t key update

/-- `hash_search` with `HASH_ENTER`, where dynahash hands out `created` if it has no cell of the
key. -/
def hashEnterWith (t : Htab) (key : CString) (created : Cell) (update : Cell → Cell) : Htab :=
  match t with
  | [] => [update created]
  | c :: t => if c.key = some key then update c :: t else c :: hashEnterWith t key created update

/-- The value `check_hash_table` returns, `none` for `NULL`, with its `found` flag. -/
def checkHashTable (t : Htab) (key : CString) : Option CString × Bool :=
  match hashFind t key with
  | some c => if c.status = some 1 then (none, true) else (some c.value, true)
  | none => (none, false)

/-- `set_hash_table` on a non-NULL key. `HASH_ENTER` raises an error rather than return `NULL`,
so it always succeeds. -/
def setHashTable (t : Htab) (key : CString) (value : Option CString) (newStatus : UInt8) : Htab :=
  hashEnter t key fun c => c.fill key value newStatus

/-- `set_hash_table` on a non-NULL key, where dynahash hands out `created` if it has no cell of the
key. -/
def setHashTableWith (t : Htab) (key : CString) (value : Option CString) (newStatus : UInt8)
    (created : Cell) : Htab :=
  hashEnterWith t key created fun c => c.fill key value newStatus

/-- What the cache knows about a key: nothing, that it is deleted, or its value. -/
def cached (t : Htab) (key : CString) : Option (Option CString) :=
  (hashFind t key).map fun c => if c.status = some 1 then none else some c.value

/-- `check_hash_table` returns what `cached` says. -/
theorem checkHashTable_eq (t : Htab) (key : CString) :
    checkHashTable t key = ((cached t key).join, (cached t key).isSome) := by
  unfold checkHashTable cached
  cases hashFind t key with
  | none => rfl
  | some c => by_cases h : c.status = some 1 <;> simp [h]

/-! ## One cell -/

/-- A cell whose key bytes hold `key` consists of the key's buffer, the rest of the key area, the
status byte and the value area. -/
theorem Cell.bytes_of_key {c : Cell} {key : CString} (h : c.key = some key) :
    ∃ pad st val, c.bytes = Block.ofBytes key.buffer ++ pad ++ [st] ++ val ∧
      key.strlen + 1 + pad.length = keySize ∧ val.length = valueSize := by
  obtain ⟨pad, hpad⟩ := Block.cstr_eq_some_iff.mp h
  have hsize : c.bytes.length = 200 := c.size
  have hlen : key.strlen + 1 + pad.length = keySize := by
    have := congrArg List.length hpad
    simp only [List.length_take, hsize, keySize, List.length_append, Block.length_ofBytes,
      CString.length_buffer] at this
    simp only [keySize]
    omega
  have hlt : keySize < c.bytes.length := by rw [hsize]; decide
  refine ⟨pad, c.bytes[keySize], c.bytes.drop (keySize + 1), ?_, hlen, ?_⟩
  · rw [← hpad, List.append_assoc, List.singleton_append, ← List.drop_eq_getElem_cons hlt,
      List.take_append_drop]
  · simp [hsize, keySize, valueSize, dataSize]

/-- Copying a prefix of the key over a cell of that key changes nothing. -/
theorem Cell.write_key {c : Cell} {key : CString} (h : c.key = some key) (n : Nat) :
    (c.write 0 (Block.ofBytes (key.bytes.take n))).bytes = c.bytes := by
  obtain ⟨pad, st, val, hbytes, -, -⟩ := c.bytes_of_key h
  have hsplit : c.bytes = [] ++ Block.ofBytes (key.bytes.take n) ++
      (Block.ofBytes (key.bytes.drop n ++ [0]) ++ pad ++ [st] ++ val) := by
    rw [hbytes, List.nil_append, CString.buffer, ← List.append_assoc, ← List.append_assoc,
      ← List.append_assoc, ← Block.ofBytes_append, ← List.append_assoc, List.take_append_drop]
  change c.bytes.write 0 _ = c.bytes
  rw [hsplit]
  exact Block.write_self [] _ _

/-- The bytes `set_hash_table` leaves in a cell of `key`: the key padded with zeros, the status,
and either the new value area or the old one. -/
theorem Cell.fill_bytes {c : Cell} {key : CString} (h : c.key = some key)
    (hfit : key.strlen + 1 < keySize) (value : Option CString) (st : UInt8) :
    (c.fill key value st).bytes =
      Block.ofBytes (key.buffer ++ List.replicate (keySize - (key.strlen + 1)) 0) ++
        [some st] ++
        (match value with
          | some value => (Block.ofBytes value.buffer).read 0 valueSize
          | none => c.bytes.drop (keySize + 1)) := by
  obtain ⟨pad, old, val, hbytes, hpad, hval⟩ := c.bytes_of_key h
  set zeros := Block.ofBytes (List.replicate (keySize - (key.strlen + 1)) 0) with hzeros
  have hkey : (Block.ofBytes key.buffer).length = key.strlen + 1 := by simp
  have hpadded : (Block.ofBytes key.buffer ++ zeros).length = keySize := by
    simp only [hzeros, List.length_append, hkey, Block.length_ofBytes, List.length_replicate]
    omega
  -- the copy of the key changes nothing: all bytes it writes are there already
  have hcopied : (c.write 0 (Block.ofBytes (key.bytes.take key.bytes.tail.length))).bytes =
      Block.ofBytes key.buffer ++ pad ++ ([old] ++ val) := by
    rw [c.write_key h, hbytes, List.append_assoc _ [old]]
  have hzeroed : (Block.ofBytes key.buffer ++ pad ++ ([old] ++ val)).write (key.strlen + 1) zeros =
      Block.ofBytes key.buffer ++ zeros ++ ([old] ++ val) := by
    rw [← hkey]
    apply Block.write_middle
    simp only [hzeros, Block.length_ofBytes, List.length_replicate]
    omega
  have hstatus : (Block.ofBytes key.buffer ++ zeros ++ ([old] ++ val)).write keySize [some st] =
      Block.ofBytes key.buffer ++ zeros ++ [some st] ++ val := by
    rw [← hpadded, ← List.append_assoc]
    exact Block.write_middle _ [old] val [some st] rfl
  cases value with
  | none =>
      have hdrop : c.bytes.drop (keySize + 1) = val := by
        rw [hbytes, show keySize + 1 = (Block.ofBytes key.buffer ++ pad ++ [old]).length by
          simp only [List.length_append, hkey, List.length_singleton]; omega, List.drop_left]
      simp only [Cell.fill, hfit, if_true, CharArray.write, Block.ofBytes_append, hdrop, ← hzeros]
      rw [show c.bytes.write 0 _ = _ from hcopied, hzeroed, hstatus]
  | some value =>
      have hvalue : (Block.ofBytes key.buffer ++ zeros ++ [some st] ++ val).write (keySize + 1)
            ((Block.ofBytes value.buffer).read 0 valueSize) =
          Block.ofBytes key.buffer ++ zeros ++ [some st] ++
            (Block.ofBytes value.buffer).read 0 valueSize := by
        have := Block.write_middle (Block.ofBytes key.buffer ++ zeros ++ [some st]) val []
          ((Block.ofBytes value.buffer).read 0 valueSize) (by simp [hval])
        simpa only [List.append_nil, @List.length_append _ _ [some st], hpadded,
          List.length_singleton] using this
      simp only [Cell.fill, hfit, if_true, CharArray.write, Block.ofBytes_append, ← hzeros]
      rw [show c.bytes.write 0 _ = _ from hcopied, hzeroed, hstatus, hvalue]

/-- A filled cell is still a cell of its key. -/
theorem Cell.key_fill {c : Cell} {key : CString} (h : c.key = some key)
    (hfit : key.strlen + 1 < keySize) (value : Option CString) (st : UInt8) :
    (c.fill key value st).key = some key := by
  unfold Cell.key
  rw [Cell.fill_bytes h hfit, List.append_assoc, List.take_append_of_le_length]
  · rw [List.take_of_length_le, Block.ofBytes_append]
    · exact Block.cstr_buffer key _
    · simp only [Block.length_ofBytes, List.length_append, CString.length_buffer,
        List.length_replicate]
      omega
  · simp only [Block.length_ofBytes, List.length_append, CString.length_buffer,
      List.length_replicate]
    omega

/-- A fresh cell is a cell of its key. -/
theorem Cell.key_fresh {key : CString} (hfit : key.strlen + 1 < keySize) :
    (Cell.fresh key).key = some key := by
  have hroom : key.strlen < dataSize := by
    simp only [keySize] at hfit
    simp only [dataSize]
    omega
  unfold Cell.key Cell.fresh
  rw [CharArray.bytes_write_buffer _ hroom, List.take_append, List.take_of_length_le]
  · exact Block.cstr_buffer key _
  · simp only [Block.length_ofBytes, CString.length_buffer]
    omega

theorem Cell.length_padded_key {key : CString} (hfit : key.strlen + 1 < keySize) :
    (Block.ofBytes (key.buffer ++ List.replicate (keySize - (key.strlen + 1)) 0)).length =
      keySize := by
  simp only [Block.length_ofBytes, List.length_append, CString.length_buffer,
    List.length_replicate]
  omega

/-- The status byte of a filled cell is the new status. -/
theorem Cell.status_fill {c : Cell} {key : CString} (h : c.key = some key)
    (hfit : key.strlen + 1 < keySize) (value : Option CString) (st : UInt8) :
    (c.fill key value st).status = some st := by
  unfold Cell.status
  rw [Cell.fill_bytes h hfit, List.append_assoc, List.getElem?_append_right
    (Cell.length_padded_key hfit).le, Cell.length_padded_key hfit]
  simp

/-- A value that fits is read back from the cell it was copied into. -/
theorem Cell.value_fill {c : Cell} {key : CString} (h : c.key = some key)
    (hfit : key.strlen + 1 < keySize) {value : CString} (hvalue : value.strlen + 1 < valueSize)
    (st : UInt8) : (c.fill key (some value) st).value = value := by
  have hdrop : (c.fill key (some value) st).bytes.drop (keySize + 1) =
      (Block.ofBytes value.buffer).read 0 valueSize := by
    rw [Cell.fill_bytes h hfit]
    apply List.drop_left'
    rw [List.length_append, Cell.length_padded_key hfit, List.length_singleton]
  unfold Cell.value
  rw [hdrop, Block.read, List.drop_zero, List.take_append, List.take_of_length_le]
  · exact Block.str_buffer value _
  · simp only [Block.length_ofBytes, CString.length_buffer]
    omega

/-! ## The whole table -/

section Enter

variable {key : CString} {created : Cell} {update : Cell → Cell}

/-- The cell of `key` after an update is the updated one, created if there was none. -/
theorem hashFind_enterWith_self (hcreated : created.key = some key)
    (hupdate : ∀ c : Cell, c.key = some key → (update c).key = some key) (t : Htab) :
    hashFind (hashEnterWith t key created update) key =
      some (update ((hashFind t key).getD created)) := by
  induction t with
  | nil => simp [hashFind, hashEnterWith, hupdate _ hcreated]
  | cons c t ih =>
      by_cases hc : c.key = some key
      · simp [hashFind, hashEnterWith, hc, hupdate c hc]
      · simpa [hashFind, hashEnterWith, hc] using ih

/-- The cells of other keys are not touched by an update. -/
theorem hashFind_enterWith_of_ne (hcreated : created.key = some key)
    (hupdate : ∀ c : Cell, c.key = some key → (update c).key = some key) (t : Htab)
    {other : CString} (hne : other ≠ key) :
    hashFind (hashEnterWith t key created update) other = hashFind t other := by
  have hother : ∀ c : Cell, c.key = some key → ¬ c.key = some other := by
    intro c hc ho
    exact hne (Option.some.inj (ho.symm.trans hc))
  induction t with
  | nil => simp [hashFind, hashEnterWith, hother _ (hupdate _ hcreated)]
  | cons c t ih =>
      by_cases hc : c.key = some key
      · simp [hashFind, hashEnterWith, hc, hne.symm, hother _ (hupdate c hc)]
      · by_cases ho : c.key = some other
        · simp [hashFind, hashEnterWith, ho, hne]
        · simpa [hashFind, hashEnterWith, hc, ho] using ih

/-- `hashEnter` creates a cell with indeterminate bytes behind the key. -/
theorem hashEnter_eq (t : Htab) :
    hashEnter t key update = hashEnterWith t key (Cell.fresh key) update := by
  induction t with
  | nil => rfl
  | cons c t ih => rw [hashEnter, hashEnterWith, ih]

end Enter

section Set

variable {key : CString} (hfit : key.strlen + 1 < keySize) {created : Cell}
  (hcreated : created.key = some key) (t : Htab)
include hfit hcreated

theorem hashFind_setWith_self (value : Option CString) (st : UInt8) :
    ∃ c : Cell, c.key = some key ∧
      hashFind (setHashTableWith t key value st created) key = some (c.fill key value st) := by
  refine ⟨(hashFind t key).getD created, ?_, ?_⟩
  · cases h : hashFind t key with
    | none => exact hcreated
    | some c => simpa using List.find?_some h
  · exact hashFind_enterWith_self hcreated (fun c hc => Cell.key_fill hc hfit value st) t

theorem cached_setWith_of_ne (value : Option CString) (st : UInt8) {other : CString}
    (hne : other ≠ key) :
    cached (setHashTableWith t key value st created) other = cached t other := by
  unfold cached setHashTableWith
  rw [hashFind_enterWith_of_ne hcreated (fun c hc => Cell.key_fill hc hfit value st) t hne]

/-- Storing a value that fits makes it the cached value of its key and of no other key. -/
theorem cached_setWith_live {value : CString} (hvalue : value.strlen + 1 < valueSize) :
    cached (setHashTableWith t key (some value) 0 created) =
      Function.update (cached t) key (some (some value)) := by
  funext other
  by_cases hne : other = key
  · subst hne
    obtain ⟨c, hc, hfind⟩ := hashFind_setWith_self hfit hcreated t (some value) 0
    rw [Function.update_self, cached, hfind, Option.map_some, Cell.status_fill hc hfit,
      Cell.value_fill hc hfit hvalue]
    rfl
  · rw [Function.update_of_ne hne, cached_setWith_of_ne hfit hcreated t _ _ hne]

/-- Setting only the status marks the key deleted and leaves every other key. -/
theorem cached_setWith_deleted :
    cached (setHashTableWith t key none 1 created) =
      Function.update (cached t) key (some none) := by
  funext other
  by_cases hne : other = key
  · subst hne
    obtain ⟨c, hc, hfind⟩ := hashFind_setWith_self hfit hcreated t none 1
    rw [Function.update_self, cached, hfind, Option.map_some, Cell.status_fill hc hfit]
    rfl
  · rw [Function.update_of_ne hne, cached_setWith_of_ne hfit hcreated t _ _ hne]

omit hfit hcreated in
/-- `setHashTable` has dynahash create cells with indeterminate bytes behind the key. -/
theorem setHashTable_eq (value : Option CString) (st : UInt8) :
    setHashTable t key value st = setHashTableWith t key value st (Cell.fresh key) :=
  hashEnter_eq t

omit hcreated in
theorem cached_set_live {value : CString} (hvalue : value.strlen + 1 < valueSize) :
    cached (setHashTable t key (some value) 0) =
      Function.update (cached t) key (some (some value)) := by
  rw [setHashTable_eq]
  exact cached_setWith_live hfit (Cell.key_fresh hfit) t hvalue

omit hcreated in
theorem cached_set_deleted :
    cached (setHashTable t key none 1) = Function.update (cached t) key (some none) := by
  rw [setHashTable_eq]
  exact cached_setWith_deleted hfit (Cell.key_fresh hfit) t

end Set

end PgRedisProxy
