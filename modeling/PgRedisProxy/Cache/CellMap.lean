import PgRedisProxy.Base.KeyValue
import PgRedisProxy.Cache.ProxyHash

/-!
# The cache as a map with tombstones

A `SetCall` is a call of `set_hash_table` as the requests make it: for a key that fits, and
with status 0 and a value that fits, or with status 1 and no value. `cell_map` is the main
result: whatever is behind the key in the cells that dynahash creates, and in whatever order
the calls come, `check_hash_table` returns what the last call for a key has set.
-/

namespace PgRedisProxy

open CLang KeyValue

/-- A key that fits the key bytes of a cell. -/
structure CacheKey where
  text : CString
  ne_empty : text ≠ CString.empty
  fits : text.strlen + 1 < keySize

/-- A value that fits the value bytes of a cell. -/
structure CacheValue where
  text : CString
  fits : text.strlen + 1 < valueSize

/-- A call of `set_hash_table`. `created` is the cell that dynahash hands out if it has none of the
key: the key is in it, and anything behind. -/
structure SetCall where
  key : CacheKey
  value : Option CacheValue
  created : Cell
  created_key : created.key = some key.text

namespace SetCall

/-- The status of the call: 1 if its value is `NULL`. -/
def newStatus (call : SetCall) : UInt8 :=
  match call.value with
  | some _ => 0
  | none => 1

/-- The table after the call. -/
def apply (t : Htab) (call : SetCall) : Htab :=
  setHashTableWith t call.key.text (call.value.map CacheValue.text) call.newStatus call.created

/-- What the call says about its key. -/
def toWrite (call : SetCall) : Write CString CString :=
  (call.key.text, call.value.map CacheValue.text)

end SetCall

/-- The table after some calls, which begins without cells. -/
def setAll (calls : List SetCall) : Htab :=
  calls.foldl SetCall.apply []

/-- The key bytes of a cell: the key, and zeros behind it. -/
def paddedKey (key : CString) : Block :=
  Block.ofBytes (key.buffer ++ List.replicate (keySize - (key.strlen + 1)) 0)

/-- The calls make a map of the table. `check_eq` is what is found of a key, `check_other` that the
next call changes nothing for other keys; `found` and `padded` are what later calls find the cells
by, and no two cells are of one key. -/
structure KeepsMap (calls : List SetCall) : Prop where
  check_eq : ∀ key : CacheKey, checkHashTable (setAll calls) key.text =
    match lastWrite (calls.map SetCall.toWrite) key.text with
    | none => (none, false)
    | some none => (none, true)
    | some (some value) => (some value, true)
  check_other : ∀ (call : SetCall) (other : CacheKey), other.text ≠ call.key.text →
    checkHashTable (setAll (calls ++ [call])) other.text = checkHashTable (setAll calls) other.text
  found : ∀ call ∈ calls, ∃ c, hashFind (setAll calls) call.key.text = some c ∧
    c.bytes.take keySize = paddedKey call.key.text
  padded : ∀ c ∈ setAll calls, ∃ key : CacheKey, c.bytes.take keySize = paddedKey key.text
  nodup : ((setAll calls).map Cell.key).Nodup

theorem setAll_concat (calls : List SetCall) (call : SetCall) :
    setAll (calls ++ [call]) = call.apply (setAll calls) := by
  rw [setAll, setAll, List.foldl_append, List.foldl_cons, List.foldl_nil]

/-! ## The cells -/

/-- The key bytes of a cell that was filled. -/
theorem Cell.take_fill {c : Cell} {key : CString} (h : c.key = some key)
    (hfit : key.strlen + 1 < keySize) (value : Option CString) (st : UInt8) :
    (c.fill key value st).bytes.take keySize = paddedKey key := by
  rw [Cell.fill_bytes h hfit, List.append_assoc]
  exact List.take_left' (Cell.length_padded_key hfit)

section Enter

variable {key : CString} {created : Cell} {update : Cell → Cell}

/-- The cells of a table after an update are those before it, and the updated one. -/
theorem mem_enterWith (hcreated : created.key = some key) {t : Htab} {c : Cell}
    (hc : c ∈ hashEnterWith t key created update) :
    c ∈ t ∨ ∃ old : Cell, old.key = some key ∧ c = update old := by
  induction t with
  | nil => exact .inr ⟨created, hcreated, List.mem_singleton.mp hc⟩
  | cons d t ih =>
      rw [hashEnterWith] at hc
      split at hc
      · next hd =>
          rcases List.mem_cons.mp hc with rfl | hc
          · exact .inr ⟨d, hd, rfl⟩
          · exact .inl (List.mem_cons_of_mem d hc)
      · rcases List.mem_cons.mp hc with rfl | hc
        · exact .inl List.mem_cons_self
        · exact (ih hc).imp_left (List.mem_cons_of_mem d)

/-- The keys of a table after an update: the key is new only if no cell had it. -/
theorem keys_enterWith (hcreated : created.key = some key)
    (hupdate : ∀ c : Cell, c.key = some key → (update c).key = some key) (t : Htab) :
    (hashEnterWith t key created update).map Cell.key =
      if some key ∈ t.map Cell.key then t.map Cell.key else t.map Cell.key ++ [some key] := by
  induction t with
  | nil => simp [hashEnterWith, hupdate created hcreated]
  | cons d t ih =>
      by_cases hd : d.key = some key
      · simp [hashEnterWith, hd, hupdate d hd]
      · have hmem : some key ∈ (d :: t).map Cell.key ↔ some key ∈ t.map Cell.key := by
          rw [List.map_cons, List.mem_cons, or_iff_right (Ne.symm hd)]
        rw [hashEnterWith, if_neg hd, List.map_cons, ih]
        by_cases hold : some key ∈ t.map Cell.key
        · rw [if_pos hold, if_pos (hmem.mpr hold), List.map_cons]
        · rw [if_neg hold, if_neg (mt hmem.mp hold), List.map_cons, List.cons_append]

end Enter

/-! ## The calls -/

section Calls

variable (call : SetCall) (t : Htab)

/-- One call is a write to the map. -/
theorem SetCall.cached_apply :
    cached (call.apply t) = Function.update (cached t) call.toWrite.1 (some call.toWrite.2) := by
  unfold SetCall.apply SetCall.toWrite SetCall.newStatus
  cases call.value with
  | none => exact cached_setWith_deleted call.key.fits call.created_key t
  | some value => exact cached_setWith_live call.key.fits call.created_key t value.fits

/-- The cell that a call leaves for its key. -/
theorem SetCall.hashFind_apply :
    ∃ c, hashFind (call.apply t) call.key.text = some c ∧
      c.bytes.take keySize = paddedKey call.key.text := by
  obtain ⟨c, hc, hfind⟩ := hashFind_setWith_self call.key.fits call.created_key t
    (call.value.map CacheValue.text) call.newStatus
  exact ⟨_, hfind, Cell.take_fill hc call.key.fits _ _⟩

/-- A call leaves the cells of other keys. -/
theorem SetCall.hashFind_apply_of_ne {other : CString} (hne : other ≠ call.key.text) :
    hashFind (call.apply t) other = hashFind t other :=
  hashFind_enterWith_of_ne call.created_key
    (fun _ hc => Cell.key_fill hc call.key.fits _ _) t hne

theorem SetCall.mem_apply {c : Cell} (hc : c ∈ call.apply t) :
    c ∈ t ∨ c.bytes.take keySize = paddedKey call.key.text := by
  refine (mem_enterWith call.created_key hc).imp_right ?_
  rintro ⟨old, hold, rfl⟩
  exact Cell.take_fill hold call.key.fits _ _

theorem SetCall.nodup_apply (ht : (t.map Cell.key).Nodup) :
    ((call.apply t).map Cell.key).Nodup := by
  have hkeys := keys_enterWith call.created_key (fun _ hc => Cell.key_fill hc call.key.fits
    (call.value.map CacheValue.text) call.newStatus) t
  have happly : call.apply t = hashEnterWith t call.key.text call.created
      fun c => c.fill call.key.text (call.value.map CacheValue.text) call.newStatus := rfl
  rw [happly, hkeys]
  split
  · exact ht
  · next hnew =>
      rw [List.nodup_append]
      refine ⟨ht, List.nodup_singleton _, fun k hk k' hk' => ?_⟩
      rw [List.mem_singleton.mp hk']
      rintro rfl
      exact hnew hk

end Calls

/-- What the table knows after some calls is what they last say. -/
theorem cached_setAll (calls : List SetCall) :
    cached (setAll calls) = lastWrite (calls.map SetCall.toWrite) := by
  induction calls using List.reverseRecOn with
  | nil => rfl
  | append_singleton calls call ih =>
      rw [setAll_concat, call.cached_apply, ih, List.map_append, List.map_singleton,
        lastWrite_concat]

/-- Every key that was set is found in its cell, whatever was set behind it. -/
theorem found_setAll (calls : List SetCall) :
    ∀ call ∈ calls, ∃ c, hashFind (setAll calls) call.key.text = some c ∧
      c.bytes.take keySize = paddedKey call.key.text := by
  induction calls using List.reverseRecOn with
  | nil => simp
  | append_singleton calls last ih =>
      intro call hcall
      rw [setAll_concat]
      by_cases hkey : call.key.text = last.key.text
      · rw [hkey]
        exact last.hashFind_apply (setAll calls)
      · rw [last.hashFind_apply_of_ne (setAll calls) hkey]
        refine ih call ((List.mem_append.mp hcall).resolve_right fun hlast => hkey ?_)
        rw [List.mem_singleton.mp hlast]

/-- Any calls, for keys and values that fit, and whatever the cells that dynahash creates hold
behind their keys: the table is a map with tombstones. -/
theorem cell_map (calls : List SetCall) : KeepsMap calls where
  check_eq := by
    intro key
    rw [checkHashTable_eq, cached_setAll]
    cases lastWrite (calls.map SetCall.toWrite) key.text with
    | none => rfl
    | some entry => cases entry <;> rfl
  check_other := by
    intro call other hne
    rw [setAll_concat, checkHashTable, checkHashTable, call.hashFind_apply_of_ne _ hne]
  found := found_setAll calls
  padded := by
    induction calls using List.reverseRecOn with
    | nil => simp [setAll]
    | append_singleton calls call ih =>
        intro c hc
        rw [setAll_concat] at hc
        rcases call.mem_apply (setAll calls) hc with hold | hnew
        · exact ih c hold
        · exact ⟨call.key, hnew⟩
  nodup := by
    induction calls using List.reverseRecOn with
    | nil => exact List.nodup_nil
    | append_singleton calls call ih =>
        rw [setAll_concat]
        exact call.nodup_apply (setAll calls) ih

end PgRedisProxy
