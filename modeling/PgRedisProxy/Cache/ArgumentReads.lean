import PgRedisProxy.Base.Access
import PgRedisProxy.Cache.ProxyHash

/-!
# What a cache update reads (`set_hash_table`)

The arguments of `set_hash_table` are buffers that end with their terminators, and other
memory is behind them. `setAccesses` is every access to the two strings and to the cell, and
`Cell.fillFrom` what is left in the cell. `reads_arguments_iff`, the main result, says which
updates stay inside the strings: those without a value, of a key that is not empty.
-/

namespace PgRedisProxy

open CLang

/-- A string that is handed to `set_hash_table`, with the memory behind its terminator. -/
structure Argument where
  text : CString
  behind : List UInt8

namespace Argument

/-- The memory that begins with the string. -/
def memory (a : Argument) : List UInt8 :=
  a.text.buffer ++ a.behind

/-- `strlen(a + 1)` -/
def strlenNext (a : Argument) : Nat :=
  ((a.memory.drop 1).takeWhile (· ≠ 0)).length

end Argument

/-- What `set_hash_table` makes accesses to. -/
inductive SetObject where
  | key
  | value
  | cell
  deriving DecidableEq

/-- The accesses of `set_hash_table`, statement by statement: `strlen(key + 1)` and the copy of that
many bytes, `strlen(key)` and the zeros behind the key, the status, and the copy of the value. -/
def setAccesses (key : Argument) (value : Option Argument) : List (Access SetObject) :=
  [⟨.key, 1, key.strlenNext + 1⟩, ⟨.key, 0, key.strlenNext⟩, ⟨.cell, 0, key.strlenNext⟩,
      ⟨.key, 0, key.text.strlen + 1⟩] ++
    (if key.text.strlen + 1 < keySize then
      [⟨.cell, key.text.strlen + 1, keySize - (key.text.strlen + 1)⟩] else []) ++
    [⟨.cell, keySize, 1⟩] ++
    match value with
    | some _ => [⟨.value, 0, valueSize⟩, ⟨.cell, keySize + 1, valueSize⟩]
    | none => []

/-- The sizes of the two strings, terminators included, and of a cell. -/
def setSize (key : CString) (value : Option CString) : SetObject → Nat
  | .key => key.strlen + 1
  | .value => (value.map fun value => value.strlen + 1).getD 0
  | .cell => dataSize

/-- What `set_hash_table` writes into the cell it got, with the bytes it reads from memory. -/
def Cell.fillFrom (c : Cell) (key : Argument) (value : Option Argument) (newStatus : UInt8) :
    Cell :=
  let c := c.write 0 ((Block.ofBytes key.memory).read 0 key.strlenNext)
  let c :=
    if key.text.strlen + 1 < keySize then
      c.write (key.text.strlen + 1)
        (Block.ofBytes (List.replicate (keySize - (key.text.strlen + 1)) 0))
    else c
  let c := c.write keySize [some newStatus]
  match value with
  | some value => c.write (keySize + 1) ((Block.ofBytes value.memory).read 0 valueSize)
  | none => c

/-- The update stays inside its arguments and its cell, and what it stores does not depend on the
memory behind them. -/
structure ReadsArguments (key : CString) (value : Option CString) : Prop where
  inside : ∀ keyBehind valueBehind, AllInside (setSize key value)
    (setAccesses ⟨key, keyBehind⟩ (value.map fun value => ⟨value, valueBehind⟩))
  stored_eq : ∀ (c : Cell) (st : UInt8)
      (keyBehind keyBehind' valueBehind valueBehind' : List UInt8),
    c.fillFrom ⟨key, keyBehind⟩ (value.map fun value => ⟨value, valueBehind⟩) st =
      c.fillFrom ⟨key, keyBehind'⟩ (value.map fun value => ⟨value, valueBehind'⟩) st

section Key

variable {key : CString}

/-- The string from the second byte of a key on ends where the key does. -/
theorem strlenNext_eq (hne : key ≠ CString.empty) (behind : List UInt8) :
    (Argument.mk key behind).strlenNext = key.bytes.tail.length := by
  obtain ⟨bytes, hnoNul⟩ := key
  cases bytes with
  | nil => exact absurd rfl hne
  | cons c bytes =>
      have hbytes : ∀ b ∈ bytes, decide (b ≠ 0) = true := by
        intro b hb
        rw [decide_eq_true_eq]
        rintro rfl
        exact hnoNul (List.mem_cons_of_mem c hb)
      simp only [Argument.strlenNext, Argument.memory, CString.buffer, List.cons_append,
        List.drop_succ_cons, List.drop_zero, List.append_assoc, List.tail_cons]
      rw [List.takeWhile_append_of_pos hbytes]
      simp

/-- The copy of the key takes all of its bytes but the last. -/
theorem read_key_eq (hne : key ≠ CString.empty) (behind : List UInt8) :
    (Block.ofBytes (Argument.mk key behind).memory).read 0 (Argument.mk key behind).strlenNext =
      Block.ofBytes (key.bytes.take key.bytes.tail.length) := by
  have hle : key.bytes.tail.length ≤ key.bytes.length := by
    rw [List.length_tail]
    omega
  rw [strlenNext_eq hne, Block.read_of_le, List.drop_zero]
  · simp only [Argument.memory, CString.buffer, Block.ofBytes, ← List.map_take]
    rw [List.append_assoc, List.take_append_of_le_length hle]
  · simp only [Block.length_ofBytes, Argument.memory, CString.buffer, List.length_append]
    omega

/-- What is stored is what `Cell.fill` says, as far as the bytes are those of the arguments. -/
theorem Cell.fillFrom_eq_fill (hne : key ≠ CString.empty) (c : Cell) (behind : List UInt8)
    (value : Option CString) (st : UInt8) :
    c.fillFrom ⟨key, behind⟩ (value.map fun value => ⟨value, []⟩) st = c.fill key value st := by
  unfold Cell.fillFrom Cell.fill
  rw [read_key_eq hne]
  cases value with
  | none => rfl
  | some value =>
      have hmemory : (Argument.mk value []).memory = value.buffer := List.append_nil _
      simp only [Option.map_some, hmemory]

/-- Whatever is stored, an update of a key that is not empty writes only inside of its cell. -/
theorem cell_inside (hne : key ≠ CString.empty) (hfit : key.strlen + 1 < keySize)
    (behind : List UInt8) (value : Option Argument) :
    ∀ a ∈ setAccesses ⟨key, behind⟩ value, a.object = .cell → a.off + a.count ≤ dataSize := by
  have hcopied : key.bytes.tail.length ≤ key.strlen := by
    rw [List.length_tail]
    exact Nat.sub_le _ _
  intro a ha hcell
  simp only [setAccesses, strlenNext_eq hne, if_pos hfit, List.mem_append, List.mem_cons,
    List.not_mem_nil, or_false] at ha
  simp only [keySize] at ha hfit
  rcases ha with (((rfl | rfl | rfl | rfl) | rfl) | rfl) | ha
  · cases hcell
  · cases hcell
  · simp only [dataSize]
    omega
  · cases hcell
  · simp only [dataSize]
    omega
  · simp [dataSize]
  · cases value with
    | none => simp at ha
    | some value =>
        simp only [List.mem_cons, List.not_mem_nil, or_false] at ha
        rcases ha with rfl | rfl
        · cases hcell
        · simp [dataSize, valueSize, keySize]

/-- An update without a value, of a key that is not empty, stays inside. -/
theorem allInside_deleted (hne : key ≠ CString.empty) (hfit : key.strlen + 1 < keySize)
    (behind : List UInt8) :
    AllInside (setSize key none) (setAccesses ⟨key, behind⟩ none) := by
  have hpos : 0 < key.bytes.length := by
    refine List.length_pos_of_ne_nil fun hnil => hne ?_
    obtain ⟨bytes, hnoNul⟩ := key
    cases hnil
    rfl
  intro a ha
  by_cases hcell : a.object = .cell
  · have hinside := cell_inside hne hfit behind none a ha hcell
    rwa [Access.Inside, hcell]
  · simp only [setAccesses, strlenNext_eq hne, if_pos hfit, List.mem_append, List.mem_cons,
      List.not_mem_nil, or_false] at ha
    rcases ha with ((rfl | rfl | rfl | rfl) | rfl) | rfl
    · simp only [Access.Inside, setSize, CString.strlen, List.length_tail]
      omega
    · simp only [Access.Inside, setSize, CString.strlen, List.length_tail]
      omega
    · exact absurd rfl hcell
    · simp [Access.Inside, setSize]
    · exact absurd rfl hcell
    · exact absurd rfl hcell

end Key

/-- An update with a key and a value that fit reads only its arguments exactly if it has no value
and its key is not empty. -/
theorem reads_arguments_iff {key : CString} (hkey : key.strlen + 1 < keySize)
    {value : Option CString} (hvalue : ∀ v ∈ value, v.strlen + 1 < valueSize) :
    ReadsArguments key value ↔ key ≠ CString.empty ∧ value = none := by
  constructor
  · intro hreads
    have hinside := hreads.inside [] []
    constructor
    · -- the second byte of an empty key is behind its terminator
      rintro rfl
      have hnext := hinside ⟨.key, 1, _⟩ (by simp [setAccesses]; exact .inl rfl)
      simp only [Access.Inside, setSize, CString.strlen_empty] at hnext
      omega
    · -- the copy takes more bytes than a value that fits has
      cases hv : value with
      | none => rfl
      | some v =>
          subst hv
          have hcopy := hinside ⟨.value, 0, valueSize⟩ (by simp [setAccesses])
          have hfits := hvalue v rfl
          simp only [Access.Inside, setSize, Option.map_some, Option.getD_some] at hcopy
          omega
  · rintro ⟨hne, rfl⟩
    refine ⟨fun keyBehind _ => allInside_deleted hne hkey keyBehind, fun c st b b' _ _ => ?_⟩
    exact (c.fillFrom_eq_fill hne b none st).trans (c.fillFrom_eq_fill hne b' none st).symm

/-- `DEL k` reads only its argument. -/
theorem reads_arguments_iff_deleted :
    ReadsArguments ⟨ascii "k", by decide⟩ none :=
  (reads_arguments_iff (by decide) (by simp)).mpr ⟨by decide, rfl⟩

set_option maxRecDepth 4000 in
/-- `SET k a` reads behind the value, and what it finds there is stored in the cell. -/
theorem set_stores_memory_behind :
    ¬ ReadsArguments ⟨ascii "k", by decide⟩ (some ⟨ascii "a", by decide⟩) ∧
      (Cell.fresh ⟨ascii "k", by decide⟩).fillFrom ⟨⟨ascii "k", by decide⟩, []⟩
          (some ⟨⟨ascii "a", by decide⟩, [1]⟩) 0 ≠
        (Cell.fresh ⟨ascii "k", by decide⟩).fillFrom ⟨⟨ascii "k", by decide⟩, []⟩
          (some ⟨⟨ascii "a", by decide⟩, [2]⟩) 0 := by
  have hdiffers : (Cell.fresh ⟨ascii "k", by decide⟩).fillFrom ⟨⟨ascii "k", by decide⟩, []⟩
        (some ⟨⟨ascii "a", by decide⟩, [1]⟩) 0 ≠
      (Cell.fresh ⟨ascii "k", by decide⟩).fillFrom ⟨⟨ascii "k", by decide⟩, []⟩
        (some ⟨⟨ascii "a", by decide⟩, [2]⟩) 0 := by
    intro heq
    have hbyte := congrArg (fun c : Cell => c.bytes[103]?) heq
    revert hbyte
    decide
  exact ⟨fun hreads => hdiffers (hreads.stored_eq _ 0 [] [] [1] [2]), hdiffers⟩

end PgRedisProxy
