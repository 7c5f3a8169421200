import PgRedisProxy.Base.Bytes

/-!
# Allocated blocks of C memory

A block is what one `malloc`, array, or structure member occupies. Each byte is
known or indeterminate, and a pointer into a block is the rest of the block from
there. `write?` is a store that must land inside the block, `write` one whose
bytes outside the block are dropped, and `read` fills bytes past the end of the
source with indeterminate ones. `cstr_eq_some_iff` says which blocks hold a C
string.
-/

namespace CLang

/-- The bytes of an allocation; `none` is an indeterminate byte. -/
abbrev Block := List (Option UInt8)

namespace Block

/-- A fresh allocation of `n` bytes. -/
def alloc (n : Nat) : Block :=
  List.replicate n none

/-- A block that holds exactly these bytes. -/
def ofBytes (bytes : List UInt8) : Block :=
  bytes.map some

/-- The `n` bytes of `src` from `off` on. Past the end of `src` they are indeterminate. -/
def read (src : Block) (off n : Nat) : Block :=
  (src.drop off ++ alloc n).take n

/-- `b` with the bytes `src` written from `off` on, as far as they lie inside `b`. -/
def write (b : Block) (off : Nat) (src : Block) : Block :=
  b.take off ++ src.take (b.length - off) ++ b.drop (off + src.length)

/-- The write of `src` at `off`, if it lies inside `b`. -/
def write? (b : Block) (off : Nat) (src : Block) : Option Block :=
  if off + src.length ≤ b.length then some (b.write off src) else none

/-- `malloc(n)`, which fails for a size that is negative before its conversion to `size_t`. -/
def malloc (n : Int) : Option Block :=
  if n < 0 then none else some (alloc n.toNat)

/-- `memcpy(b + off, src + srcOff, n)`, if the length is not negative and the bytes land inside
`b`. -/
def copy? (b : Block) (off : Nat) (src : Block) (srcOff : Nat) (n : Int) : Option Block :=
  if n < 0 then none else b.write? off (src.read srcOff n.toNat)

/-- `realloc(b, n)`, which keeps the bytes up to the smaller size and only frees for the size
zero. -/
def realloc (b : Block) (n : Nat) : Option Block :=
  if n = 0 then none else some (b.read 0 n)

/-- `memcpy(b, b + off, n)` inside one block, if the length is not negative and the two ranges lie
inside the block and do not overlap. -/
def copyDown? (b : Block) (off : Nat) (n : Int) : Option Block :=
  if 0 ≤ n ∧ off + n.toNat ≤ b.length ∧ n.toNat ≤ off then some (b.write 0 (b.read off n.toNat))
  else none

/-- The C string that starts at the beginning of a block, if the block holds a terminator
and every byte before it is known. -/
def cstr : Block → Option CString
  | [] => none
  | none :: _ => none
  | some c :: rest =>
      if h : c = 0 then some CString.empty
      else (cstr rest).map fun s => ⟨c :: s.bytes, by simp [s.noNul, Ne.symm h]⟩

/-- The C string at the beginning of a block, empty when there is none. -/
def str (b : Block) : CString :=
  b.cstr.getD CString.empty

@[simp] theorem length_alloc (n : Nat) : (alloc n).length = n := by
  simp [alloc]

@[simp] theorem length_ofBytes (bytes : List UInt8) : (ofBytes bytes).length = bytes.length := by
  simp [ofBytes]

@[simp] theorem ofBytes_nil : ofBytes [] = [] := rfl

@[simp] theorem ofBytes_cons (c : UInt8) (bytes : List UInt8) :
    ofBytes (c :: bytes) = some c :: ofBytes bytes := rfl

@[simp] theorem ofBytes_append (left right : List UInt8) :
    ofBytes (left ++ right) = ofBytes left ++ ofBytes right := by
  simp [ofBytes]

/-! ## Reading and writing -/

@[simp] theorem length_read (src : Block) (off n : Nat) : (src.read off n).length = n := by
  simp [read]

/-- Reading a range that lies inside the block gives its bytes. -/
theorem read_of_le {src : Block} {off n : Nat} (h : off + n ≤ src.length) :
    src.read off n = (src.drop off).take n := by
  unfold read
  rw [List.take_append_of_le_length]
  rw [List.length_drop]
  omega

@[simp] theorem length_write (b : Block) (off : Nat) (src : Block) :
    (b.write off src).length = b.length := by
  simp only [write, List.length_append, List.length_take, List.length_drop]
  omega

theorem write?_of_le {b : Block} {off : Nat} {src : Block} (h : off + src.length ≤ b.length) :
    b.write? off src = some (b.write off src) :=
  if_pos h

/-- A write between two parts of a block replaces what is between them. -/
theorem write_middle (left old right src : Block) (h : src.length = old.length) :
    (left ++ old ++ right).write left.length src = left ++ src ++ right := by
  have htake : src.take ((left ++ old ++ right).length - left.length) = src := by
    rw [List.take_of_length_le]
    simp only [List.length_append]
    omega
  have hdrop : (left ++ old ++ right).drop (left.length + src.length) = right := by
    rw [h, ← List.length_append, List.drop_left]
  rw [write, htake, hdrop]
  simp [List.append_assoc]

/-- Writing the bytes that are already there changes nothing. -/
theorem write_self (left src right : Block) :
    (left ++ src ++ right).write left.length src = left ++ src ++ right :=
  write_middle left src right src rfl

/-- A write right after the first part of a block, with room for it. -/
theorem write?_append {done src rest : Block} {off : Nat} (hoff : off = done.length)
    (h : src.length ≤ rest.length) :
    write? (done ++ rest) off src = some (done ++ src ++ rest.drop src.length) := by
  subst hoff
  rw [write?_of_le (by simpa using h)]
  have hmiddle := write_middle done (rest.take src.length) (rest.drop src.length) src
    (by rw [List.length_take]; omega)
  rw [List.append_assoc, List.take_append_drop] at hmiddle
  rw [hmiddle]

/-- Reading known bytes that lie inside the block. -/
theorem read_ofBytes (before bytes : List UInt8) (after : Block) {off : Nat}
    (hoff : off = before.length) :
    read (ofBytes before ++ (ofBytes bytes ++ after)) off bytes.length = ofBytes bytes := by
  subst hoff
  have hbefore : (ofBytes before).length = before.length := length_ofBytes before
  have hbytes : (ofBytes bytes).length = bytes.length := length_ofBytes bytes
  rw [read_of_le (by simp)]
  rw [List.drop_left' hbefore, List.take_left' hbytes]

/-- Reading all of a block of known bytes. -/
theorem read_all_ofBytes (bytes : List UInt8) :
    (ofBytes bytes).read 0 bytes.length = ofBytes bytes := by
  have hlength : (ofBytes bytes).length = bytes.length := length_ofBytes bytes
  rw [read_of_le (by rw [hlength, Nat.zero_add]), List.drop_zero, ← hlength, List.take_length]

/-- A block that is made larger keeps its bytes. -/
theorem realloc_add {b : Block} {n k : Nat} (hn : n ≤ b.length) (hne : n + k ≠ 0) :
    ∃ rest, b.realloc (n + k) = some (b.take n ++ rest) ∧ rest.length = k := by
  refine ⟨(b.drop n ++ alloc (n + k)).take k, ?_, ?_⟩
  · rw [realloc, if_neg hne, read, List.drop_zero, List.take_add, List.take_append_of_le_length hn,
      List.drop_append_of_le_length hn]
  · rw [List.length_take, List.length_append, length_alloc]
    omega

/-- A write at the beginning that fits leaves what comes after it. -/
theorem write_zero {b src : Block} (h : src.length ≤ b.length) :
    b.write 0 src = src ++ b.drop src.length := by
  simp [write, List.take_of_length_le h]

/-! ## Filling a block from its beginning -/

/-- The block starts with these bytes, and `room` more bytes follow them. -/
def Holds (b : Block) (bytes : List UInt8) (room : Nat) : Prop :=
  ∃ rest, b = ofBytes bytes ++ rest ∧ rest.length = room

theorem holds_alloc (n : Nat) : Holds (alloc n) [] n :=
  ⟨alloc n, rfl, length_alloc n⟩

theorem holds_malloc {n : Int} {room : Nat} (h : n = room) :
    ∃ b, malloc n = some b ∧ Holds b [] room := by
  subst h
  exact ⟨alloc room, by simp [malloc], holds_alloc room⟩

/-- Known bytes, and then others, written right after what the block holds. -/
theorem Holds.write_append {b : Block} {done : List UInt8} {room : Nat} (hb : Holds b done room)
    (off : Nat) (bytes : List UInt8) (extra : Block) (hoff : off = done.length)
    (h : bytes.length + extra.length ≤ room) :
    ∃ b', write? b off (ofBytes bytes ++ extra) = some b' ∧
      Holds b' (done ++ bytes) (room - bytes.length) := by
  obtain ⟨rest, rfl, hrest⟩ := hb
  refine ⟨_, write?_append (by simpa using hoff) (by simpa [hrest] using h),
    extra ++ rest.drop (bytes.length + extra.length), by simp, ?_⟩
  simp only [List.length_append, List.length_drop, hrest]
  omega

/-- Known bytes written right after what the block holds. -/
theorem Holds.write {b : Block} {done : List UInt8} {room : Nat} (hb : Holds b done room)
    (off : Nat) (bytes : List UInt8) (hoff : off = done.length) (h : bytes.length ≤ room) :
    ∃ b', write? b off (ofBytes bytes) = some b' ∧
      Holds b' (done ++ bytes) (room - bytes.length) := by
  simpa using hb.write_append off bytes [] hoff (by simpa using h)

/-- A block without more room is known. -/
theorem Holds.eq_ofBytes {b : Block} {bytes : List UInt8} (hb : Holds b bytes 0) :
    b = ofBytes bytes := by
  obtain ⟨rest, rfl, hrest⟩ := hb
  rw [List.eq_nil_of_length_eq_zero hrest, List.append_nil]

/-! ## Strings in blocks -/

/-- A string's buffer reads as the string, whatever follows it. -/
theorem cstr_buffer (s : CString) (rest : Block) :
    cstr (ofBytes s.buffer ++ rest) = some s := by
  obtain ⟨bytes, hs⟩ := s
  induction bytes with
  | nil => simp [CString.buffer, cstr, CString.empty]
  | cons c bytes ih =>
      have hc : c ≠ 0 := fun h => hs (by simp [h])
      have hrest : cstr (ofBytes (CString.buffer ⟨bytes, fun h => hs (by simp [h])⟩) ++ rest) =
          some ⟨bytes, fun h => hs (by simp [h])⟩ := ih _
      simp only [CString.buffer, List.cons_append, ofBytes_cons, cstr, hc, dite_false]
      simp only [CString.buffer] at hrest
      rw [hrest]
      rfl

/-- A block holds the string `s` at its beginning exactly when it starts with `s` and a NUL. -/
theorem cstr_eq_some_iff {b : Block} {s : CString} :
    cstr b = some s ↔ ∃ rest, b = ofBytes s.buffer ++ rest := by
  constructor
  · intro h
    induction b generalizing s with
    | nil => simp [cstr] at h
    | cons c b ih =>
        cases c with
        | none => simp [cstr] at h
        | some c =>
            by_cases hc : c = 0
            · subst hc
              simp only [cstr, dite_true, Option.some.injEq] at h
              subst h
              exact ⟨b, by simp [CString.buffer]⟩
            · simp only [cstr, hc, dite_false, Option.map_eq_some_iff] at h
              obtain ⟨tail, htail, rfl⟩ := h
              obtain ⟨rest, rfl⟩ := ih htail
              exact ⟨rest, by simp [CString.buffer]⟩
  · rintro ⟨rest, rfl⟩
    exact cstr_buffer s rest

@[simp] theorem str_buffer (s : CString) (rest : Block) : str (ofBytes s.buffer ++ rest) = s := by
  simp [str, cstr_buffer]

end Block

/-- A `char` array of `n` bytes. -/
structure CharArray (n : Nat) where
  bytes : Block
  size : bytes.length = n

namespace CharArray

variable {n : Nat}

/-- An array nothing has been written to. -/
def uninit (n : Nat) : CharArray n :=
  ⟨Block.alloc n, Block.length_alloc n⟩

/-- `a` with `src` written from `off` on. -/
def write (a : CharArray n) (off : Nat) (src : Block) : CharArray n :=
  ⟨a.bytes.write off src, by rw [Block.length_write, a.size]⟩

/-- The string at the beginning of the array. -/
def str (a : CharArray n) : CString :=
  a.bytes.str

/-- A string copied into an array with room for it is read back. -/
theorem bytes_write_buffer (a : CharArray n) {s : CString} (h : s.strlen < n) :
    (a.write 0 (Block.ofBytes s.buffer)).bytes =
      Block.ofBytes s.buffer ++ a.bytes.drop (s.strlen + 1) := by
  have hlen : (Block.ofBytes s.buffer).length ≤ a.bytes.length := by
    rw [Block.length_ofBytes, CString.length_buffer, a.size]
    omega
  change a.bytes.write 0 _ = _
  rw [Block.write_zero hlen, Block.length_ofBytes, CString.length_buffer]

@[simp] theorem str_write_buffer (a : CharArray n) {s : CString} (h : s.strlen < n) :
    (a.write 0 (Block.ofBytes s.buffer)).str = s := by
  unfold str
  rw [a.bytes_write_buffer h, Block.str_buffer]

end CharArray

end CLang
