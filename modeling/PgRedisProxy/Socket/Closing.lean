import Mathlib.Data.List.ReduceOption
import PgRedisProxy.Base.Heap
import PgRedisProxy.Socket.Trace

/-!
# The objects of a connection

`Objects` is what is allocated for a connection and which pointers to it are kept: the
slots of `argv` as set or not, and each object as live or freed. `Objects.run` follows
the bytes the parser examines, with what `parse_cli_mes` and `on_read_cb` allocate and
free for each, and `Objects.close` is how a connection is closed. They have no result
once a slot that is not set or an object that is not live is accessed.
`Conn.Accepted.close_clean_iff` is the main result.
-/

namespace PgRedisProxy

open CLang Machine

/-- What is allocated for a connection: the two watchers and `Tsocket_data`, and of its members the
ones that say what else is. A slot of `argv` is `none` until it is set. `complete` is
`exit_status == ALL`. -/
structure Objects where
  heap : Heap
  readHandle : Nat
  writeHandle : Nat
  socketData : Nat
  argc : Int
  argv : Option (Nat × List (Option Nat))
  parsingStr : Option Nat
  answer : Option Nat
  complete : Bool

namespace Objects

/-- `on_accept_cb` -/
def accept : Objects where
  heap := [true, true, true]
  socketData := 0
  readHandle := 1
  writeHandle := 2
  argc := -1
  argv := none
  parsingStr := none
  answer := none
  complete := false

/-- `argv[i]`, which must be set. -/
def slot (o : Objects) (heap : Heap) (i : Nat) : Option Nat := do
  let (array, slots) ← o.argv
  heap.use array
  slots[i]?.join

/-- `free(argv[i])` for each of so many `i` from this one on. -/
def freeSlots (o : Objects) : Nat → Nat → Heap → Option Heap
  | _, 0, heap => some heap
  | i, left + 1, heap => do
      let arg ← o.slot heap i
      let heap ← heap.free arg
      o.freeSlots (i + 1) left heap

/-- `free(argv[i])` for each `i` below `argc`, and `free(argv)`. -/
def freeArguments (o : Objects) : Option Heap := do
  let heap ← o.freeSlots 0 o.argc.toNat o.heap
  heap.freePtr (o.argv.map Prod.fst)

/-- What `on_read_cb` does after a complete request, before it parses on. -/
def resetRequest (o : Objects) : Option Objects := do
  o.heap.use o.socketData
  let heap ← o.freeArguments
  some { o with heap := heap, argv := none, argc := -1, parsingStr := none, complete := false }

/-- The `\r` after a number: the slots for the arguments, or the buffer for a string. -/
def headerEnd (o : Objects) (s : ParseState) : Objects :=
  if s.argc = -1 then
    if s.number < 0 then { o with argc := s.number, argv := none }
    else
      { o with
        heap := o.heap.malloc.2
        argc := s.number
        argv := some (o.heap.malloc.1, List.replicate s.number.toNat none) }
  else if wrap32 (s.number + 1) < 0 then { o with parsingStr := none }
  else { o with heap := o.heap.malloc.2, parsingStr := some o.heap.malloc.1 }

/-- The last byte of a string: the argument, and the end of the buffer. -/
def stringEnd (o : Objects) (s : ParseState) (str : Nat) : Option Objects := do
  let (array, slots) ← o.argv
  o.heap.use array
  if 0 ≤ s.curCountArgv ∧ s.curCountArgv < slots.length then
    if wrap32 (s.parsing.sizeStr + 1) < 0 then
      some { o with argv := some (array, slots.set s.curCountArgv.toNat none) }
    else do
      let heap ← o.heap.malloc.2.free str
      some { o with
        heap := heap
        argv := some (array, slots.set s.curCountArgv.toNat (some o.heap.malloc.1))
        parsingStr := none }
  else none

/-- The loop body of `parse_cli_mes`. -/
def feed (o : Objects) (s : ParseState) (c : UInt8) : Option Objects := do
  o.heap.use o.socketData
  if c = 13 ∧ s.readStatus = .numWait then some (o.headerEnd s)
  else if s.readStatus = .strSymWait then do
    let str ← o.parsingStr
    o.heap.use str
    if wrap32 (s.parsing.curSizeStr + 1) = s.parsing.sizeStr then o.stringEnd s str else some o
  else some o

/-- What `on_read_cb` does with the answer to a complete request, which it appends to those that are
not sent yet. -/
def answered (o : Objects) : Option Objects := do
  let heap ← o.heap.freePtr o.answer
  some { o with heap := heap.malloc.2, answer := some heap.malloc.1, complete := true }

/-- The reset, if the byte before completed a request. -/
def resetIfComplete (o : Objects) : Option Objects :=
  if o.complete then o.resetRequest else some o

/-- One byte, examined in the state `s`. -/
def examine (o : Objects) (s : ParseState) (c : UInt8) : Option Objects := do
  let o ← o.resetIfComplete
  let o ← o.feed s c
  match PgRedisProxy.feed s c with
  | .all _ => o.answered
  | _ => some o

/-- All bytes that were examined. -/
def run {α : Type*} (val : α → UInt8) (o : Objects) : List (ParseState × α) → Option Objects
  | [] => some o
  | (s, b) :: rest => do
      let o ← o.examine s (val b)
      o.run val rest

/-- `close_connection` -/
def closeConnection (o : Objects) : Option Objects := do
  o.heap.use o.readHandle
  o.heap.use o.socketData
  let heap ← o.freeArguments
  let heap ← heap.freePtr o.answer
  let heap ← heap.free o.socketData
  let heap ← heap.free o.readHandle
  some { o with heap := heap }

/-- Why a connection is closed: `EV_ERROR`, or `read` returns zero or an error. -/
inductive Ending where
  | error
  | read
  deriving DecidableEq

/-- The event in which `on_read_cb` closes the connection. Where nothing could be read, it still
writes `cur_buffer_size` before it returns. -/
def close (o : Objects) : Ending → Option Objects
  | .error => o.closeConnection
  | .read => do
      o.heap.use o.socketData
      let o ← o.closeConnection
      o.heap.use o.socketData
      some o

end Objects

/-- An argument of the request that is being received is not set yet. -/
def ParseState.ArgumentMissing (s : ParseState) : Prop :=
  0 < s.argc ∧ s.curCountArgv < s.argc

instance (s : ParseState) : Decidable s.ArgumentMissing :=
  inferInstanceAs (Decidable (_ ∧ _))

/-! ## What is owned -/

namespace Objects

/-- The slots of the arguments, and the arguments in them. -/
def argvOwned (o : Objects) : List Nat :=
  match o.argv with
  | none => []
  | some (array, slots) => array :: slots.reduceOption

/-- What is owned besides. -/
def others (o : Objects) : List Nat :=
  o.parsingStr.toList ++ o.answer.toList ++ [o.socketData, o.readHandle, o.writeHandle]

/-- The objects that pointers of the connection lead to. -/
def owned (o : Objects) : List Nat :=
  o.argvOwned ++ o.others

/-- The slots of `argv`: set from the first one on, as many as there are arguments. -/
inductive Slots (o : Objects) (s : ParseState) : Prop
  | null (hs : s.argv = none) (ho : o.argv = none) (hargc : s.argc < 0)
  | array {n : Nat} {slots : List (Option Block)} {array : Nat} {args : List Nat}
      (hs : s.argv = some slots) (hlength : slots.length = n)
      (ho : o.argv = some (array, args.map some ++ List.replicate (n - args.length) none))
      (hle : args.length ≤ n) (hcount : s.curCountArgv = args.length) (hargc : s.argc = n)
      (hlt : n < 2 ^ 31)

/-- What is allocated agrees with the parser: every live object is owned, once, and nothing else. -/
structure Sound (o : Objects) (s : ParseState) : Prop where
  owns : o.heap.Owns o.owned
  argc_eq : o.argc = s.argc
  slots : o.Slots s
  string_eq : o.parsingStr.isSome = s.parsing.parsingStr.isSome
  room : s.parsing.parsingStr.isSome → 0 ≤ wrap32 (s.parsing.sizeStr + 1)
  string_none : s.readStatus ≠ .stringWait → s.readStatus ≠ .strSymWait → o.parsingStr = none
  full : s.readStatus = .endWait → s.curCountArgv = s.argc
  num_lt : s.parsing.parsingNum < 2 ^ 31

/-- The same where the next byte is examined in the state `s`. -/
def Follows (o : Objects) (s : ParseState) : Prop :=
  if o.complete then ∃ s', s = PgRedisProxy.resetRequest s' ∧ o.Sound s' ∧ s'.readStatus = .endWait
  else o.Sound s

/-! ## Freeing the arguments -/

section Free

variable {o : Objects} {array k : Nat} {args : List Nat} {slots : List (Option Nat)}

theorem reduceOption_slots (args : List Nat) (k : Nat) :
    (args.map some ++ List.replicate k none).reduceOption = args := by
  induction args with
  | nil => simp
  | cons p args ih => simpa using ih

/-- The slot behind those before it. -/
theorem slot_eq {heap : Heap} {owned : List Nat} (hargv : o.argv = some (array, slots))
    (howns : heap.Owns owned) (harray : array ∈ owned) (i : Nat) :
    o.slot heap i = slots[i]?.join := by
  simp [slot, hargv, howns.use_eq harray]

/-- All slots are freed if all of them are set. -/
theorem freeSlots_set {heap : Heap} {args others : List Nat} (done : List Nat)
    (hargv : o.argv = some (array, slots)) (hslots : slots = (done ++ args).map some)
    (howns : heap.Owns (args ++ others)) (harray : array ∈ others) :
    ∃ heap', o.freeSlots done.length args.length heap = some heap' ∧ heap'.Owns others := by
  induction args generalizing heap done with
  | nil => exact ⟨heap, rfl, howns⟩
  | cons arg args ih =>
      have hslot : o.slot heap done.length = some arg := by
        rw [slot_eq hargv howns (List.mem_append_right _ harray), hslots]
        simp
      obtain ⟨hfree, howns'⟩ := howns.free
      obtain ⟨heap', hrest, hothers⟩ := ih (done ++ [arg]) (by simpa using hslots) howns'
      refine ⟨heap', ?_, hothers⟩
      rw [List.length_append, List.length_singleton] at hrest
      simp only [List.length_cons, freeSlots, hslot, hfree, Option.bind_eq_bind, Option.bind_some,
        hrest]

/-- A slot that is not set cannot be freed. -/
theorem freeSlots_unset {heap : Heap} {args others : List Nat} {left : Nat} (done : List Nat)
    (hargv : o.argv = some (array, slots))
    (hslots : slots = (done ++ args).map some ++ List.replicate k none)
    (howns : heap.Owns (args ++ others)) (harray : array ∈ others) (hleft : args.length < left) :
    o.freeSlots done.length left heap = none := by
  induction args generalizing heap done left with
  | nil =>
      obtain ⟨left, rfl⟩ : ∃ m, left = m + 1 := ⟨left - 1, by simp at hleft; omega⟩
      have hslot : o.slot heap done.length = none := by
        rw [slot_eq hargv howns (List.mem_append_right _ harray), hslots]
        cases k <;> simp
      simp only [freeSlots, hslot, Option.bind_eq_bind, Option.bind_none]
  | cons arg args ih =>
      obtain ⟨left, rfl⟩ : ∃ m, left = m + 1 := ⟨left - 1, by simp at hleft; omega⟩
      have hslot : o.slot heap done.length = some arg := by
        rw [slot_eq hargv howns (List.mem_append_right _ harray), hslots]
        simp
      obtain ⟨hfree, howns'⟩ := howns.free
      have hrest := ih (done ++ [arg]) (by simpa using hslots) howns'
        (show args.length < left by simpa using hleft)
      rw [List.length_append, List.length_singleton] at hrest
      simp only [freeSlots, hslot, hfree, Option.bind_eq_bind, Option.bind_some, hrest]

end Free

section Sound

variable {o o' : Objects} {s s' : ParseState}

theorem owned_null (hargv : o.argv = none) : o.owned = o.others := by
  simp [owned, argvOwned, hargv]

theorem owned_array {array k : Nat} {args : List Nat}
    (hargv : o.argv = some (array, args.map some ++ List.replicate k none)) :
    o.owned = array :: (args ++ o.others) := by
  simp [owned, argvOwned, hargv, reduceOption_slots]

/-- With no argument missing, all arguments and their slots can be freed. -/
theorem Sound.freeArguments (hs : o.Sound s) (hfull : ¬ s.ArgumentMissing) :
    ∃ heap, o.freeArguments = some heap ∧ heap.Owns o.others := by
  rcases hs.slots with ⟨-, hargv, hargc⟩ | ⟨-, -, hargv, hle, hcount, hargc, -⟩
  · refine ⟨o.heap, ?_, owned_null hargv ▸ hs.owns⟩
    have hnone : o.argc.toNat = 0 := by
      rw [hs.argc_eq]
      omega
    simp [Objects.freeArguments, hnone, freeSlots, hargv, Heap.freePtr]
  · rename_i n slots array args
    have howns := hs.owns
    rw [owned_array hargv] at howns
    -- none of the slots is left unset
    have hall : args.length = n := by
      unfold ParseState.ArgumentMissing at hfull
      omega
    rw [hall, Nat.sub_self, List.replicate_zero, List.append_nil] at hargv
    obtain ⟨heap, hfree, howns'⟩ := freeSlots_set [] hargv rfl
      (howns.perm (List.perm_middle.symm)) List.mem_cons_self
    have hargcNat : o.argc.toNat = args.length := by
      rw [hs.argc_eq]
      omega
    obtain ⟨heap', harray, hothers⟩ := Heap.Owns.freePtr
      (show heap.Owns ((some array).toList ++ o.others) from howns')
    refine ⟨heap', ?_, hothers⟩
    rw [List.length_nil] at hfree
    simp [Objects.freeArguments, hargcNat, hfree, hargv, harray]

/-- With an argument missing, its slot is read although it is not set. -/
theorem Sound.freeArguments_none (hs : o.Sound s) (hmissing : s.ArgumentMissing) :
    o.freeArguments = none := by
  obtain ⟨hpos, hlt⟩ := hmissing
  rcases hs.slots with ⟨-, -, hargc⟩ | ⟨-, -, hargv, hle, hcount, hargc, -⟩
  · omega
  · rename_i n slots array args
    have howns := hs.owns
    rw [owned_array hargv] at howns
    have hleft : args.length < o.argc.toNat := by
      rw [hs.argc_eq]
      omega
    have hnone := freeSlots_unset [] hargv rfl (howns.perm (List.perm_middle.symm))
      List.mem_cons_self hleft
    rw [List.length_nil] at hnone
    simp [Objects.freeArguments, hnone]

/-- The watchers, `Tsocket_data` and what else is owned are live. -/
theorem Sound.use_eq (hs : o.Sound s) {p : Nat} (hp : p ∈ o.others) : o.heap.use p = some () := by
  refine hs.owns.use_eq ?_
  rcases hs.slots with ⟨-, hargv, -⟩ | ⟨-, -, hargv, -⟩
  · rwa [owned_null hargv]
  · rw [owned_array hargv]
    exact List.mem_cons_of_mem _ (List.mem_append_right _ hp)

theorem socketData_mem (o : Objects) : o.socketData ∈ o.others := by
  simp [others]

theorem readHandle_mem (o : Objects) : o.readHandle ∈ o.others := by
  simp [others]

/-- The reset after a complete request is clean, and leaves nothing of it. -/
theorem Sound.resetRequest (hs : o.Sound s) (hend : s.readStatus = .endWait) :
    ∃ o', o.resetRequest = some o' ∧ o'.complete = false ∧
      o'.Sound (PgRedisProxy.resetRequest s) := by
  have hstring : o.parsingStr = none := hs.string_none (by simp [hend]) (by simp [hend])
  have hfull : ¬ s.ArgumentMissing := by
    unfold ParseState.ArgumentMissing
    rw [hs.full hend]
    omega
  obtain ⟨heap, hfree, howns⟩ := hs.freeArguments hfull
  refine ⟨{ o with heap := heap, argv := none, argc := -1, parsingStr := none, complete := false },
    ?_, rfl, ?_⟩
  · simp [Objects.resetRequest, hs.use_eq o.socketData_mem, hfree]
  · exact
      { owns := by simpa [owned, argvOwned, others, hstring] using howns
        argc_eq := rfl
        slots := .null rfl rfl (show (-1 : Int) < 0 by omega)
        string_eq := rfl
        room := nofun
        string_none := fun _ _ => rfl
        full := nofun
        num_lt := show (0 : Int) < 2 ^ 31 by omega }

/-- Closing the connection is clean if no argument is missing. What is left then is the watcher that
writes, and the buffer of a string that was not complete. -/
theorem Sound.closeConnection (hs : o.Sound s) (hfull : ¬ s.ArgumentMissing) :
    ∃ o', o.closeConnection = some o' ∧
      o'.socketData ∉ o'.writeHandle :: o'.parsingStr.toList ∧
      o'.heap.Owns (o'.writeHandle :: o'.parsingStr.toList) := by
  obtain ⟨heap, hfree, howns⟩ := hs.freeArguments hfull
  have hperm : o.others.Perm (o.answer.toList ++
      o.socketData :: o.readHandle :: o.writeHandle :: o.parsingStr.toList) := by
    refine (List.perm_append_comm.append_right _).trans ?_
    rw [List.append_assoc]
    exact List.perm_append_comm.append_left _
  obtain ⟨heap₁, hanswer, howns₁⟩ := (howns.perm hperm).freePtr
  obtain ⟨hdata, howns₂⟩ := howns₁.free
  obtain ⟨hhandle, howns₃⟩ := howns₂.free
  have hdistinct := (List.nodup_cons.mp howns₁.nodup).1
  refine ⟨{ o with heap := (heap₁.set o.socketData false).set o.readHandle false }, ?_,
    fun hmem => hdistinct (List.mem_cons_of_mem _ hmem), howns₃⟩
  simp [Objects.closeConnection, hs.use_eq o.readHandle_mem, hs.use_eq o.socketData_mem, hfree,
    hanswer, hdata, hhandle]

/-- How closing a connection goes. After a read that returned nothing, the write to
`cur_buffer_size` is one to `Tsocket_data` that is freed. -/
theorem Sound.close_iff (hs : o.Sound s) (ending : Ending) :
    ((o.close ending).isSome ↔ ending = .error ∧ ¬ s.ArgumentMissing) ∧
      ∀ o', o.close ending = some o' → o'.heap.Owns (o'.writeHandle :: o'.parsingStr.toList) := by
  by_cases hmissing : s.ArgumentMissing
  · have hclose : o.close ending = none := by
      have hnone := hs.freeArguments_none hmissing
      cases ending <;> simp [close, Objects.closeConnection, hs.use_eq o.readHandle_mem,
        hs.use_eq o.socketData_mem, hnone]
    simp [hclose, hmissing]
  · obtain ⟨o', hclose, hdangling, howns⟩ := hs.closeConnection hmissing
    cases ending with
    | error =>
        have hresult : o.close .error = some o' := hclose
        simp only [hresult, Option.isSome_some, hmissing, not_false_eq_true, and_self, true_and,
          Option.some.injEq]
        rintro _ rfl
        exact howns
    | read =>
        have hresult : o.close .read = none := by
          simp [close, hs.use_eq o.socketData_mem, hclose, howns.use_eq_none hdangling]
        simp [hresult]

end Sound

/-! ## One byte -/

section Feed

variable {o : Objects} {s s' : ParseState} {c : UInt8}

/-- Only the slots and the counts matter. -/
theorem Slots.of_eq {o' : Objects} (hslots : o.Slots s) (ho : o'.argv = o.argv)
    (hargv : s'.argv = s.argv) (hargc : s'.argc = s.argc)
    (hcount : s'.curCountArgv = s.curCountArgv) : o'.Slots s' := by
  cases hslots with
  | null hs₀ ho₀ hneg => exact .null (hargv.trans hs₀) (ho.trans ho₀) (hargc ▸ hneg)
  | array hs₀ hlength ho₀ hle hcur hn hlt =>
      exact .array (hargv.trans hs₀) hlength (ho.trans ho₀) hle (hcount.trans hcur)
        (hargc.trans hn) hlt

/-- Only the slots, the string and the status count. -/
theorem Sound.of_eq (hs : o.Sound s) (hargc : s'.argc = s.argc) (hargv : s'.argv = s.argv)
    (hcount : s'.curCountArgv = s.curCountArgv)
    (hstring : s'.parsing.parsingStr.isSome = s.parsing.parsingStr.isSome)
    (hsize : s'.parsing.sizeStr = s.parsing.sizeStr)
    (hnone : s'.readStatus ≠ .stringWait → s'.readStatus ≠ .strSymWait → o.parsingStr = none)
    (hfull : s'.readStatus = .endWait → s'.curCountArgv = s'.argc)
    (hnum : s'.parsing.parsingNum < 2 ^ 31) : o.Sound s' where
  owns := hs.owns
  argc_eq := hs.argc_eq.trans hargc.symm
  slots := hs.slots.of_eq rfl hargv hargc hcount
  string_eq := hs.string_eq.trans hstring.symm
  room := by
    rw [hstring, hsize]
    exact hs.room
  string_none := hnone
  full := hfull
  num_lt := hnum

/-- Outside a string there is no buffer for one. -/
theorem Sound.string_eq_none (hs : o.Sound s)
    (hstatus : s.readStatus ≠ .stringWait ∧ s.readStatus ≠ .strSymWait) :
    o.parsingStr = none ∧ s.parsing.parsingStr = none := by
  have hnone := hs.string_none hstatus.1 hstatus.2
  have hparser := hs.string_eq
  rw [hnone] at hparser
  exact ⟨hnone, Option.isSome_eq_false_iff.mp hparser.symm |> Option.isNone_iff_eq_none.mp⟩

/-- Where the loop goes on after a byte, it goes on from what the byte left. -/
theorem Fed.next_eq (hfed : PgRedisProxy.Fed.next s = .next s' ∨ PgRedisProxy.Fed.next s = .err s') :
    s = s' := by
  cases hfed with
  | inl hnext => exact PgRedisProxy.Fed.next.inj hnext
  | inr herr => cases herr

/-- The number that ends fits an `int`. -/
theorem Sound.number_lt (hs : o.Sound s) : s.number < 2 ^ 31 := by
  unfold ParseState.number
  split
  · exact wrap32_lt _
  · exact hs.num_lt

/-- The end of the count of arguments: as many slots are allocated, none of them set, or none if the
count is negative. -/
theorem Sound.headerEnd_count (hs : o.Sound s) (hstatus : s.readStatus = .numWait)
    (hargc : s.argc = -1)
    (hend : PgRedisProxy.headerEnd s = .next s' ∨ PgRedisProxy.headerEnd s = .err s') :
    (o.headerEnd s).complete = o.complete ∧ (o.headerEnd s).Sound s' := by
  obtain ⟨hnone, hparserNone⟩ := hs.string_eq_none ⟨by simp [hstatus], by simp [hstatus]⟩
  have hlt := hs.number_lt
  have hargv : o.argv = none := by
    rcases hs.slots with ⟨-, ho, -⟩ | ⟨-, -, -, -, -, hn, -⟩
    · exact ho
    · omega
  by_cases hneg : s.number < 0
  · simp only [PgRedisProxy.headerEnd, hargc, mallocSlots, hneg, if_true, Fed.err.injEq,
      reduceCtorEq, false_or] at hend
    simp only [Objects.headerEnd, hargc, hneg, if_true]
    subst hend
    exact ⟨trivial,
      { owns := by simpa [owned, argvOwned, others, hargv] using hs.owns
        argc_eq := rfl
        slots := .null rfl rfl hneg
        string_eq := hs.string_eq
        room := by simp [hparserNone]
        string_none := fun _ _ => hnone
        full := by simp
        num_lt := hlt }⟩
  · simp only [PgRedisProxy.headerEnd, hargc, mallocSlots, hneg, if_true, if_false, Fed.next.injEq,
      reduceCtorEq, or_false] at hend
    simp only [Objects.headerEnd, hargc, hneg, if_true, if_false]
    subst hend
    -- slots none of which is set, as those before and behind no arguments at all
    have hempty : List.replicate s.number.toNat (none : Option Nat) =
        ([] : List Nat).map some ++
          List.replicate (s.number.toNat - ([] : List Nat).length) none := by simp
    rw [hempty]
    exact ⟨trivial,
      { owns := by
          have howns := hs.owns.malloc
          rw [owned_null hargv] at howns
          rw [owned_array rfl]
          exact howns
        argc_eq := rfl
        slots := .array rfl (List.length_replicate ..) rfl (Nat.zero_le _) rfl
          (Int.toNat_of_nonneg (not_lt.mp hneg)).symm (by omega)
        string_eq := hs.string_eq
        room := by simp [hparserNone]
        string_none := fun _ _ => hnone
        full := by simp
        num_lt := show (0 : Int) < 2 ^ 31 by omega }⟩

/-- The end of the length of a string: a buffer for it is allocated, or none if there is no room for
the terminator. -/
theorem Sound.headerEnd_length (hs : o.Sound s) (hstatus : s.readStatus = .numWait)
    (hargc : s.argc ≠ -1)
    (hend : PgRedisProxy.headerEnd s = .next s' ∨ PgRedisProxy.headerEnd s = .err s') :
    (o.headerEnd s).complete = o.complete ∧ (o.headerEnd s).Sound s' := by
  obtain ⟨hnone, -⟩ := hs.string_eq_none ⟨by simp [hstatus], by simp [hstatus]⟩
  by_cases hneg : wrap32 (s.number + 1) < 0
  · simp only [PgRedisProxy.headerEnd, hargc, Block.malloc, hneg, if_true, if_false,
      Fed.err.injEq, reduceCtorEq, false_or] at hend
    simp only [Objects.headerEnd, hargc, hneg, if_true, if_false]
    subst hend
    exact ⟨trivial,
      { owns := by simpa [owned, argvOwned, others, hnone] using hs.owns
        argc_eq := hs.argc_eq
        slots := hs.slots.of_eq rfl rfl rfl rfl
        string_eq := rfl
        room := by simp
        string_none := fun _ _ => rfl
        full := by simp
        num_lt := hs.number_lt }⟩
  · simp only [PgRedisProxy.headerEnd, hargc, Block.malloc, hneg, if_false, Fed.next.injEq,
      reduceCtorEq, or_false] at hend
    simp only [Objects.headerEnd, hargc, hneg, if_false]
    subst hend
    refine ⟨trivial,
      { owns := hs.owns.malloc.perm ?_
        argc_eq := hs.argc_eq
        slots := hs.slots.of_eq rfl rfl rfl rfl
        string_eq := rfl
        room := fun _ => not_lt.mp hneg
        string_none := fun hne _ => absurd rfl hne
        full := by simp
        num_lt := show (0 : Int) < 2 ^ 31 by omega }⟩
    -- the new buffer takes the place where none was
    simp only [owned, argvOwned, others, hnone, Option.toList_none, Option.toList_some,
      List.nil_append, List.singleton_append]
    exact List.perm_middle.symm

/-- The end of a number. -/
theorem Sound.headerEnd (hs : o.Sound s) (hstatus : s.readStatus = .numWait)
    (hend : PgRedisProxy.headerEnd s = .next s' ∨ PgRedisProxy.headerEnd s = .err s') :
    (o.headerEnd s).complete = o.complete ∧ (o.headerEnd s).Sound s' := by
  by_cases hargc : s.argc = -1
  · exact hs.headerEnd_count hstatus hargc hend
  · exact hs.headerEnd_length hstatus hargc hend

/-- One more slot is set. -/
theorem set_slot {args : List Nat} {n : Nat} (hlt : args.length < n) (arg : Nat) :
    (args.map some ++ List.replicate (n - args.length) none).set args.length (some arg) =
      (args ++ [arg]).map some ++ List.replicate (n - (args ++ [arg]).length) none := by
  have hroom : n - args.length = n - (args ++ [arg]).length + 1 := by
    rw [List.length_append, List.length_singleton]
    omega
  have hset := List.set_append_right (s := args.map some)
    (t := List.replicate (n - args.length) none) args.length (some arg) (by simp)
  rw [hset, List.length_map, Nat.sub_self, hroom, List.replicate_succ, List.set_cons_zero]
  simp

/-- Where a slot is set behind those of the arguments before, there is one. -/
theorem storeSlot_length {slots slots' : List (Option Block)} {k : Nat} {arg : Option Block}
    (hslot : storeSlot (some slots) k arg = some slots') :
    k < slots.length ∧ slots' = slots.set k arg := by
  simp only [storeSlot, Option.bind_eq_bind, Option.bind_some] at hslot
  split at hslot
  · exact ⟨by omega, by simpa using hslot.symm⟩
  · cases hslot

/-- A new argument behind the others, instead of the buffer it was read into. -/
theorem moved_perm {str : Nat} (hstr : o.parsingStr = some str) (array : Nat) (args : List Nat)
    (arg : Nat) :
    (arg :: array :: (args ++ o.others)).Perm
      (str :: array :: ((args ++ [arg]) ++
        (o.answer.toList ++ [o.socketData, o.readHandle, o.writeHandle]))) := by
  simp only [others, hstr, Option.toList_some, List.append_assoc, List.singleton_append]
  refine (List.Perm.swap array _ _).trans ?_
  refine List.Perm.trans (.cons array ?_) (List.Perm.swap str array _)
  refine (List.Perm.cons _ List.perm_middle).trans ?_
  exact (List.Perm.swap str _ _).trans (.cons str List.perm_middle.symm)

/-- The last byte of a string: the argument is a new object in the next slot, and the buffer is
freed. -/
theorem Sound.stringEnd (hs : o.Sound s) {str : Nat} (hstr : o.parsingStr = some str)
    (hend : PgRedisProxy.stringEnd s = .next s' ∨ PgRedisProxy.stringEnd s = .err s') :
    ∃ o', o.stringEnd s str = some o' ∧ o'.complete = o.complete ∧ o'.Sound s' := by
  have hroom : 0 ≤ wrap32 (s.parsing.sizeStr + 1) := by
    refine hs.room ?_
    rw [← hs.string_eq, hstr]
    rfl
  rcases stringEnd_cases s with hfault | ⟨-, -, -, hneg, -⟩ | ⟨arg, slots', hslot, -, hnext⟩
  · simp [hfault] at hend
  · omega
  rw [hnext] at hend
  obtain rfl := Fed.next_eq hend
  rcases hs.slots with ⟨hnull, -, -⟩ | ⟨hs₀, hlength, hargv, hle, hcount, hn, hlt⟩
  · simp [storeSlot, hnull] at hslot
  rename_i n slots array args
  have howns := hs.owns
  rw [owned_array hargv] at howns
  have harray : o.heap.use array = some () := howns.use_eq List.mem_cons_self
  rw [hs₀, hcount] at hslot
  obtain ⟨hmore, hslots'⟩ := storeSlot_length hslot
  rw [hlength] at hmore
  have hrange : 0 ≤ s.curCountArgv ∧ s.curCountArgv <
      (args.map some ++ List.replicate (n - args.length) none : List (Option Nat)).length := by
    simp only [List.length_append, List.length_map, List.length_replicate]
    omega
  -- the new argument takes the place of the string in the list of what is owned
  obtain ⟨hfree, howns'⟩ := (howns.malloc.perm (moved_perm hstr array args _)).free
  have hcur : wrap32 (s.curCountArgv + 1) = (args ++ [o.heap.malloc.1]).length := by
    rw [hcount, List.length_append, List.length_singleton, wrap32_of_range] <;> omega
  refine ⟨{ o with
    heap := o.heap.malloc.2.set str false
    argv := some (array, (args ++ [o.heap.malloc.1]).map some ++
      List.replicate (n - (args ++ [o.heap.malloc.1]).length) none)
    parsingStr := none }, ?_, rfl, ?_⟩
  · have hnat : s.curCountArgv.toNat = args.length := by omega
    simp only [Objects.stringEnd, hargv, Option.bind_eq_bind, Option.bind_some, harray, hrange,
      and_self, if_true, not_lt.mpr hroom, if_false, hfree, hnat, set_slot hmore]
  · exact
      { owns := by
          rw [owned_array rfl]
          exact howns'
        argc_eq := hs.argc_eq
        slots := .array rfl (by rw [hslots', List.length_set, hlength]) rfl
          (by rw [List.length_append, List.length_singleton]; omega) hcur hn hlt
        string_eq := rfl
        room := by simp
        string_none := fun _ _ => rfl
        full := by
          show (if _ then _ else _) = EreadStatus.endWait → wrap32 (s.curCountArgv + 1) = s.argc
          split
          · intro _
            assumption
          · nofun
        num_lt := hs.num_lt }

/-- A byte of a string. -/
theorem Sound.strSym (hs : o.Sound s) (hstatus : s.readStatus = .strSymWait)
    (hsym : PgRedisProxy.strSym s c = .next s' ∨ PgRedisProxy.strSym s c = .err s') :
    ∃ o', o.feed s c = some o' ∧ o'.complete = o.complete ∧ o'.Sound s' := by
  cases hstore : storeByte s.parsing.parsingStr s.parsing.curSizeStr c with
  | none => simp [PgRedisProxy.strSym, hstore] at hsym
  | some b =>
      have hsome : s.parsing.parsingStr.isSome := by
        cases hstr : s.parsing.parsingStr with
        | none => simp [storeByte, hstr] at hstore
        | some b => rfl
      obtain ⟨str, hstr⟩ := Option.isSome_iff_exists.mp (hs.string_eq.trans hsome)
      have hdata := hs.use_eq o.socketData_mem
      have huse : o.heap.use str = some () := hs.use_eq (by simp [others, hstr])
      let s₁ := { s with parsing := { s.parsing with
        parsingStr := some b, curSizeStr := wrap32 (s.parsing.curSizeStr + 1) } }
      have hs₁ : o.Sound s₁ := hs.of_eq rfl rfl rfl hsome.symm rfl
        (fun _ hne => absurd hstatus hne) hs.full hs.num_lt
      have hfeed : o.feed s c =
          if wrap32 (s.parsing.curSizeStr + 1) = s.parsing.sizeStr then o.stringEnd s str
          else some o := by
        simp [Objects.feed, hdata, hstatus, hstr, huse]
      by_cases hlast : wrap32 (s.parsing.curSizeStr + 1) = s.parsing.sizeStr
      · have hend : PgRedisProxy.strSym s c = PgRedisProxy.stringEnd s₁ := by
          simp only [PgRedisProxy.strSym, hstore, hlast, if_true, s₁]
        rw [hend] at hsym
        rw [hfeed, if_pos hlast]
        exact hs₁.stringEnd hstr hsym
      · have hnext : PgRedisProxy.strSym s c = .next s₁ := by
          simp only [PgRedisProxy.strSym, hstore, hlast, if_false, s₁]
        rw [hnext] at hsym
        obtain rfl := Fed.next_eq hsym
        rw [hfeed, if_neg hlast]
        exact ⟨o, rfl, rfl, hs₁⟩

/-- Only the end of a number and a byte of a string allocate or free anything. -/
theorem Sound.feed_eq (hs : o.Sound s) (hreturn : ¬ (c = 13 ∧ s.readStatus = .numWait))
    (hstatus : s.readStatus ≠ .strSymWait) : o.feed s c = some o := by
  simp [Objects.feed, hs.use_eq o.socketData_mem, hreturn, hstatus]

/-- A byte that completes no request. -/
theorem Sound.feed (hs : o.Sound s)
    (hfeed : PgRedisProxy.feed s c = .next s' ∨ PgRedisProxy.feed s c = .err s') :
    ∃ o', o.feed s c = some o' ∧ o'.complete = o.complete ∧ o'.Sound s' := by
  cases hstatus : s.readStatus with
  | arrayWait =>
      -- no object changes in this state; the same holds wherever `o` itself is the witness
      rw [feed_arrayWait hstatus] at hfeed
      obtain rfl := Fed.next_eq hfeed
      have hnone := (hs.string_eq_none ⟨by simp [hstatus], by simp [hstatus]⟩).1
      refine ⟨o, hs.feed_eq (by simp [hstatus]) (by simp [hstatus]), rfl, ?_⟩
      split
      · exact hs.of_eq rfl rfl rfl rfl rfl (fun _ _ => hnone) nofun hs.num_lt
      · exact hs
  | numOrMinusWait =>
      rw [feed_numOrMinusWait hstatus] at hfeed
      obtain rfl := Fed.next_eq hfeed
      have hnone := (hs.string_eq_none ⟨by simp [hstatus], by simp [hstatus]⟩).1
      refine ⟨o, hs.feed_eq (by simp [hstatus]) (by simp [hstatus]), rfl, ?_⟩
      split
      · exact hs.of_eq rfl rfl rfl rfl rfl (fun _ _ => hnone) nofun (wrap32_lt _)
      · split
        · exact hs.of_eq rfl rfl rfl rfl rfl (fun _ _ => hnone) nofun hs.num_lt
        · exact hs
  | numWait =>
      rw [feed_numWait hstatus] at hfeed
      have hnone := (hs.string_eq_none ⟨by simp [hstatus], by simp [hstatus]⟩).1
      split at hfeed
      · next hdigit =>
          obtain rfl := Fed.next_eq hfeed
          have hreturn : c ≠ 13 := by
            rintro rfl
            cases hdigit
          exact ⟨o, hs.feed_eq (by simp [hreturn]) (by simp [hstatus]), rfl,
            hs.of_eq rfl rfl rfl rfl rfl (fun _ _ => hnone)
              (fun hend => absurd (hstatus.symm.trans hend) nofun) (wrap32_lt _)⟩
      · split at hfeed
        · next hreturn =>
            obtain ⟨hcomplete, hs'⟩ := hs.headerEnd hstatus hfeed
            refine ⟨o.headerEnd s, ?_, hcomplete, hs'⟩
            simp [Objects.feed, hs.use_eq o.socketData_mem, hreturn, hstatus]
        · next hreturn =>
            obtain rfl := Fed.next_eq hfeed
            exact ⟨o, hs.feed_eq (by simp [hreturn]) (by simp [hstatus]), rfl, hs⟩
  | stringWait =>
      rw [feed_stringWait hstatus] at hfeed
      obtain rfl := Fed.next_eq hfeed
      refine ⟨o, hs.feed_eq (by simp [hstatus]) (by simp [hstatus]), rfl, ?_⟩
      split
      · exact hs.of_eq rfl rfl rfl rfl rfl (fun _ hne => absurd rfl hne) nofun hs.num_lt
      · exact hs
  | startStringWait =>
      rw [feed_startStringWait hstatus] at hfeed
      obtain rfl := Fed.next_eq hfeed
      have hnone := (hs.string_eq_none ⟨by simp [hstatus], by simp [hstatus]⟩).1
      refine ⟨o, hs.feed_eq (by simp [hstatus]) (by simp [hstatus]), rfl, ?_⟩
      split
      · exact hs.of_eq rfl rfl rfl rfl rfl (fun _ _ => hnone) nofun hs.num_lt
      · exact hs
  | strSymWait =>
      rw [feed_strSymWait hstatus] at hfeed
      exact hs.strSym hstatus hfeed
  | endWait =>
      rw [feed_endWait hstatus] at hfeed
      split at hfeed
      · simp at hfeed
      · obtain rfl := Fed.next_eq hfeed
        exact ⟨o, hs.feed_eq (by simp [hstatus]) (by simp [hstatus]), rfl, hs⟩

/-- The answer to a request. -/
theorem Sound.answered (hs : o.Sound s) :
    ∃ o', o.answered = some o' ∧ o'.complete = true ∧ o'.Sound s := by
  have hperm : o.owned.Perm (o.answer.toList ++ (o.argvOwned ++ o.parsingStr.toList ++
      [o.socketData, o.readHandle, o.writeHandle])) := by
    simp only [owned, others, ← List.append_assoc]
    refine List.Perm.append_right _ ?_
    rw [List.append_assoc o.answer.toList]
    exact List.perm_append_comm
  obtain ⟨heap, hfree, howns⟩ := (hs.owns.perm hperm).freePtr
  refine ⟨{ o with heap := heap.malloc.2, answer := some heap.malloc.1, complete := true }, ?_, rfl,
    ?_⟩
  · simp [Objects.answered, hfree]
  · refine ⟨howns.malloc.perm ?_, hs.argc_eq, ?_, hs.string_eq, hs.room, hs.string_none, hs.full,
      hs.num_lt⟩
    · simp only [owned, others, Option.toList_some, argvOwned, ← List.append_assoc]
      rw [List.append_assoc _ [heap.malloc.1]]
      exact List.perm_middle.symm
    · rcases hs.slots with ⟨hnull, ho, hneg⟩ | ⟨hs₀, hlength, ho, hle, hcount, hn, hlt⟩
      · exact .null hnull ho hneg
      · exact .array hs₀ hlength ho hle hcount hn hlt

/-- One byte more, unless it makes a forbidden access. -/
theorem Follows.examine {α : Type*} {val : α → UInt8} {b : α} (hs : o.Follows s)
    (hstep : afterByte val s b = some s') :
    ∃ o', o.examine s (val b) = some o' ∧ o'.Follows s' := by
  obtain ⟨o₁, hreset, hopen, hs₁⟩ : ∃ o₁,
      o.resetIfComplete = some o₁ ∧ o₁.complete = false ∧ o₁.Sound s := by
    cases hcomplete : o.complete with
    | true =>
        simp only [Follows, hcomplete, if_true] at hs
        obtain ⟨s₀, rfl, hs₀, hend⟩ := hs
        simpa [resetIfComplete, hcomplete] using hs₀.resetRequest hend
    | false =>
        simp only [Follows, hcomplete, Bool.false_eq_true, if_false] at hs
        exact ⟨o, by simp [resetIfComplete, hcomplete], hcomplete, hs⟩
  simp only [Objects.examine, hreset, Option.bind_eq_bind, Option.bind_some]
  cases hfeed : PgRedisProxy.feed s (val b) with
  | next s₂ =>
      obtain rfl := Option.some.inj ((afterByte_next hfeed).symm.trans hstep)
      obtain ⟨o', ho', hcomplete, hs'⟩ := hs₁.feed (.inl hfeed)
      refine ⟨o', by simp [ho'], ?_⟩
      simpa [Follows, hcomplete, hopen] using hs'
  | err s₂ =>
      obtain rfl := Option.some.inj ((afterByte_err hfeed).symm.trans hstep)
      obtain ⟨o', ho', hcomplete, hs'⟩ := hs₁.feed (.inr hfeed)
      refine ⟨o', by simp [ho'], ?_⟩
      simpa [Follows, hcomplete, hopen] using hs'
  | all s₂ =>
      obtain rfl := Option.some.inj ((afterByte_all hfeed).symm.trans hstep)
      obtain ⟨rfl, hend⟩ := feed_eq_all hfeed
      have hsame := hs₁.feed_eq (c := val b) (by simp [hend]) (by simp [hend])
      obtain ⟨o', ho', hcomplete, hs'⟩ := hs₁.answered
      refine ⟨o', by simp [hsame, ho'], ?_⟩
      simp only [Follows, hcomplete, if_true]
      exact ⟨s₂, rfl, hs', hend⟩
  | fault =>
      rw [afterByte_eq_none.mpr hfeed] at hstep
      cases hstep

end Feed

/-! ## Runs -/

section Run

variable {α : Type*} {val : α → UInt8} {o : Objects} {s s' : ParseState}
  {pairs : List (ParseState × α)}

/-- Along a path every access is to what is live, and every reset is clean. -/
theorem Follows.run (hs : o.Follows s) (hpath : Path (afterByte val) s pairs s') :
    ∃ o', o.run val pairs = some o' ∧ o'.Follows s' := by
  induction hpath generalizing o with
  | nil s => exact ⟨o, rfl, hs⟩
  | cons hstep hrest ih =>
      obtain ⟨o₁, hexamine, hs₁⟩ := hs.examine hstep
      obtain ⟨o', hrun, hs'⟩ := ih hs₁
      exact ⟨o', by simp [Objects.run, hexamine, hrun], hs'⟩

/-- How closing a connection goes between two bytes. -/
theorem Follows.close_iff (hs : o.Follows s) (ending : Ending) :
    ((o.close ending).isSome ↔ ending = .error ∧ ¬ s.ArgumentMissing) ∧
      ∀ o', o.close ending = some o' → o'.heap.Owns (o'.writeHandle :: o'.parsingStr.toList) := by
  cases hcomplete : o.complete with
  | true =>
      simp only [Follows, hcomplete, if_true] at hs
      obtain ⟨s₀, rfl, hs₀, hend⟩ := hs
      -- no argument is missing, neither before nor after the reset
      have hfull : ¬ s₀.ArgumentMissing := by
        unfold ParseState.ArgumentMissing
        rw [hs₀.full hend]
        omega
      have hreset : ¬ (PgRedisProxy.resetRequest s₀).ArgumentMissing := fun hmissing =>
        absurd hmissing.1 (show ¬ (0 : Int) < -1 by omega)
      simpa [hfull, hreset] using hs₀.close_iff ending
  | false =>
      simp only [Follows, hcomplete, Bool.false_eq_true, if_false] at hs
      exact hs.close_iff ending

end Run

end Objects

section Close

variable {α L H : Type*} {val : α → UInt8} {h : Handler L H}

theorem Objects.accept_follows {c : Conn α H} (hc : c.Accepted) :
    Objects.accept.Follows c.readData.parse :=
  { owns :=
      { nodup := by decide
        live_iff := by
          intro p
          show [true, true, true][p]? = some true ↔ p ∈ [0, 1, 2]
          rcases p with _ | _ | _ | p <;> simp }
    argc_eq := hc.argc_eq.symm
    slots := .null hc.argv_eq rfl (by rw [hc.argc_eq]; omega)
    string_eq := by rw [hc.parsingStr_eq]; rfl
    room := by simp [hc.parsingStr_eq]
    string_none := fun _ _ => rfl
    full := by simp [hc.readStatus_eq]
    num_lt := by rw [hc.parsingNum_eq]; omega }

/-- Whatever an accepted connection receives, until it is closed every access is to what is live,
and each reset frees the arguments of its request, all of which are set. Closing it in the next
event is clean if and only if that is an error event and no argument is missing; all but the watcher
that writes and the buffer of an incomplete string is freed then. -/
theorem Conn.Accepted.close_clean_iff {c : Conn α H} (hc : c.Accepted) (events : List (List α))
    (hexit : (readEvents val h c events).1 = .finished) (ending : Objects.Ending) :
    ∃ o, Objects.accept.run val (readEvents val h c events).2.examined = some o ∧
      ((o.close ending).isSome ↔
        ending = .error ∧ ¬ (readEvents val h c events).2.session.current.ArgumentMissing) ∧
      ∀ o', o.close ending = some o' → o'.heap.Owns (o'.writeHandle :: o'.parsingStr.toList) := by
  obtain ⟨-, hpath, -⟩ := hc.walk val h events
  obtain ⟨o, hrun, hfollows⟩ := (Objects.accept_follows hc).run (hpath (by simp [hexit]))
  exact ⟨o, hrun, hfollows.close_iff ending⟩

end Close

/-- With `PING` answered, an error event closes the connection cleanly. -/
theorem close_clean_iff_ping :
    ∃ o, Objects.accept.run id (readEvents id .idle (Conn.accept ())
        [ascii "*1\r\n$4\r\nPING\r\n"]).2.examined = some o ∧
      (o.close .error).isSome := by
  obtain ⟨o, hrun, hclean, -⟩ := @Conn.Accepted.close_clean_iff _ _ _ id .idle _
    (Conn.accept_accepted ()) [ascii "*1\r\n$4\r\nPING\r\n"] (by decide +kernel) .error
  exact ⟨o, hrun, hclean.mpr ⟨rfl, by decide +kernel⟩⟩

/-- A client that disconnects after `PING` has `Tsocket_data` written after it is freed, and an
error in the middle of a request has a slot freed that is not set. -/
theorem disconnect_not_clean :
    (Objects.accept.run id (readEvents id .idle (Conn.accept ())
        [ascii "*1\r\n$4\r\nPING\r\n"]).2.examined).map (fun o => (o.close .read).isSome) =
        some false ∧
      (Objects.accept.run id (readEvents id .idle (Conn.accept ())
        [ascii "*2\r\n$3\r\nGET\r\n"]).2.examined).map (fun o => (o.close .error).isSome) =
        some false := by
  decide +kernel

end PgRedisProxy
