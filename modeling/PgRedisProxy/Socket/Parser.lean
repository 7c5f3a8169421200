import PgRedisProxy.Base.Block

/-!
# The request parser (`parse_cli_mes`)

`feed` is what the automaton does with one byte. A write that would land outside
what was allocated, or through a null or freed pointer, is a `fault`; `malloc` fails
exactly for negative sizes. `parseCliMes` feeds the bytes of the read buffer from its
beginning until a request is complete, the bytes are used up, or an allocation fails.
-/

namespace PgRedisProxy

open CLang

/-- `enum Eread_status` -/
inductive EreadStatus where
  | arrayWait
  | numOrMinusWait
  | numWait
  | stringWait
  | startStringWait
  | strSymWait
  | endWait
  deriving DecidableEq, Repr

/-- `enum Eexit_status` -/
inductive EexitStatus where
  | err
  | notAll
  | all
  deriving DecidableEq, Repr

/-- `struct Tsocket_parsing`. `parsingStr` is `none` while the pointer is `NULL` or freed. -/
structure TsocketParsing where
  parsingNum : Int
  isNegative : Bool
  parsingStr : Option Block
  sizeStr : Int
  curSizeStr : Int

/-- The members of `struct Tsocket_read_data` that a single byte can change. A slot of `argv` is
`none` until it is set. -/
structure ParseState where
  argv : Option (List (Option Block))
  argc : Int
  curCountArgv : Int
  parsing : TsocketParsing
  readStatus : EreadStatus

/-- How the loop body of `parse_cli_mes` ends for one byte: it goes on to the next one, or returns
with `ERR` or `ALL`, or makes an access that is not allowed. -/
inductive Fed where
  | next (s : ParseState)
  | err (s : ParseState)
  | all (s : ParseState)
  | fault

/-- `p[i] = c` for a `char*` -/
def storeByte (p : Option Block) (i : Int) (c : UInt8) : Option Block := do
  let b ← p
  if i < 0 then none else b.write? i.toNat [some c]

/-- `malloc(n * sizeof(char*))` -/
def mallocSlots (n : Int) : Option (List (Option Block)) :=
  if n < 0 then none else some (List.replicate n.toNat none)

/-- `argv[i] = p` -/
def storeSlot (argv : Option (List (Option Block))) (i : Int) (p : Option Block) :
    Option (List (Option Block)) := do
  let slots ← argv
  if 0 ≤ i ∧ i < slots.length then some (slots.set i.toNat p) else none

/-- The number whose digits have been read, with its sign. -/
def ParseState.number (s : ParseState) : Int :=
  if s.parsing.isNegative then wrap32 (-s.parsing.parsingNum) else s.parsing.parsingNum

/-- The `\r` after a number, which is the argument count if that is not known yet, and else the
length of the next string. -/
def headerEnd (s : ParseState) : Fed :=
  let num := s.number
  if s.argc = -1 then
    match mallocSlots num with
    | none =>
        .err { s with
          argc := num
          curCountArgv := 0
          readStatus := .startStringWait
          argv := none
          parsing := { s.parsing with parsingNum := num } }
    | some slots =>
        .next { s with
          argc := num
          curCountArgv := 0
          readStatus := .startStringWait
          argv := some slots
          parsing := { s.parsing with parsingNum := 0 } }
  else
    match Block.malloc (wrap32 (num + 1)) with
    | none =>
        .err { s with
          readStatus := .stringWait
          parsing := { s.parsing with
            parsingNum := num, sizeStr := num, curSizeStr := 0, parsingStr := none } }
    | some b =>
        .next { s with
          readStatus := .stringWait
          parsing := { s.parsing with
            parsingNum := 0, sizeStr := num, curSizeStr := 0, parsingStr := some b } }

/-- The last byte of a string: the string is terminated, copied into the next slot of `argv`, and
freed. -/
def stringEnd (s : ParseState) : Fed :=
  let size := s.parsing.sizeStr
  match storeByte s.parsing.parsingStr size 0 with
  | none => .fault
  | some str =>
      match Block.malloc (wrap32 (size + 1)) with
      | none =>
          match storeSlot s.argv s.curCountArgv none with
          | none => .fault
          | some slots =>
              .err { s with argv := some slots, parsing := { s.parsing with parsingStr := some str } }
      | some arg =>
          match Block.copy? arg 0 str 0 (wrap32 (size + 1)) with
          | none => .fault
          | some arg =>
              match storeSlot s.argv s.curCountArgv (some arg) with
              | none => .fault
              | some slots =>
                  let count := wrap32 (s.curCountArgv + 1)
                  .next { s with
                    argv := some slots
                    curCountArgv := count
                    readStatus := if count = s.argc then .endWait else .startStringWait
                    parsing := { s.parsing with parsingStr := none, sizeStr := 0, curSizeStr := 0 } }

/-- A byte of a string. -/
def strSym (s : ParseState) (c : UInt8) : Fed :=
  match storeByte s.parsing.parsingStr s.parsing.curSizeStr c with
  | none => .fault
  | some str =>
      let cur := wrap32 (s.parsing.curSizeStr + 1)
      let s := { s with parsing := { s.parsing with parsingStr := some str, curSizeStr := cur } }
      if cur = s.parsing.sizeStr then stringEnd s else .next s

/-- One pass through the loop body of `parse_cli_mes`, with `c` the byte it looks at. A byte no
branch takes is skipped. -/
def feed (s : ParseState) (c : UInt8) : Fed :=
  if c = 42 ∧ s.readStatus = .arrayWait then
    .next { s with readStatus := .numOrMinusWait }
  else if (isDigit c ∨ c = 45) ∧ s.readStatus = .numOrMinusWait then
    if isDigit c then
      .next { s with
        readStatus := .numWait
        parsing := { s.parsing with
          parsingNum := wrap32 (s.parsing.parsingNum * 10 + digitVal c), isNegative := false } }
    else
      .next { s with readStatus := .numWait, parsing := { s.parsing with isNegative := true } }
  else if isDigit c ∧ s.readStatus = .numWait then
    .next { s with
      parsing := { s.parsing with
        parsingNum := wrap32 (s.parsing.parsingNum * 10 + digitVal c) } }
  else if c = 13 ∧ s.readStatus = .numWait then headerEnd s
  else if c = 10 ∧ s.readStatus = .startStringWait then .next s
  else if c = 10 ∧ s.readStatus = .stringWait then .next { s with readStatus := .strSymWait }
  else if c = 36 ∧ s.readStatus = .startStringWait then
    .next { s with readStatus := .numOrMinusWait }
  else if s.readStatus = .strSymWait then strSym s c
  else if s.readStatus = .endWait then
    if c = 10 then .all s else .next s
  else .next s

/-! ## One byte in each state -/

section Feed

variable {s : ParseState}

theorem feed_arrayWait (h : s.readStatus = .arrayWait) (c : UInt8) :
    feed s c = .next (if c = 42 then { s with readStatus := .numOrMinusWait } else s) := by
  unfold feed
  by_cases hc : c = 42 <;> simp [h, hc]

theorem feed_numOrMinusWait (h : s.readStatus = .numOrMinusWait) (c : UInt8) :
    feed s c = .next (
      if isDigit c then
        { s with
          readStatus := .numWait
          parsing := { s.parsing with
            parsingNum := wrap32 (s.parsing.parsingNum * 10 + digitVal c), isNegative := false } }
      else if c = 45 then
        { s with readStatus := .numWait, parsing := { s.parsing with isNegative := true } }
      else s) := by
  unfold feed
  by_cases hdigit : isDigit c = true
  · simp [h, hdigit]
  · have hsign : isDigit 45 = false := rfl
    by_cases hminus : c = 45 <;> simp [h, hdigit, hminus, hsign]

theorem feed_numWait (h : s.readStatus = .numWait) (c : UInt8) :
    feed s c =
      if isDigit c then
        .next { s with
          parsing := { s.parsing with
            parsingNum := wrap32 (s.parsing.parsingNum * 10 + digitVal c) } }
      else if c = 13 then headerEnd s
      else .next s := by
  unfold feed
  by_cases hdigit : isDigit c = true
  · simp [h, hdigit]
  · have hreturn : isDigit 13 = false := rfl
    by_cases hcr : c = 13 <;> simp [h, hdigit, hcr, hreturn]

theorem feed_stringWait (h : s.readStatus = .stringWait) (c : UInt8) :
    feed s c = .next (if c = 10 then { s with readStatus := .strSymWait } else s) := by
  unfold feed
  by_cases hc : c = 10 <;> simp [h, hc]

theorem feed_startStringWait (h : s.readStatus = .startStringWait) (c : UInt8) :
    feed s c = .next (if c = 36 then { s with readStatus := .numOrMinusWait } else s) := by
  unfold feed
  by_cases hlf : c = 10
  · simp [h, hlf]
  · by_cases hc : c = 36 <;> simp [h, hlf, hc]

theorem feed_strSymWait (h : s.readStatus = .strSymWait) (c : UInt8) :
    feed s c = strSym s c := by
  unfold feed
  simp [h]

theorem feed_endWait (h : s.readStatus = .endWait) (c : UInt8) :
    feed s c = if c = 10 then .all s else .next s := by
  unfold feed
  simp [h]

/-- What the last byte of a string does: it sets the next slot of `argv`, if there is such a slot
and room for the argument. -/
theorem stringEnd_cases (s : ParseState) :
    stringEnd s = .fault ∨
      (∃ str slots, storeSlot s.argv s.curCountArgv none = some slots ∧
        wrap32 (s.parsing.sizeStr + 1) < 0 ∧ stringEnd s = .err { s with
          argv := some slots, parsing := { s.parsing with parsingStr := some str } }) ∨
      ∃ arg slots, storeSlot s.argv s.curCountArgv (some arg) = some slots ∧
        0 ≤ wrap32 (s.parsing.sizeStr + 1) ∧ stringEnd s = .next { s with
          argv := some slots
          curCountArgv := wrap32 (s.curCountArgv + 1)
          readStatus := if wrap32 (s.curCountArgv + 1) = s.argc then .endWait else .startStringWait
          parsing := { s.parsing with parsingStr := none, sizeStr := 0, curSizeStr := 0 } } := by
  cases hstore : storeByte s.parsing.parsingStr s.parsing.sizeStr 0 with
  | none => exact .inl (by simp only [stringEnd, hstore])
  | some str =>
      have hsize : Block.malloc (wrap32 (s.parsing.sizeStr + 1)) = none ↔
          wrap32 (s.parsing.sizeStr + 1) < 0 := by simp [Block.malloc]
      cases hmalloc : Block.malloc (wrap32 (s.parsing.sizeStr + 1)) with
      | none =>
          cases hslot : storeSlot s.argv s.curCountArgv none with
          | none => exact .inl (by simp only [stringEnd, hstore, hmalloc, hslot])
          | some slots =>
              exact .inr (.inl ⟨str, slots, rfl, hsize.mp hmalloc, by
                simp only [stringEnd, hstore, hmalloc, hslot]⟩)
      | some fresh =>
          cases hcopy : Block.copy? fresh 0 str 0 (wrap32 (s.parsing.sizeStr + 1)) with
          | none => exact .inl (by simp only [stringEnd, hstore, hmalloc, hcopy])
          | some arg =>
              cases hslot : storeSlot s.argv s.curCountArgv (some arg) with
              | none => exact .inl (by simp only [stringEnd, hstore, hmalloc, hcopy, hslot])
              | some slots =>
                  have hroom : ¬ wrap32 (s.parsing.sizeStr + 1) < 0 := by
                    rw [← hsize, hmalloc]
                    simp
                  exact .inr (.inr ⟨arg, slots, hslot, not_lt.mp hroom, by
                    simp only [stringEnd, hstore, hmalloc, hcopy, hslot]⟩)

/-- What a byte of a string does: it is stored, and the last one ends the string. -/
theorem strSym_cases (s : ParseState) (c : UInt8) :
    strSym s c = .fault ∨
      ∃ s₁, s₁ = { s with parsing := { s.parsing with
          parsingStr := s₁.parsing.parsingStr
          curSizeStr := wrap32 (s.parsing.curSizeStr + 1) } } ∧
        s₁.parsing.parsingStr.isSome ∧ (strSym s c = .next s₁ ∨ strSym s c = stringEnd s₁) := by
  cases hstore : storeByte s.parsing.parsingStr s.parsing.curSizeStr c with
  | none => exact .inl (by simp only [strSym, hstore])
  | some str =>
      refine .inr ⟨{ s with parsing := { s.parsing with
        parsingStr := some str, curSizeStr := wrap32 (s.parsing.curSizeStr + 1) } }, rfl, rfl, ?_⟩
      by_cases hlast : wrap32 (s.parsing.curSizeStr + 1) = s.parsing.sizeStr
      · exact .inr (by simp only [strSym, hstore, hlast, if_true])
      · exact .inl (by simp only [strSym, hstore, hlast, if_false])

/-- Only the line feed behind the last argument completes a request. -/
theorem feed_eq_all {s' : ParseState} {c : UInt8} (hfeed : feed s c = .all s') :
    s' = s ∧ s.readStatus = .endWait := by
  cases hstatus : s.readStatus with
  | arrayWait =>
      rw [feed_arrayWait hstatus] at hfeed
      cases hfeed
  | numOrMinusWait =>
      rw [feed_numOrMinusWait hstatus] at hfeed
      cases hfeed
  | numWait =>
      rw [feed_numWait hstatus] at hfeed
      split at hfeed
      · cases hfeed
      · split at hfeed
        · simp only [headerEnd] at hfeed
          split at hfeed <;> split at hfeed <;> cases hfeed
        · cases hfeed
  | stringWait =>
      rw [feed_stringWait hstatus] at hfeed
      cases hfeed
  | startStringWait =>
      rw [feed_startStringWait hstatus] at hfeed
      cases hfeed
  | strSymWait =>
      rw [feed_strSymWait hstatus] at hfeed
      rcases strSym_cases s c with hfault | ⟨s₁, -, -, hnext | hend⟩
      · simp [hfault] at hfeed
      · simp [hnext] at hfeed
      · rcases stringEnd_cases s₁ with hfault | ⟨str, slots, -, -, herr⟩ | ⟨arg, slots, -, -, hnext⟩
        · simp [hend, hfault] at hfeed
        · simp [hend, herr] at hfeed
        · simp [hend, hnext] at hfeed
  | endWait =>
      rw [feed_endWait hstatus] at hfeed
      split at hfeed
      · cases hfeed
        exact ⟨rfl, rfl⟩
      · cases hfeed

end Feed

/-! ## The read buffer -/

/-- `BUFFER_SIZE` -/
def bufferSize : Nat := 200

/-- `struct Tsocket_read_data`. The bytes are of any type `α` with a `UInt8` value, so that nothing
depends on where they come from. -/
structure TsocketReadData (α : Type*) where
  parse : ParseState
  curBufferSize : Nat
  readBuffer : List α
  exitStatus : EexitStatus

/-- How one call of `parse_cli_mes` ends. -/
inductive PassEnd where
  | err
  | notAll
  | all
  | fault
  deriving DecidableEq

/-- One call of `parse_cli_mes`: the bytes it examined, each with the state it found. -/
structure Pass (α : Type*) where
  parse : ParseState
  ending : PassEnd
  examined : List (ParseState × α)

section Pass

variable {α : Type*} (val : α → UInt8)

/-- The loop of `parse_cli_mes` from `cur_buffer_index` on, where `rest` is what the buffer holds
from there. Reading past the end of the buffer is a fault. -/
def parseLoop (curBufferSize : Nat) (s : ParseState) (curBufferIndex : Nat) : List α → Pass α
  | [] => ⟨s, .fault, []⟩
  | b :: rest =>
      match feed s (val b) with
      | .fault => ⟨s, .fault, [(s, b)]⟩
      | .err s' => ⟨s', .err, [(s, b)]⟩
      | .all s' => ⟨s', .all, [(s, b)]⟩
      | .next s' =>
          if curBufferIndex + 1 ≥ curBufferSize then ⟨s', .notAll, [(s, b)]⟩
          else
            let pass := parseLoop curBufferSize s' (curBufferIndex + 1) rest
            { pass with examined := (s, b) :: pass.examined }

/-- `replace_part_of_buffer` -/
def replacePartOfBuffer (d : TsocketReadData α) (curBufferIndex : Nat) : TsocketReadData α :=
  let left := d.curBufferSize - curBufferIndex
  { d with
    readBuffer := (d.readBuffer.drop curBufferIndex).take left ++ d.readBuffer.drop left
    curBufferSize := left }

/-- `parse_cli_mes` -/
def parseCliMes (d : TsocketReadData α) : TsocketReadData α × Pass α :=
  let pass := parseLoop val d.curBufferSize d.parse 0 d.readBuffer
  let d := { d with parse := pass.parse }
  match pass.ending with
  | .err => ({ d with exitStatus := .err }, pass)
  | .notAll => ({ d with curBufferSize := 0, exitStatus := .notAll }, pass)
  | .all => ({ replacePartOfBuffer d pass.examined.length with exitStatus := .all }, pass)
  | .fault => (d, pass)

end Pass

end PgRedisProxy
