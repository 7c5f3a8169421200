import PgRedisProxy.Base.Resp
import PgRedisProxy.Socket.ReadLoop

/-!
# The fields of a request in the parser

What the automaton makes of the parts of a well-formed request: a number, also with
leading zeros, the payload of a string, an argument, and all arguments together.
`feedAll` is a run through bytes that neither complete a request nor fail.
`ParseState.Reading` and `ParseState.Between` say what the members of the parser hold
inside the payload of a string and between two strings. `feedAll_request` is the main
result.
-/

namespace PgRedisProxy

open CLang Resp

/-- The parser after some bytes, if it passes from each to the next one. -/
def feedAll (s : ParseState) : List UInt8 → Option ParseState
  | [] => some s
  | c :: bytes =>
      match feed s c with
      | .next s' => feedAll s' bytes
      | _ => none

theorem feedAll_append (s : ParseState) (first second : List UInt8) :
    feedAll s (first ++ second) = (feedAll s first).bind fun s' => feedAll s' second := by
  induction first generalizing s with
  | nil => rfl
  | cons c first ih =>
      simp only [List.cons_append, feedAll]
      cases feed s c with
      | next s' => exact ih s'
      | err s' => rfl
      | all s' => rfl
      | fault => rfl

@[simp] theorem feedAll_singleton {s s' : ParseState} {c : UInt8} (h : feed s c = .next s') :
    feedAll s [c] = some s' := by
  simp [feedAll, h]

/-! ## Numbers -/

section Number

variable {s : ParseState} {c : UInt8}

/-- A digit that does not make the number wrap. -/
theorem feed_digit (hstatus : s.readStatus = .numWait) (hdigit : isDigit c = true)
    (hnonneg : 0 ≤ s.parsing.parsingNum) (hlt : s.parsing.parsingNum * 10 + digitVal c < 2 ^ 31) :
    feed s c = .next { s with parsing := { s.parsing with
      parsingNum := s.parsing.parsingNum * 10 + digitVal c } } := by
  obtain ⟨hval, -⟩ := digitVal_range hdigit
  rw [feed_numWait hstatus, if_pos hdigit, wrap32_of_range (by omega) hlt]

/-- The end of a number. -/
theorem feed_return (hstatus : s.readStatus = .numWait) : feed s 13 = headerEnd s := by
  have hdigit : isDigit 13 = false := rfl
  rw [feed_numWait hstatus, hdigit]
  simp

/-- Digits are read one by one as long as the number fits. -/
theorem feedAll_moreDigits (hstatus : s.readStatus = .numWait) (hnonneg : 0 ≤ s.parsing.parsingNum)
    {digits : List UInt8} (hdigits : ∀ c ∈ digits, isDigit c = true)
    (hlt : readDigits s.parsing.parsingNum digits < 2 ^ 31) :
    feedAll s digits = some { s with parsing := { s.parsing with
      parsingNum := readDigits s.parsing.parsingNum digits } } := by
  induction digits generalizing s with
  | nil => rfl
  | cons c digits ih =>
      have hdigit := hdigits c List.mem_cons_self
      have hothers : ∀ d ∈ digits, isDigit d = true :=
        fun d hd => hdigits d (List.mem_cons_of_mem _ hd)
      obtain ⟨hval, -⟩ := digitVal_range hdigit
      have hnext : 0 ≤ s.parsing.parsingNum * 10 + digitVal c := by omega
      rw [readDigits_cons] at hlt
      have hgrow := le_readDigits hnext hothers
      rw [feedAll, feed_digit hstatus hdigit hnonneg (by omega)]
      exact ih hstatus hnext hothers hlt

/-- A number that fits is read as it is written, also with leading zeros. -/
theorem feedAll_digits (hstatus : s.readStatus = .numOrMinusWait)
    (hzero : s.parsing.parsingNum = 0) {digits : List UInt8} {n : Nat}
    (hread : readNat digits = some n) (hn : n < 2 ^ 31) :
    feedAll s digits = some { s with
      readStatus := .numWait
      parsing := { s.parsing with parsingNum := n, isNegative := false } } := by
  obtain ⟨hne, hdigits, hvalue⟩ := readDigits_of_readNat hread
  obtain ⟨c, digits, rfl⟩ := List.exists_cons_of_ne_nil hne
  have hdigit := hdigits c List.mem_cons_self
  obtain ⟨hval, hval9⟩ := digitVal_range hdigit
  have hfirst : wrap32 (s.parsing.parsingNum * 10 + digitVal c) = digitVal c := by
    rw [hzero, wrap32_of_range] <;> omega
  rw [readDigits_cons, Int.zero_mul, Int.zero_add] at hvalue
  rw [feedAll, feed_numOrMinusWait hstatus, if_pos hdigit, hfirst]
  have hmore := feedAll_moreDigits (s := { s with
      readStatus := .numWait
      parsing := { s.parsing with parsingNum := digitVal c, isNegative := false } }) rfl hval
    (fun d hd => hdigits d (List.mem_cons_of_mem _ hd))
    (by show readDigits (digitVal c) _ < _; omega)
  simpa only [hvalue] using hmore

end Number

/-! ## Strings -/

/-- The slot of `argv` for an argument: its bytes and a terminator. -/
def argSlot (argument : List UInt8) : Option Block :=
  some (Block.ofBytes (argument ++ [0]))

/-- The parser has collected these of the `n` arguments of a request. -/
structure ParseState.Collects (s : ParseState) (n : Nat) (args : List (List UInt8)) : Prop where
  argc_eq : s.argc = n
  argv_eq : s.argv = some (args.map argSlot ++ List.replicate (n - args.length) none)
  curCount_eq : s.curCountArgv = args.length
  length_le : args.length ≤ n
  count_lt : n < 2 ^ 31

/-- The parser is between two strings, or behind the last one. -/
structure ParseState.Between (s : ParseState) (n : Nat) (args : List (List UInt8)) : Prop where
  collects : s.Collects n args
  num_eq : s.parsing.parsingNum = 0
  status_eq : s.readStatus = if args.length = n then .endWait else .startStringWait

/-- The parser has a buffer for a string of `size` bytes which holds these of them. -/
structure ParseState.Filling (s : ParseState) (n : Nat) (args : List (List UInt8)) (size : Nat)
    (done : List UInt8) : Prop where
  collects : s.Collects n args
  count_lt : args.length < n
  num_eq : s.parsing.parsingNum = 0
  size_eq : s.parsing.sizeStr = size
  size_lt : size < 2 ^ 31 - 1
  cur_eq : s.parsing.curSizeStr = done.length
  cur_lt : done.length < size
  str : ∃ b, s.parsing.parsingStr = some b ∧ b.Holds done (size + 1 - done.length)

/-- The parser is inside the payload of a string. -/
structure ParseState.Reading (s : ParseState) (n : Nat) (args : List (List UInt8)) (size : Nat)
    (done : List UInt8) : Prop extends s.Filling n args size done where
  status_eq : s.readStatus = .strSymWait

/-- The parser is behind the `$` of an argument. -/
structure ParseState.AtLength (s : ParseState) (n : Nat) (args : List (List UInt8)) : Prop where
  collects : s.Collects n args
  count_lt : args.length < n
  num_eq : s.parsing.parsingNum = 0
  status_eq : s.readStatus = .numOrMinusWait

section Strings

variable {s : ParseState} {n : Nat} {args : List (List UInt8)}

/-- Nothing but the count and the slots matters to what is collected. -/
theorem ParseState.Collects.of_eq {s' : ParseState} (hs : s.Collects n args)
    (hargc : s'.argc = s.argc) (hargv : s'.argv = s.argv)
    (hcount : s'.curCountArgv = s.curCountArgv) : s'.Collects n args :=
  ⟨hargc.trans hs.argc_eq, hargv.trans hs.argv_eq, hcount.trans hs.curCount_eq, hs.length_le,
    hs.count_lt⟩

/-- The next slot is in range, and setting it adds an argument. -/
theorem ParseState.Collects.storeSlot (hs : s.Collects n args) (hlt : args.length < n)
    (argument : List UInt8) :
    storeSlot s.argv s.curCountArgv (argSlot argument) =
      some ((args ++ [argument]).map argSlot ++
        List.replicate (n - (args ++ [argument]).length) none) := by
  have hroom : n - args.length = n - (args.length + 1) + 1 := by omega
  have hargs : (args.map argSlot).length = args.length := List.length_map _
  have hset : (args.map argSlot ++ List.replicate (n - args.length) none).set args.length
      (argSlot argument) =
      (args ++ [argument]).map argSlot ++ List.replicate (n - (args ++ [argument]).length) none := by
    rw [hroom, List.replicate_succ, ← hargs, List.set_append_right _ _ le_rfl, Nat.sub_self,
      List.set_cons_zero]
    simp
  have hrange : (0 : Int) ≤ args.length ∧ (args.length : Int) <
      (args.map argSlot ++ List.replicate (n - args.length) none).length := by
    simp only [List.length_append, List.length_map, List.length_replicate]
    omega
  simp only [PgRedisProxy.storeSlot, hs.argv_eq, hs.curCount_eq, Option.bind_eq_bind,
    Option.bind_some, hrange, and_self, if_true, Int.toNat_natCast, hset]

/-- The next byte of a string is stored behind those before it. -/
theorem ParseState.Filling.storeByte {size : Nat} {done : List UInt8}
    (hs : s.Filling n args size done) (c : UInt8) :
    ∃ b, storeByte s.parsing.parsingStr s.parsing.curSizeStr c = some b ∧
      b.Holds (done ++ [c]) (size - done.length) := by
  obtain ⟨b, hb, hholds⟩ := hs.str
  have hlt := hs.cur_lt
  obtain ⟨b', hwrite, hholds'⟩ := hholds.write done.length [c] rfl (by simp; omega)
  refine ⟨b', ?_, ?_⟩
  · simpa [PgRedisProxy.storeByte, hb, hs.cur_eq] using hwrite
  · have hroom : size + 1 - done.length - 1 = size - done.length := by omega
    simpa [hroom] using hholds'

/-- The end of the argument count: a slot is allocated for each argument. -/
theorem headerEnd_between (hargc : s.argc = -1) (hnumber : s.number = n) (hpos : 0 < n)
    (hlt : n < 2 ^ 31) : ∃ s', headerEnd s = .next s' ∧ s'.Between n [] := by
  have hmalloc : mallocSlots (n : Int) = some (List.replicate n none) := rfl
  simp only [headerEnd, hargc, if_true, hnumber, hmalloc]
  refine ⟨_, rfl, ?_⟩
  exact
    { collects := ⟨rfl, by simp, rfl, Nat.zero_le n, hlt⟩
      num_eq := rfl
      status_eq := by rw [List.length_nil, if_neg (by omega)] }

/-- The end of the length of a string: a buffer is allocated for it and its terminator. -/
theorem headerEnd_length {size : Nat} (hcollects : s.Collects n args) (hlt : args.length < n)
    (hnumber : s.number = size) (hpos : 0 < size) (hsize : size < 2 ^ 31 - 1) :
    ∃ s', headerEnd s = .next s' ∧ s'.readStatus = .stringWait ∧ s'.Filling n args size [] := by
  have hargc : s.argc ≠ -1 := by
    rw [hcollects.argc_eq]
    omega
  have hroom : wrap32 ((size : Int) + 1) = (size + 1 : Nat) := by
    rw [wrap32_of_range] <;> omega
  have hmalloc : Block.malloc ((size + 1 : Nat) : Int) = some (Block.alloc (size + 1)) := rfl
  simp only [headerEnd, hargc, if_false, hnumber, hroom, hmalloc]
  exact ⟨_, rfl, rfl,
    { collects := hcollects.of_eq rfl rfl rfl
      count_lt := hlt
      num_eq := rfl
      size_eq := rfl
      size_lt := hsize
      cur_eq := rfl
      cur_lt := hpos
      str := ⟨_, rfl, Block.holds_alloc (size + 1)⟩ }⟩

/-- The line feed behind the length of a string. -/
theorem ParseState.Filling.feed_lf {size : Nat} {done : List UInt8}
    (hs : s.Filling n args size done) (hstatus : s.readStatus = .stringWait) :
    ∃ s', feed s 10 = .next s' ∧ s'.Reading n args size done := by
  refine ⟨{ s with readStatus := .strSymWait }, ?_, ?_⟩
  · rw [feed_stringWait hstatus, if_pos rfl]
  · exact
      { collects := hs.collects.of_eq rfl rfl rfl
        count_lt := hs.count_lt
        num_eq := hs.num_eq
        size_eq := hs.size_eq
        size_lt := hs.size_lt
        cur_eq := hs.cur_eq
        cur_lt := hs.cur_lt
        str := hs.str
        status_eq := rfl }

/-- When the last byte of a string is there, the string is terminated and becomes the next
argument. -/
theorem stringEnd_between {size : Nat} {argument : List UInt8} {b : Block}
    (hs : s.Collects n args) (hlt : args.length < n) (hnum : s.parsing.parsingNum = 0)
    (hsize : s.parsing.sizeStr = size) (hsizeLt : size < 2 ^ 31 - 1)
    (hlength : argument.length = size) (hstr : s.parsing.parsingStr = some b)
    (hb : b.Holds argument 1) :
    ∃ s', stringEnd s = .next s' ∧ s'.Between n (args ++ [argument]) := by
  -- the terminator fills the block, so that it holds the argument and nothing indeterminate
  obtain ⟨b', hwrite, hholds⟩ := hb.write size [0] hlength.symm (by simp)
  have hb' : b' = Block.ofBytes (argument ++ [0]) := hholds.eq_ofBytes
  have hterminate : storeByte s.parsing.parsingStr s.parsing.sizeStr 0 =
      some (Block.ofBytes (argument ++ [0])) := by
    rw [← hb']
    simpa [storeByte, hstr, hsize] using hwrite
  have hroom : wrap32 (s.parsing.sizeStr + 1) = (size + 1 : Nat) := by
    rw [hsize, wrap32_of_range] <;> omega
  have hmalloc : Block.malloc ((size + 1 : Nat) : Int) = some (Block.alloc (size + 1)) := rfl
  have hcopy : Block.copy? (Block.alloc (size + 1)) 0 (Block.ofBytes (argument ++ [0])) 0
      ((size + 1 : Nat) : Int) = some (Block.ofBytes (argument ++ [0])) := by
    have hread : (Block.ofBytes (argument ++ [0])).read 0 (size + 1) =
        Block.ofBytes (argument ++ [0]) := by
      have hread := Block.read_all_ofBytes (argument ++ [0])
      rwa [List.length_append, List.length_singleton, hlength] at hread
    have hfits : 0 + (Block.ofBytes (argument ++ [0])).length ≤ (Block.alloc (size + 1)).length := by
      simp [hlength]
    rw [Block.copy?, if_neg (by omega), Int.toNat_natCast, hread, Block.write?_of_le hfits,
      Block.write_zero (by simpa using hfits)]
    simp [Block.alloc, hlength]
  have hcount : wrap32 (s.curCountArgv + 1) = (((args ++ [argument]).length : Nat) : Int) := by
    have := hs.count_lt
    rw [hs.curCount_eq, List.length_append, List.length_singleton, wrap32_of_range] <;> omega
  -- the test for the last argument compares the counts as integers
  have hdone : ((((args ++ [argument]).length : Nat) : Int) = s.argc) =
      ((args ++ [argument]).length = n) := by
    rw [hs.argc_eq, Nat.cast_inj]
  have hslot : PgRedisProxy.storeSlot s.argv s.curCountArgv
      (some (Block.ofBytes (argument ++ [0]))) = _ := hs.storeSlot hlt argument
  refine ⟨{ s with
    argv := some ((args ++ [argument]).map argSlot ++
      List.replicate (n - (args ++ [argument]).length) none)
    curCountArgv := ((args ++ [argument]).length : Nat)
    readStatus := if (args ++ [argument]).length = n then .endWait else .startStringWait
    parsing := { s.parsing with parsingStr := none, sizeStr := 0, curSizeStr := 0 } }, ?_, ?_⟩
  · simp only [stringEnd, hterminate, hroom, hmalloc, hcopy, hslot, hcount, hdone]
  · exact
      { collects :=
          { argc_eq := hs.argc_eq
            argv_eq := rfl
            curCount_eq := rfl
            length_le := by simpa using Nat.succ_le_of_lt hlt
            count_lt := hs.count_lt }
        num_eq := hnum
        status_eq := rfl }

/-- A byte of a string that is not the last one. -/
theorem ParseState.Reading.feed_next {size : Nat} {done : List UInt8}
    (hs : s.Reading n args size done) (c : UInt8) (hmore : done.length + 1 < size) :
    ∃ s', feed s c = .next s' ∧ s'.Reading n args size (done ++ [c]) := by
  obtain ⟨b, hstore, hholds⟩ := hs.storeByte c
  have hsize := hs.size_lt
  have hcur : wrap32 (s.parsing.curSizeStr + 1) = (done ++ [c]).length := by
    rw [hs.cur_eq, List.length_append, List.length_singleton, wrap32_of_range] <;> omega
  have hnot : ¬ (((done ++ [c]).length : Nat) : Int) = s.parsing.sizeStr := by
    rw [hs.size_eq, List.length_append, List.length_singleton]
    omega
  refine ⟨{ s with parsing := { s.parsing with
    parsingStr := some b, curSizeStr := (done ++ [c]).length } }, ?_, ?_⟩
  · rw [feed_strSymWait hs.status_eq]
    simp only [strSym, hstore, hcur, hnot, if_false]
  · exact
      { collects := hs.collects.of_eq rfl rfl rfl
        count_lt := hs.count_lt
        num_eq := hs.num_eq
        size_eq := hs.size_eq
        size_lt := hs.size_lt
        cur_eq := rfl
        cur_lt := by simpa using hmore
        str := ⟨b, rfl, by simpa [Nat.add_sub_add_right] using hholds⟩
        status_eq := hs.status_eq }

/-- The last byte of a string. -/
theorem ParseState.Reading.feed_last {size : Nat} {done : List UInt8}
    (hs : s.Reading n args size done) (c : UInt8) (hlast : done.length + 1 = size) :
    ∃ s', feed s c = .next s' ∧ s'.Between n (args ++ [done ++ [c]]) := by
  obtain ⟨b, hstore, hholds⟩ := hs.storeByte c
  have hsize := hs.size_lt
  have hcur : wrap32 (s.parsing.curSizeStr + 1) = s.parsing.sizeStr := by
    rw [hs.cur_eq, hs.size_eq, wrap32_of_range] <;> omega
  have hroom : size - done.length = 1 := by omega
  rw [hroom] at hholds
  let full := { s with parsing := { s.parsing with
    parsingStr := some b, curSizeStr := s.parsing.sizeStr } }
  have hfull : full.Collects n args := hs.collects.of_eq rfl rfl rfl
  obtain ⟨s', hend, hbetween⟩ := stringEnd_between hfull hs.count_lt hs.num_eq hs.size_eq hsize
    (by simpa using hlast) rfl hholds
  refine ⟨s', ?_, hbetween⟩
  rw [feed_strSymWait hs.status_eq]
  simp only [strSym, hstore, hcur, if_true]
  exact hend

/-- A part of the payload of a string. -/
theorem ParseState.Reading.feedAll_part {size : Nat} {done : List UInt8}
    (hs : s.Reading n args size done) (part : List UInt8)
    (hpart : done.length + part.length < size) :
    ∃ s', feedAll s part = some s' ∧ s'.Reading n args size (done ++ part) := by
  induction part generalizing s done with
  | nil => exact ⟨s, rfl, by simpa using hs⟩
  | cons c part ih =>
      rw [List.length_cons] at hpart
      obtain ⟨s₁, hfeed, hs₁⟩ := hs.feed_next c (by omega)
      obtain ⟨s', hrest, hs'⟩ := ih hs₁ (by rw [List.length_append, List.length_singleton]; omega)
      exact ⟨s', by simpa [feedAll, hfeed] using hrest, by simpa using hs'⟩

/-- The whole rest of the payload of a string, and nothing more, completes it. -/
theorem ParseState.Reading.feedAll_payload {size : Nat} {done : List UInt8}
    (hs : s.Reading n args size done) (payload : List UInt8)
    (hpayload : done.length + payload.length = size) :
    ∃ s', feedAll s payload = some s' ∧ s'.Between n (args ++ [done ++ payload]) := by
  have hlt := hs.cur_lt
  have hne : payload ≠ [] := by
    rintro rfl
    simp only [List.length_nil] at hpayload
    omega
  obtain ⟨part, c, rfl⟩ : ∃ part c, payload = part ++ [c] :=
    ⟨payload.dropLast, payload.getLast hne, (List.dropLast_append_getLast hne).symm⟩
  rw [List.length_append, List.length_singleton] at hpayload
  obtain ⟨s₁, hpart, hs₁⟩ := hs.feedAll_part part (by omega)
  obtain ⟨s', hfeed, hs'⟩ := hs₁.feed_last c (by rw [List.length_append]; omega)
  refine ⟨s', ?_, by simpa using hs'⟩
  rw [feedAll_append, hpart, Option.bind_some, feedAll_singleton hfeed]

/-- The end of the length of an argument makes the parser ready for its payload. -/
theorem feedAll_sizeEnd {size : Nat} (hstatus : s.readStatus = .numWait)
    (hcollects : s.Collects n args) (hlt : args.length < n) (hnumber : s.number = size)
    (hpos : 0 < size) (hsize : size < 2 ^ 31 - 1) :
    ∃ s', feedAll s crlf = some s' ∧ s'.Reading n args size [] := by
  obtain ⟨s₁, hend, hstatus₁, hs₁⟩ := headerEnd_length hcollects hlt hnumber hpos hsize
  obtain ⟨s', hlf, hs'⟩ := hs₁.feed_lf hstatus₁
  exact ⟨s', by simp [crlf, feedAll, feed_return hstatus, hend, hlf], hs'⟩

/-- The length of an argument makes the parser ready for its payload. -/
theorem ParseState.AtLength.feedAll_size (hs : s.AtLength n args) {digits : List UInt8} {size : Nat}
    (hread : readNat digits = some size) (hpos : 0 < size) (hsize : size < 2 ^ 31 - 1) :
    ∃ s', feedAll s (digits ++ crlf) = some s' ∧ s'.Reading n args size [] := by
  obtain ⟨s', hend, hs'⟩ := feedAll_sizeEnd (s := { s with
      readStatus := .numWait
      parsing := { s.parsing with parsingNum := size, isNegative := false } }) rfl
    (hs.collects.of_eq rfl rfl rfl) hs.count_lt rfl hpos hsize
  refine ⟨s', ?_, hs'⟩
  rw [feedAll_append, feedAll_digits hs.status_eq hs.num_eq hread (by omega), Option.bind_some,
    hend]

/-- The `$` of the next argument. -/
theorem ParseState.Between.feed_dollar (hs : s.Between n args) (hlt : args.length < n) :
    ∃ s', feed s 36 = .next s' ∧ s'.AtLength n args := by
  have hstatus : s.readStatus = .startStringWait := by
    rw [hs.status_eq, if_neg (by omega)]
  refine ⟨{ s with readStatus := .numOrMinusWait }, ?_, ?_⟩
  · rw [feed_startStringWait hstatus, if_pos rfl]
  · exact ⟨hs.collects.of_eq rfl rfl rfl, hlt, hs.num_eq, rfl⟩

/-- The line end between two arguments is skipped. -/
theorem ParseState.Between.feedAll_crlf (hs : s.Between n args) (hlt : args.length < n) :
    feedAll s crlf = some s := by
  have hstatus : s.readStatus = .startStringWait := by
    rw [hs.status_eq, if_neg (by omega)]
  have hskip : ∀ c : UInt8, c ≠ 36 → feed s c = .next s := by
    intro c hc
    rw [feed_startStringWait hstatus, if_neg hc]
  simp [crlf, feedAll, hskip]

/-- An argument that can be sent: not empty, and shorter than `INT_MAX`. -/
def Sendable (argument : List UInt8) : Prop :=
  argument ≠ [] ∧ argument.length < 2 ^ 31 - 1

instance (argument : List UInt8) : Decidable (Sendable argument) :=
  inferInstanceAs (Decidable (_ ∧ _))

/-- The next argument, up to its line end. -/
theorem ParseState.Between.feedAll_argument (hs : s.Between n args) (hlt : args.length < n)
    {argument part : List UInt8} (hpart : EncodesArgument argument part)
    (hargument : Sendable argument) :
    ∃ body s', part = body ++ crlf ∧ feedAll s body = some s' ∧
      s'.Between n (args ++ [argument]) := by
  obtain ⟨hne, hsize⟩ := hargument
  obtain ⟨digits, hread, rfl⟩ := hpart
  obtain ⟨s₀, hdollar, hs₀⟩ := hs.feed_dollar hlt
  obtain ⟨s₁, hhead, hs₁⟩ := hs₀.feedAll_size hread (List.length_pos_of_ne_nil hne) hsize
  obtain ⟨s', hpayload, hs'⟩ := hs₁.feedAll_payload argument (by simp)
  refine ⟨_, s', rfl, ?_, hs'⟩
  rw [feedAll_append, List.append_assoc, feedAll_append]
  simp [ascii, hdollar, hhead, hpayload]

/-- Arguments after which one is still missing. -/
theorem ParseState.Between.feedAll_some (hs : s.Between n args) {rest parts : List (List UInt8)}
    (hparts : List.Forall₂ EncodesArgument rest parts)
    (hrest : ∀ argument ∈ rest, Sendable argument) (hlength : args.length + rest.length < n) :
    ∃ s', feedAll s parts.flatten = some s' ∧ s'.Between n (args ++ rest) := by
  induction hparts generalizing s args with
  | nil => exact ⟨s, rfl, by simpa using hs⟩
  | @cons argument part rest parts hpart hparts ih =>
      rw [List.length_cons] at hlength
      obtain ⟨body, s₁, rfl, hfirst, hs₁⟩ :=
        hs.feedAll_argument (by omega) hpart (hrest argument List.mem_cons_self)
      have hlt : (args ++ [argument]).length < n := by
        rw [List.length_append, List.length_singleton]
        omega
      obtain ⟨s', hall, hs'⟩ := ih hs₁ (fun a ha => hrest a (List.mem_cons_of_mem _ ha))
        (by rw [List.length_append, List.length_singleton]; omega)
      refine ⟨s', ?_, by simpa using hs'⟩
      rw [List.flatten_cons, feedAll_append, feedAll_append, hfirst, Option.bind_some,
        hs₁.feedAll_crlf hlt, Option.bind_some, hall]

/-- All arguments that are still missing, up to the line end of the last one. -/
theorem ParseState.Between.feedAll_arguments (hs : s.Between n args)
    {rest parts : List (List UInt8)} (hparts : List.Forall₂ EncodesArgument rest parts)
    (hrest : ∀ argument ∈ rest, Sendable argument) (hne : rest ≠ [])
    (hlength : args.length + rest.length = n) :
    ∃ body s', parts.flatten = body ++ crlf ∧ feedAll s body = some s' ∧
      s'.Between n (args ++ rest) := by
  induction hparts generalizing s args with
  | nil => exact absurd rfl hne
  | @cons argument part rest parts hpart hparts ih =>
      rw [List.length_cons] at hlength
      obtain ⟨body₁, s₁, rfl, hfirst, hs₁⟩ :=
        hs.feedAll_argument (by omega) hpart (hrest argument List.mem_cons_self)
      by_cases hlast : rest = []
      · subst hlast
        cases hparts
        exact ⟨body₁, s₁, by simp, hfirst, by simpa using hs₁⟩
      · have hlt : (args ++ [argument]).length < n := by
          have := List.length_pos_of_ne_nil hlast
          rw [List.length_append, List.length_singleton]
          omega
        obtain ⟨body, s', hbody, hall, hs'⟩ := ih hs₁
          (fun a ha => hrest a (List.mem_cons_of_mem _ ha)) hlast
          (by rw [List.length_append, List.length_singleton]; omega)
        refine ⟨body₁ ++ crlf ++ body, s', ?_, ?_, by simpa using hs'⟩
        · simp [hbody]
        · rw [feedAll_append, feedAll_append, hfirst, Option.bind_some, hs₁.feedAll_crlf hlt,
            Option.bind_some, hall]

end Strings

/-! ## Requests -/

/-- What the parser delivers after the last argument. -/
theorem ParseState.Between.delivery_eq {s : ParseState} {args : List (List UInt8)}
    (hs : s.Between args.length args) : s.delivery = ⟨args.length, args.map argSlot⟩ := by
  simp [ParseState.delivery, hs.collects.argc_eq, hs.collects.argv_eq]

/-- The line feed after the last argument completes the request. -/
theorem ParseState.Between.feed_lf {s : ParseState} {args : List (List UInt8)}
    (hs : s.Between args.length args) : feed s 10 = .all s := by
  have hstatus : s.readStatus = .endWait := by
    rw [hs.status_eq, if_pos rfl]
  rw [feed_endWait hstatus, if_pos rfl]

/-- A request that can be sent: it has arguments, fewer than `INT_MAX`, and each can be sent. -/
structure WellFormed (request : Request) : Prop where
  ne_nil : request ≠ []
  length_lt : request.length < 2 ^ 31 - 1
  sendable : ∀ argument ∈ request, Sendable argument

instance (request : Request) : Decidable (WellFormed request) :=
  decidable_of_iff (request ≠ [] ∧ request.length < 2 ^ 31 - 1 ∧ ∀ argument ∈ request,
    Sendable argument) ⟨fun h => ⟨h.1, h.2.1, h.2.2⟩, fun h => ⟨h.ne_nil, h.length_lt, h.sendable⟩⟩

/-- The parser waits for a request. -/
structure ParseState.Idle (s : ParseState) : Prop where
  status_eq : s.readStatus = .arrayWait
  argc_eq : s.argc = -1
  num_eq : s.parsing.parsingNum = 0

theorem resetRequest_idle (s : ParseState) : (resetRequest s).Idle :=
  ⟨rfl, rfl, rfl⟩

/-- The parser is behind the `*` of a request. -/
structure ParseState.AtCount (s : ParseState) : Prop where
  status_eq : s.readStatus = .numOrMinusWait
  argc_eq : s.argc = -1
  num_eq : s.parsing.parsingNum = 0

/-- The `*` of a request. -/
theorem ParseState.Idle.feed_star {s : ParseState} (hs : s.Idle) :
    ∃ s', feed s 42 = .next s' ∧ s'.AtCount := by
  refine ⟨{ s with readStatus := .numOrMinusWait }, ?_, ⟨rfl, hs.argc_eq, hs.num_eq⟩⟩
  rw [feed_arrayWait hs.status_eq, if_pos rfl]

/-- A request behind the `\r` of its argument count, up to its last byte: the parser has collected
all of its arguments, and no fewer bytes complete it. -/
theorem ParseState.Between.feedAll_body {s : ParseState} {request : Request}
    {parts : List (List UInt8)} (hs : s.Between request.length [])
    (hparts : List.Forall₂ EncodesArgument request parts)
    (hrequest : ∀ argument ∈ request, Sendable argument) (hne : request ≠ []) :
    ∃ body s', 10 :: parts.flatten = body ++ [10] ∧ feedAll s body = some s' ∧
      s'.Between request.length request := by
  have hstart : s.readStatus = .startStringWait := by
    have := List.length_pos_of_ne_nil hne
    rw [hs.status_eq, List.length_nil, if_neg (by omega)]
  have hskip : feed s 10 = .next s := by
    rw [feed_startStringWait hstart, if_neg (by decide)]
  obtain ⟨body, s', hbody, hall, hs'⟩ := hs.feedAll_arguments hparts hrequest hne (by simp)
  rw [List.nil_append] at hs'
  have hstatus : s'.readStatus = .endWait := by
    rw [hs'.status_eq, if_pos rfl]
  have hreturn : feed s' 13 = .next s' := by
    rw [feed_endWait hstatus, if_neg (by decide)]
  refine ⟨10 :: body ++ [13], s', by simp [hbody, crlf], ?_, hs'⟩
  rw [feedAll_append, feedAll, hskip]
  simp only [hall, Option.bind_some]
  exact feedAll_singleton hreturn

/-- A request from its argument count on, up to its last byte. -/
theorem ParseState.AtCount.feedAll_request {s : ParseState} (hs : s.AtCount) {request : Request}
    (hrequest : WellFormed request) {digits : List UInt8}
    (hread : readNat digits = some request.length) {parts : List (List UInt8)}
    (hparts : List.Forall₂ EncodesArgument request parts) :
    ∃ body s', digits ++ crlf ++ parts.flatten = body ++ [10] ∧
      feedAll s body = some s' ∧ s'.Between request.length request := by
  have hlt := hrequest.length_lt
  obtain ⟨s₁, hend, hs₁⟩ := headerEnd_between (s := { s with
      readStatus := .numWait
      parsing := { s.parsing with parsingNum := request.length, isNegative := false } }) hs.argc_eq
    rfl (List.length_pos_of_ne_nil hrequest.ne_nil) (by omega)
  obtain ⟨body, s', hbody, hall, hs'⟩ :=
    hs₁.feedAll_body hparts hrequest.sendable hrequest.ne_nil
  refine ⟨digits ++ 13 :: body, s', by simp [crlf, hbody], ?_, hs'⟩
  rw [feedAll_append, feedAll_digits hs.status_eq hs.num_eq hread (by omega), Option.bind_some,
    feedAll, feed_return rfl, hend]
  exact hall

end PgRedisProxy
