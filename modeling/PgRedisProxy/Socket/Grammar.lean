import Mathlib.Data.List.Forall2
import PgRedisProxy.Socket.Fields
import PgRedisProxy.Socket.Trace

/-!
# The bytes of a request

Most states of the parser pass over the bytes they do not expect. `InPlace` says of a
byte that none is passed over: it is one the state looks for, a digit does not make the
number wrap, and the ends of lines come where and as they belong. `Tracks` is what the
bytes since the last request say about the parser as long as all of them are in place.
`Conn.Accepted.consumed_encode` is the main result: then the bytes of each request are
its encoding.
-/

namespace PgRedisProxy

open CLang Resp Machine

/-- The byte before and the status it was examined in, unless there is none. -/
abbrev Previous := Option (EreadStatus × UInt8)

/-- The byte `c` is one that `s` looks for. Behind the count of arguments and behind an argument it
depends on the byte before which one that is. -/
def InPlace (prev : Previous) (s : ParseState) (c : UInt8) : Prop :=
  match s.readStatus with
  | .arrayWait => c = 42
  | .numOrMinusWait => isDigit c = true ∨ c = 45
  | .numWait =>
      (isDigit c = true ∧ s.parsing.parsingNum * 10 + digitVal c < 2 ^ 31) ∨
        (c = 13 ∧ (s.argc = -1 → s.number ≠ -1))
  | .stringWait => c = 10
  | .startStringWait =>
      (c = 13 ∧ prev.map Prod.fst = some .strSymWait) ∨
        (c = 10 ∧ (prev = some (.numWait, 13) ∨ prev = some (.startStringWait, 13))) ∨
        (c = 36 ∧ prev = some (.startStringWait, 10))
  | .strSymWait => True
  | .endWait =>
      (c = 13 ∧ prev.map Prod.fst = some .strSymWait) ∨ (c = 10 ∧ prev = some (.endWait, 13))

instance (prev : Previous) (s : ParseState) (c : UInt8) : Decidable (InPlace prev s c) :=
  match h : s.readStatus with
  | .arrayWait => decidable_of_iff (c = 42) (by simp [InPlace, h])
  | .numOrMinusWait => decidable_of_iff (isDigit c = true ∨ c = 45) (by simp [InPlace, h])
  | .numWait =>
      decidable_of_iff ((isDigit c = true ∧ s.parsing.parsingNum * 10 + digitVal c < 2 ^ 31) ∨
        (c = 13 ∧ (s.argc = -1 → s.number ≠ -1))) (by simp [InPlace, h])
  | .stringWait => decidable_of_iff (c = 10) (by simp [InPlace, h])
  | .startStringWait =>
      decidable_of_iff ((c = 13 ∧ prev.map Prod.fst = some .strSymWait) ∨
        (c = 10 ∧ (prev = some (.numWait, 13) ∨ prev = some (.startStringWait, 13))) ∨
        (c = 36 ∧ prev = some (.startStringWait, 10))) (by simp [InPlace, h])
  | .strSymWait => .isTrue (by simp [InPlace, h])
  | .endWait =>
      decidable_of_iff ((c = 13 ∧ prev.map Prod.fst = some .strSymWait) ∨
        (c = 10 ∧ prev = some (.endWait, 13))) (by simp [InPlace, h])

/-! ## Requests that are never completed -/

section Doomed

variable {s s' : ParseState} {c : UInt8}

/-- There is no slot for an argument, although the count of arguments is known. -/
structure ParseState.NoSlots (s : ParseState) : Prop where
  argc_ne : s.argc ≠ -1
  argv_eq : s.argv.getD [] = []
  not_idle : s.readStatus ≠ .arrayWait
  not_end : s.readStatus ≠ .endWait

/-- There is no room for the payload of the string, whose length is not positive or whose buffer was
not allocated. -/
structure ParseState.NoRoom (s : ParseState) : Prop where
  status : s.readStatus = .stringWait ∨ s.readStatus = .strSymWait
  cur_nonneg : 0 ≤ s.parsing.curSizeStr
  str : ∀ b, s.parsing.parsingStr = some b → b.length ≤ 1 ∧ s.parsing.sizeStr ≤ 0

/-- The request will not be completed. -/
def ParseState.Doomed (s : ParseState) : Prop :=
  s.NoSlots ∨ s.NoRoom

/-- Where there is no slot, none is set. -/
theorem ParseState.NoSlots.storeSlot_eq (hs : s.NoSlots) (i : Int) (p : Option Block) :
    storeSlot s.argv i p = none := by
  have hempty := hs.argv_eq
  cases hargv : s.argv with
  | none => rfl
  | some slots =>
      rw [hargv, Option.getD_some] at hempty
      subst hempty
      simp [storeSlot]

/-- Only what it says about the slots counts. -/
theorem ParseState.NoSlots.of_eq (hs : s.NoSlots) (hargc : s'.argc = s.argc)
    (hargv : s'.argv = s.argv) (hidle : s'.readStatus ≠ .arrayWait)
    (hend : s'.readStatus ≠ .endWait) : s'.NoSlots :=
  ⟨by rw [hargc]; exact hs.argc_ne, by rw [hargv]; exact hs.argv_eq, hidle, hend⟩

/-- What a byte makes of a request that will not be completed. -/
def Fed.Doomed : Fed → Prop
  | .next s => s.Doomed
  | .err s => s.Doomed
  | .all _ => False
  | .fault => True

/-- The end of a number leaves the slots as they are once the count is known. -/
theorem ParseState.NoSlots.headerEnd (hs : s.NoSlots) : (headerEnd s).Doomed := by
  simp only [PgRedisProxy.headerEnd, if_neg hs.argc_ne]
  cases Block.malloc (wrap32 (s.number + 1)) with
  | none => exact .inl (hs.of_eq rfl rfl (by simp) (by simp))
  | some b => exact .inl (hs.of_eq rfl rfl (by simp) (by simp))

/-- A payload is read, but there is no slot for it. -/
theorem ParseState.NoSlots.strSym (hs : s.NoSlots) : (strSym s c).Doomed := by
  rcases strSym_cases s c with hfault | ⟨s₁, hs₁, -, hnext | hend⟩
  · rw [hfault]
    trivial
  · rw [hnext]
    refine .inl (hs.of_eq ?_ ?_ ?_ ?_) <;> rw [hs₁]
    · exact hs.not_idle
    · exact hs.not_end
  · have hslots : s₁.NoSlots := by
      refine hs.of_eq ?_ ?_ ?_ ?_ <;> rw [hs₁]
      · exact hs.not_idle
      · exact hs.not_end
    rw [hend]
    rcases stringEnd_cases s₁ with hfault | ⟨str, slots, hslot, -⟩ | ⟨arg, slots, hslot, -⟩
    · rw [hfault]
      trivial
    · rw [hslots.storeSlot_eq] at hslot
      cases hslot
    · rw [hslots.storeSlot_eq] at hslot
      cases hslot

/-- The first byte of a payload without room is stored at best, and never ends the string. -/
theorem ParseState.NoRoom.strSym (hs : s.NoRoom) (hstatus : s.readStatus = .strSymWait) :
    (strSym s c).Doomed := by
  cases hstr : s.parsing.parsingStr with
  | none =>
      have hfault : PgRedisProxy.strSym s c = .fault := by
        simp [PgRedisProxy.strSym, storeByte, hstr]
      rw [hfault]
      trivial
  | some b =>
      obtain ⟨hlen, hsize⟩ := hs.str b hstr
      have hcur := hs.cur_nonneg
      cases hwrite : b.write? s.parsing.curSizeStr.toNat [some c] with
      | none =>
          have hfault : PgRedisProxy.strSym s c = .fault := by
            simp [PgRedisProxy.strSym, storeByte, hstr, hwrite]
          rw [hfault]
          trivial
      | some b' =>
          have hfits : s.parsing.curSizeStr.toNat + 1 ≤ b.length := by
            unfold Block.write? at hwrite
            split at hwrite
            · assumption
            · cases hwrite
          have hb' : b'.length = b.length := by
            rw [Block.write?_of_le hfits, Option.some.injEq] at hwrite
            rw [← hwrite, Block.length_write]
          have hzero : s.parsing.curSizeStr = 0 := by omega
          have hstore : storeByte s.parsing.parsingStr s.parsing.curSizeStr c = some b' := by
            simp [storeByte, hstr, hwrite, hcur]
          have hone : wrap32 (s.parsing.curSizeStr + 1) = 1 := by
            rw [hzero]
            rfl
          have hnot : ¬ (1 : Int) = s.parsing.sizeStr := by omega
          simp only [PgRedisProxy.strSym, hstore, hone, hnot, if_false]
          refine .inr ⟨.inr hstatus, ?_, fun b₁ hb₁ => ?_⟩
          · show (0 : Int) ≤ 1
            omega
          · obtain rfl : b' = b₁ := Option.some.inj hb₁
            exact ⟨hb' ▸ hlen, hsize⟩

/-- A request that will not be completed stays so, whatever is received. -/
theorem feed_doomed (hs : s.Doomed) (c : UInt8) : (feed s c).Doomed := by
  rcases hs with hs | hs
  · cases hstatus : s.readStatus with
    | arrayWait => exact absurd hstatus hs.not_idle
    | endWait => exact absurd hstatus hs.not_end
    | numOrMinusWait =>
        rw [feed_numOrMinusWait hstatus]
        refine .inl (hs.of_eq ?_ ?_ ?_ ?_) <;> split <;> try split
        all_goals simp [hstatus]
    | numWait =>
        rw [feed_numWait hstatus]
        split
        · exact .inl (hs.of_eq rfl rfl hs.not_idle hs.not_end)
        · split
          · exact hs.headerEnd
          · exact .inl hs
    | stringWait =>
        rw [feed_stringWait hstatus]
        split
        · exact .inl (hs.of_eq rfl rfl (by simp) (by simp))
        · exact .inl hs
    | startStringWait =>
        rw [feed_startStringWait hstatus]
        split
        · exact .inl (hs.of_eq rfl rfl (by simp) (by simp))
        · exact .inl hs
    | strSymWait =>
        rw [feed_strSymWait hstatus]
        exact hs.strSym
  · rcases hs.status with hstatus | hstatus
    · rw [feed_stringWait hstatus]
      split
      · exact .inr ⟨.inr rfl, hs.cur_nonneg, hs.str⟩
      · exact .inr hs
    · rw [feed_strSymWait hstatus]
      exact hs.strSym hstatus

end Doomed

/-! ## Numbers -/

/-- The digits of a number, with no sign, have been read. -/
structure ParseState.Reads (s : ParseState) (digits : List UInt8) : Prop where
  status_eq : s.readStatus = .numWait
  sign_eq : s.parsing.isNegative = false
  ne_nil : digits ≠ []
  isDigit_of_mem : ∀ c ∈ digits, isDigit c = true
  num_eq : s.parsing.parsingNum = readDigits 0 digits
  num_lt : s.parsing.parsingNum < 2 ^ 31

/-- The sign of a number and some digits have been read. -/
structure ParseState.ReadsNegative (s : ParseState) : Prop where
  status_eq : s.readStatus = .numWait
  sign_eq : s.parsing.isNegative = true
  num_nonneg : 0 ≤ s.parsing.parsingNum
  num_lt : s.parsing.parsingNum < 2 ^ 31

/-- Only the number and the status are touched. -/
structure ParseState.SameArguments (s s' : ParseState) : Prop where
  argc_eq : s'.argc = s.argc
  argv_eq : s'.argv = s.argv
  curCount_eq : s'.curCountArgv = s.curCountArgv

section Numbers

variable {s : ParseState} {c : UInt8} {digits : List UInt8}

/-- The first character of a number is a digit or the sign. -/
theorem feed_first (hstatus : s.readStatus = .numOrMinusWait) (hzero : s.parsing.parsingNum = 0)
    (hc : isDigit c = true ∨ c = 45) :
    ∃ s', feed s c = .next s' ∧ s.SameArguments s' ∧ (s'.Reads [c] ∨ s'.ReadsNegative) := by
  rw [feed_numOrMinusWait hstatus]
  by_cases hdigit : isDigit c = true
  · obtain ⟨hval, hval9⟩ := digitVal_range hdigit
    have hnum : wrap32 (s.parsing.parsingNum * 10 + digitVal c) = digitVal c := by
      rw [hzero, wrap32_of_range] <;> omega
    rw [if_pos hdigit, hnum]
    refine ⟨_, rfl, ⟨rfl, rfl, rfl⟩, .inl ⟨rfl, rfl, List.cons_ne_nil c [], ?_, ?_, ?_⟩⟩
    · intro d hd
      rwa [List.mem_singleton.mp hd]
    · show digitVal c = 0 * 10 + digitVal c
      omega
    · show digitVal c < _
      omega
  · rw [if_neg hdigit, if_pos (hc.resolve_left hdigit)]
    refine ⟨_, rfl, ⟨rfl, rfl, rfl⟩, .inr ⟨rfl, rfl, hzero.ge, ?_⟩⟩
    show s.parsing.parsingNum < _
    omega

theorem ParseState.Reads.num_nonneg (hs : s.Reads digits) : 0 ≤ s.parsing.parsingNum := by
  rw [hs.num_eq]
  exact le_readDigits le_rfl hs.isDigit_of_mem

/-- One more digit. -/
theorem ParseState.Reads.feed_digit (hs : s.Reads digits) (hdigit : isDigit c = true)
    (hlt : s.parsing.parsingNum * 10 + digitVal c < 2 ^ 31) :
    ∃ s', feed s c = .next s' ∧ s.SameArguments s' ∧ s'.Reads (digits ++ [c]) := by
  refine ⟨_, PgRedisProxy.feed_digit hs.status_eq hdigit hs.num_nonneg hlt, ⟨rfl, rfl, rfl⟩,
    hs.status_eq, hs.sign_eq, by simp, ?_, ?_, hlt⟩
  · intro d hd
    rcases List.mem_append.mp hd with hd | hd
    · exact hs.isDigit_of_mem d hd
    · rwa [List.mem_singleton.mp hd]
  · rw [readDigits_append, ← hs.num_eq]
    rfl

/-- The number that has been read. -/
theorem ParseState.Reads.number_eq (hs : s.Reads digits) :
    ∃ n : Nat, readNat digits = some n ∧ s.number = n ∧ n < 2 ^ 31 := by
  obtain ⟨n, hnat, hn⟩ := readNat_eq_readDigits hs.ne_nil hs.isDigit_of_mem
  have hnumber : s.number = n := by
    unfold ParseState.number
    rw [hs.sign_eq, hs.num_eq, hn]
    rfl
  have hlt := hs.num_lt
  rw [hs.num_eq, hn] at hlt
  exact ⟨n, hnat, hnumber, by omega⟩

/-- The end of a count of arguments: with none of them the request will not be completed. -/
theorem headerEnd_count {n : Nat} (hargc : s.argc = -1) (hnumber : s.number = n) (hlt : n < 2 ^ 31) :
    ∃ s', headerEnd s = .next s' ∧ (n = 0 → s'.Doomed) ∧ (0 < n → s'.Between n []) := by
  by_cases hpos : 0 < n
  · obtain ⟨s', hend, hs'⟩ := headerEnd_between hargc hnumber hpos hlt
    exact ⟨s', hend, fun hzero => absurd hpos (by omega), fun _ => hs'⟩
  · obtain rfl : n = 0 := by omega
    have hmalloc : mallocSlots ((0 : Nat) : Int) = some [] := rfl
    simp only [headerEnd, hargc, if_true, hnumber, hmalloc]
    exact ⟨_, rfl, fun _ => .inl ⟨by simp, rfl, by simp, by simp⟩, fun h => absurd h hpos⟩

/-- The end of a length that no string has. -/
theorem headerEnd_noRoom (hargc : s.argc ≠ -1)
    (hnumber : s.number ≤ 0 ∨ wrap32 (s.number + 1) < 0) (hrange : -(2 ^ 31) ≤ s.number)
    (hlt : s.number < 2 ^ 31) : (headerEnd s).Doomed := by
  simp only [headerEnd, hargc, if_false]
  by_cases hneg : wrap32 (s.number + 1) < 0
  · rw [Block.malloc, if_pos hneg]
    exact .inr ⟨.inl rfl, le_rfl, by simp⟩
  · have hle := hnumber.resolve_right hneg
    have hroom : wrap32 (s.number + 1) = s.number + 1 := wrap32_of_range (by omega) (by omega)
    rw [Block.malloc, if_neg hneg, hroom]
    refine .inr ⟨.inl rfl, le_rfl, fun b hb => ?_⟩
    obtain rfl := Option.some.inj hb
    refine ⟨?_, hle⟩
    rw [Block.length_alloc]
    omega

/-- The end of a number with a sign: no request with it is completed, unless its count is `-1`. -/
theorem ParseState.ReadsNegative.headerEnd (hs : s.ReadsNegative)
    (hcount : s.argc = -1 → s.number ≠ -1) : (headerEnd s).Doomed := by
  have hnonneg := hs.num_nonneg
  have hlt := hs.num_lt
  have hnumber : s.number = -s.parsing.parsingNum := by
    unfold ParseState.number
    rw [hs.sign_eq, if_pos rfl, wrap32_of_range] <;> omega
  by_cases hargc : s.argc = -1
  · have hne := hcount hargc
    simp only [PgRedisProxy.headerEnd, hargc, if_true]
    cases hmalloc : mallocSlots s.number with
    | none => exact .inl ⟨hne, rfl, by simp, by simp⟩
    | some slots =>
        -- only the count zero leaves room, for no slots
        have hzero : s.number = 0 := by
          unfold mallocSlots at hmalloc
          split at hmalloc
          · cases hmalloc
          · omega
        rw [hzero] at hmalloc ⊢
        obtain rfl := Option.some.inj hmalloc
        exact .inl ⟨by simp, rfl, by simp, by simp⟩
  · exact headerEnd_noRoom hargc (.inl (by omega)) (by omega) (by omega)

end Numbers

/-! ## What has been received of a request -/

/-- These are the bytes of a request with `n` arguments up to the end of these of them. -/
def Written (n : Nat) (args : List (List UInt8)) (taken : List UInt8) : Prop :=
  ∃ digits parts, readNat digits = some n ∧ List.Forall₂ EncodesArgument args parts ∧
    taken = ascii "*" ++ digits ++ crlf ++ parts.flatten

/-- The same, and of one more argument that lacks the end of its last line. -/
def WrittenOpen (n : Nat) (args : List (List UInt8)) (argument taken : List UInt8) : Prop :=
  ∃ before digits, Written n args before ∧ readNat digits = some argument.length ∧
    taken = before ++ ascii "$" ++ digits ++ crlf ++ argument

/-- The line end of an argument completes it. -/
theorem WrittenOpen.written {n : Nat} {args : List (List UInt8)} {argument taken : List UInt8}
    (h : WrittenOpen n args argument taken) :
    Written n (args ++ [argument]) (taken ++ [13] ++ [10]) := by
  obtain ⟨before, digits, ⟨count, parts, hcount, hparts, rfl⟩, hdigits, rfl⟩ := h
  refine ⟨count, parts ++ [ascii "$" ++ digits ++ crlf ++ argument ++ crlf], hcount, ?_, ?_⟩
  · exact List.rel_append hparts (.cons ⟨digits, hdigits, rfl⟩ .nil)
  · simp [crlf]

/-- The bytes encode a request that is delivered as it is. -/
def Encodes (bytes : List UInt8) (d : Delivery) : Prop :=
  ∃ request, EncodesRequest request bytes ∧ d = ⟨request.length, request.map argSlot⟩

/-- What the bytes `taken` since the last request, and the byte before the next one, say about the
parser. -/
inductive Tracks (prev : Previous) (s : ParseState) (taken : List UInt8) : Prop
  | idle (h : s.Idle) (htaken : taken = [])
  | atCount (h : s.AtCount) (htaken : taken = ascii "*")
  | inCount {digits : List UInt8} (hargc : s.argc = -1) (h : s.Reads digits)
      (htaken : taken = ascii "*" ++ digits)
  | countEnd {n : Nat} {digits : List UInt8} (h : s.Between n []) (hpos : 0 < n)
      (hprev : prev = some (.numWait, 13)) (hdigits : readNat digits = some n)
      (htaken : taken = ascii "*" ++ digits ++ [13])
  | between {n : Nat} {args : List (List UInt8)} (h : s.Between n args) (hlt : args.length < n)
      (hprev : prev = some (.startStringWait, 10)) (hwritten : Written n args taken)
  | atLength {n : Nat} {args : List (List UInt8)} {before : List UInt8} (h : s.AtLength n args)
      (hwritten : Written n args before) (htaken : taken = before ++ ascii "$")
  | inLength {n : Nat} {args : List (List UInt8)} {before digits : List UInt8}
      (hcollects : s.Collects n args) (hlt : args.length < n) (h : s.Reads digits)
      (hwritten : Written n args before) (htaken : taken = before ++ ascii "$" ++ digits)
  | lengthEnd {n : Nat} {args : List (List UInt8)} {size : Nat} {before digits : List UInt8}
      (hstatus : s.readStatus = .stringWait) (h : s.Filling n args size [])
      (hwritten : Written n args before) (hdigits : readNat digits = some size)
      (htaken : taken = before ++ ascii "$" ++ digits ++ [13])
  | reading {n : Nat} {args : List (List UInt8)} {size : Nat} {done before digits : List UInt8}
      (h : s.Reading n args size done) (hwritten : Written n args before)
      (hdigits : readNat digits = some size)
      (htaken : taken = before ++ ascii "$" ++ digits ++ crlf ++ done)
  | argumentEnd {n : Nat} {args : List (List UInt8)} {argument : List UInt8}
      (h : s.Between n (args ++ [argument])) (hprev : prev.map Prod.fst = some .strSymWait)
      (hopen : WrittenOpen n args argument taken)
  | returned {n : Nat} {args : List (List UInt8)} {argument before : List UInt8}
      (h : s.Between n (args ++ [argument])) (hprev : prev = some (s.readStatus, 13))
      (hopen : WrittenOpen n args argument before) (htaken : taken = before ++ [13])
  | negative (h : s.ReadsNegative)
  | doomed (h : s.Doomed)

/-- The same after one more byte. -/
def Fed.Tracked (prev : Previous) (taken : List UInt8) : Fed → Prop
  | .next s => Tracks prev s taken
  | .err s => Tracks prev s taken
  | .all s => Encodes taken s.delivery
  | .fault => True

section Step

variable {prev : Previous} {s : ParseState} {taken : List UInt8} {c : UInt8}

theorem Fed.Doomed.tracked {fed : Fed} (h : fed.Doomed) (prev : Previous) (taken : List UInt8) :
    fed.Tracked prev taken := by
  cases fed with
  | next s => exact .doomed h
  | err s => exact .doomed h
  | all s => exact h.elim
  | fault => trivial

/-- A byte behind the count of arguments or behind an argument. -/
theorem ParseState.Between.tracks {n : Nat} {args : List (List UInt8)} (hs : s.Between n args)
    (hlt : args.length < n) (hc : InPlace prev s c)
    (hreturn : prev.map Prod.fst = some .strSymWait →
      Tracks (some (.startStringWait, 13)) s (taken ++ [13]))
    (hfeed : prev = some (.numWait, 13) ∨ prev = some (.startStringWait, 13) →
      Written n args (taken ++ [10]))
    (hdollar : prev = some (.startStringWait, 10) → Written n args taken) :
    (feed s c).Tracked (some (s.readStatus, c)) (taken ++ [c]) := by
  have hstatus : s.readStatus = .startStringWait := by
    rw [hs.status_eq, if_neg (by omega)]
  simp only [InPlace, hstatus] at hc
  rcases hc with ⟨rfl, hprev⟩ | ⟨rfl, hprev⟩ | ⟨rfl, hprev⟩
  · rw [feed_startStringWait hstatus, hstatus]
    exact hreturn hprev
  · rw [feed_startStringWait hstatus, hstatus]
    exact .between hs hlt rfl (hfeed hprev)
  · obtain ⟨s', hfed, hs'⟩ := hs.feed_dollar hlt
    rw [hfed]
    exact .atLength hs' (hdollar hprev) rfl

/-- A byte of the count of arguments, or the line end behind it. -/
theorem ParseState.Reads.tracks_count {digits : List UInt8} (hs : s.Reads digits) (hargc : s.argc = -1)
    (htaken : taken = ascii "*" ++ digits) (hc : InPlace prev s c) :
    (feed s c).Tracked (some (s.readStatus, c)) (taken ++ [c]) := by
  simp only [InPlace, hs.status_eq] at hc
  rcases hc with ⟨hdigit, hlt⟩ | ⟨rfl, -⟩
  · obtain ⟨s', hfed, hsame, hreads⟩ := hs.feed_digit hdigit hlt
    rw [hfed, htaken, List.append_assoc]
    exact .inCount (hsame.argc_eq.trans hargc) hreads rfl
  · obtain ⟨n, hdigits, hnumber, hn⟩ := hs.number_eq
    obtain ⟨s', hend, hzero, hbetween⟩ := headerEnd_count hargc hnumber hn
    rw [feed_return hs.status_eq, hend, htaken, hs.status_eq]
    rcases Nat.eq_zero_or_pos n with hn0 | hpos
    · exact .doomed (hzero hn0)
    · exact .countEnd (hbetween hpos) hpos rfl hdigits rfl

/-- A byte of the length of an argument, or the line end behind it. -/
theorem ParseState.Reads.tracks_length {n : Nat} {args : List (List UInt8)}
    {before digits : List UInt8}
    (hs : s.Reads digits) (hcollects : s.Collects n args) (hlt : args.length < n)
    (hwritten : Written n args before) (htaken : taken = before ++ ascii "$" ++ digits)
    (hc : InPlace prev s c) :
    (feed s c).Tracked (some (s.readStatus, c)) (taken ++ [c]) := by
  simp only [InPlace, hs.status_eq] at hc
  rcases hc with ⟨hdigit, hsmall⟩ | ⟨rfl, -⟩
  · obtain ⟨s', hfed, hsame, hreads⟩ := hs.feed_digit hdigit hsmall
    rw [hfed, htaken, List.append_assoc]
    exact .inLength (hcollects.of_eq hsame.argc_eq hsame.argv_eq hsame.curCount_eq) hlt hreads
      hwritten rfl
  · obtain ⟨size, hdigits, hnumber, hsize⟩ := hs.number_eq
    have hargc : s.argc ≠ -1 := by
      rw [hcollects.argc_eq]
      omega
    rw [feed_return hs.status_eq, htaken]
    by_cases hfits : 0 < size ∧ size < 2 ^ 31 - 1
    · obtain ⟨s', hend, hstatus, hfilling⟩ :=
        headerEnd_length hcollects hlt hnumber hfits.1 hfits.2
      rw [hend]
      exact .lengthEnd hstatus hfilling hwritten hdigits rfl
    · -- an empty string never ends, and the longest one has no room for its terminator
      refine (headerEnd_noRoom hargc ?_ (by omega) (by omega)).tracked _ _
      by_cases hzero : size = 0
      · exact .inl (by omega)
      · have hmax : s.number + 1 = 2 ^ 31 := by omega
        exact .inr (by rw [hmax]; decide)

/-- A byte of a payload. -/
theorem ParseState.Reading.tracks {n : Nat} {args : List (List UInt8)} {size : Nat}
    {done before digits : List UInt8} (hs : s.Reading n args size done)
    (hwritten : Written n args before) (hdigits : readNat digits = some size)
    (htaken : taken = before ++ ascii "$" ++ digits ++ crlf ++ done) (c : UInt8) :
    (feed s c).Tracked (some (s.readStatus, c)) (taken ++ [c]) := by
  have hlt := hs.cur_lt
  by_cases hlast : done.length + 1 = size
  · obtain ⟨s', hfed, hs'⟩ := hs.feed_last c hlast
    rw [hfed, htaken]
    refine .argumentEnd hs' (by rw [hs.status_eq]; rfl) ⟨before, digits, hwritten, ?_, ?_⟩
    · simpa [hlast] using hdigits
    · simp
  · obtain ⟨s', hfed, hs'⟩ := hs.feed_next c (by omega)
    rw [hfed, htaken, List.append_assoc]
    exact .reading hs' hwritten hdigits rfl

section ArgumentEnd

variable {n : Nat} {args : List (List UInt8)} {argument before : List UInt8}

/-- The first byte behind a payload. -/
theorem ParseState.Between.tracks_return (hs : s.Between n (args ++ [argument]))
    (hprev : prev.map Prod.fst = some .strSymWait) (hopen : WrittenOpen n args argument taken)
    (hc : InPlace prev s c) :
    (feed s c).Tracked (some (s.readStatus, c)) (taken ++ [c]) := by
  have hnot : ∀ status c', status ≠ .strSymWait → prev ≠ some (status, c') := by
    rintro status c' hne rfl
    exact hne (Option.some.inj hprev)
  by_cases hend : (args ++ [argument]).length = n
  · have hstatus : s.readStatus = .endWait := by rw [hs.status_eq, if_pos hend]
    simp only [InPlace, hstatus] at hc
    obtain ⟨rfl, -⟩ := hc.resolve_right fun hc => hnot .endWait 13 (by simp) hc.2
    rw [feed_endWait hstatus]
    exact .returned hs rfl hopen rfl
  · have hlt : (args ++ [argument]).length < n :=
      lt_of_le_of_ne hs.collects.length_le hend
    have hstatus : s.readStatus = .startStringWait := by rw [hs.status_eq, if_neg hend]
    refine hs.tracks hlt hc (fun _ => .returned hs (by rw [hstatus]) hopen rfl) ?_ ?_
    · rintro (hprev | hprev)
      · exact absurd hprev (hnot _ _ (by simp))
      · exact absurd hprev (hnot _ _ (by simp))
    · exact fun hprev => absurd hprev (hnot _ _ (by simp))

/-- The second byte behind a payload, which completes the request if the argument was the last
one. -/
theorem ParseState.Between.tracks_lineFeed (hs : s.Between n (args ++ [argument]))
    (hprev : prev = some (s.readStatus, 13)) (hopen : WrittenOpen n args argument before)
    (htaken : taken = before ++ [13]) (hc : InPlace prev s c) :
    (feed s c).Tracked (some (s.readStatus, c)) (taken ++ [c]) := by
  have hwritten := hopen.written
  rw [← htaken] at hwritten
  by_cases hend : (args ++ [argument]).length = n
  · have hstatus : s.readStatus = .endWait := by rw [hs.status_eq, if_pos hend]
    simp only [InPlace, hstatus] at hc
    obtain ⟨rfl, -⟩ := hc.resolve_left fun hc => by simp [hprev, hstatus] at hc
    subst hend
    rw [hs.feed_lf]
    exact ⟨args ++ [argument], hwritten, hs.delivery_eq⟩
  · have hlt : (args ++ [argument]).length < n :=
      lt_of_le_of_ne hs.collects.length_le hend
    have hstatus : s.readStatus = .startStringWait := by rw [hs.status_eq, if_neg hend]
    rw [hstatus] at hprev
    exact hs.tracks hlt hc (by simp [hprev]) (fun _ => hwritten) (by simp [hprev])

end ArgumentEnd

/-- A byte of a negative number, or the line end behind it. -/
theorem ParseState.ReadsNegative.tracks (hs : s.ReadsNegative) (hc : InPlace prev s c) :
    (feed s c).Tracked (some (s.readStatus, c)) (taken ++ [c]) := by
  simp only [InPlace, hs.status_eq] at hc
  rcases hc with ⟨hdigit, hlt⟩ | ⟨rfl, hcount⟩
  · obtain ⟨hval, -⟩ := digitVal_range hdigit
    have hnonneg := hs.num_nonneg
    rw [feed_digit hs.status_eq hdigit hnonneg hlt]
    refine .negative ⟨hs.status_eq, hs.sign_eq, ?_, hlt⟩
    show 0 ≤ s.parsing.parsingNum * 10 + digitVal c
    omega
  · rw [feed_return hs.status_eq]
    exact (hs.headerEnd hcount).tracked _ _

/-- A byte in its place keeps track of the request. -/
theorem feed_tracks (hs : Tracks prev s taken) (hc : InPlace prev s c) :
    (feed s c).Tracked (some (s.readStatus, c)) (taken ++ [c]) := by
  cases hs with
  | idle h htaken =>
      simp only [InPlace, h.status_eq] at hc
      obtain ⟨s', hfed, hs'⟩ := h.feed_star
      rw [hc, hfed, htaken]
      exact .atCount hs' rfl
  | atCount h htaken =>
      simp only [InPlace, h.status_eq] at hc
      obtain ⟨s', hfed, hsame, hreads | hneg⟩ := feed_first h.status_eq h.num_eq hc
      · rw [hfed, htaken]
        exact .inCount (hsame.argc_eq.trans h.argc_eq) hreads rfl
      · -- a count with a sign leaves no slots for arguments
        rw [hfed]
        exact .negative hneg
  | inCount hargc h htaken => exact h.tracks_count hargc htaken hc
  | @countEnd n digits h hpos hprev hdigits htaken =>
      refine h.tracks hpos hc (by simp [hprev]) (fun _ => ?_) (by simp [hprev])
      exact ⟨digits, [], hdigits, .nil, by simp [htaken, crlf]⟩
  | between h hlt hprev hwritten =>
      exact h.tracks hlt hc (by simp [hprev]) (by simp [hprev]) (fun _ => hwritten)
  | atLength h hwritten htaken =>
      simp only [InPlace, h.status_eq] at hc
      obtain ⟨s', hfed, hsame, hreads | hneg⟩ := feed_first h.status_eq h.num_eq hc
      · rw [hfed, htaken]
        exact .inLength (h.collects.of_eq hsame.argc_eq hsame.argv_eq hsame.curCount_eq) h.count_lt
          hreads hwritten rfl
      · -- and a string of such a length is never complete
        rw [hfed]
        exact .negative hneg
  | inLength hcollects hlt h hwritten htaken =>
      exact h.tracks_length hcollects hlt hwritten htaken hc
  | @lengthEnd n args size before digits hstatus h hwritten hdigits htaken =>
      simp only [InPlace, hstatus] at hc
      rw [feed_stringWait hstatus, if_pos hc, hc, htaken]
      have hreading : ParseState.Reading { s with readStatus := .strSymWait } n args size [] :=
        ⟨⟨h.collects.of_eq rfl rfl rfl, h.count_lt, h.num_eq, h.size_eq, h.size_lt, h.cur_eq,
          h.cur_lt, h.str⟩, rfl⟩
      exact .reading hreading hwritten hdigits (by simp [crlf])
  | reading h hwritten hdigits htaken => exact h.tracks hwritten hdigits htaken c
  | argumentEnd h hprev hopen => exact h.tracks_return hprev hopen hc
  | returned h hprev hopen htaken => exact h.tracks_lineFeed hprev hopen htaken hc
  | negative h => exact h.tracks hc
  | doomed h => exact (feed_doomed h c).tracked _ _

end Step

/-! ## Runs -/

section Run

variable {α L H : Type*} (val : α → UInt8) (h : Handler L H)

/-- All of these bytes are in place, where `prev` is the byte before them. -/
def AllInPlace : Previous → List (ParseState × α) → Prop
  | _, [] => True
  | prev, (s, b) :: rest =>
      InPlace prev s (val b) ∧ AllInPlace (some (s.readStatus, val b)) rest

instance decidableAllInPlace : (prev : Previous) → (pairs : List (ParseState × α)) →
    Decidable (AllInPlace val prev pairs)
  | _, [] => .isTrue trivial
  | prev, (s, b) :: rest =>
      haveI := decidableAllInPlace (some (s.readStatus, val b)) rest
      inferInstanceAs (Decidable (InPlace prev s (val b) ∧ _))

/-- The bytes from the end of each request to the end of the next one, with what was delivered
there. -/
def consumed : List UInt8 → List (ParseState × α) → List (List UInt8 × Delivery)
  | _, [] => []
  | taken, pair :: rest =>
      match completes val pair with
      | none => consumed (taken ++ [val pair.2]) rest
      | some d => (taken ++ [val pair.2], d) :: consumed [] rest

/-- Every request delivered has its bytes. -/
theorem map_consumed (taken : List UInt8) (pairs : List (ParseState × α)) :
    (consumed val taken pairs).map Prod.snd = pairs.filterMap (completes val) := by
  induction pairs generalizing taken with
  | nil => rfl
  | cons pair rest ih =>
      rw [consumed]
      cases hcompletes : completes val pair with
      | none => rw [List.filterMap_cons_none hcompletes, ih]
      | some d => rw [List.filterMap_cons_some hcompletes, List.map_cons, ih]

variable {val}

/-- On a walk whose bytes are in place, the bytes of each request are its encoding. -/
theorem walk_encodes {s s' : ParseState} {pairs : List (ParseState × α)} {prev : Previous}
    {taken : List UInt8} (hwalk : Walk (afterByte val) s pairs s') (hs : Tracks prev s taken)
    (hplace : AllInPlace val prev pairs) :
    ∀ request ∈ consumed val taken pairs, Encodes request.1 request.2 := by
  induction pairs generalizing s prev taken with
  | nil => nofun
  | cons pair rest ih =>
      obtain ⟨s₀, b⟩ := pair
      obtain ⟨rfl, hcut⟩ := Walk.cons_cases hwalk
      obtain ⟨hbyte, hrest⟩ := hplace
      have htracked := feed_tracks hs hbyte
      rcases hcut with ⟨s₁, hstep, hwalk⟩ | ⟨hnone, rfl⟩
      · cases hfeed : feed s₀ (val b) with
        | next s₂ =>
            obtain rfl := Option.some.inj ((afterByte_next hfeed).symm.trans hstep)
            have hnone : completes val (s₀, b) = none := by simp only [completes, hfeed]
            rw [hfeed] at htracked
            rw [consumed, hnone]
            exact ih hwalk htracked hrest
        | err s₂ =>
            obtain rfl := Option.some.inj ((afterByte_err hfeed).symm.trans hstep)
            have hnone : completes val (s₀, b) = none := by simp only [completes, hfeed]
            rw [hfeed] at htracked
            rw [consumed, hnone]
            exact ih hwalk htracked hrest
        | all s₂ =>
            -- the next request begins with no byte taken
            obtain rfl := Option.some.inj ((afterByte_all hfeed).symm.trans hstep)
            have hsome : completes val (s₀, b) = some s₂.delivery := by
              simp only [completes, hfeed]
            rw [hfeed] at htracked
            rw [consumed, hsome]
            exact List.forall_mem_cons.mpr
              ⟨htracked, ih hwalk (.idle (resetRequest_idle s₂) rfl) hrest⟩
        | fault =>
            rw [afterByte_eq_none.mpr hfeed] at hstep
            cases hstep
      · have hcompletes : completes val (s₀, b) = none := by
          simp only [completes, afterByte_eq_none.mp hnone]
        simp [consumed, hcompletes]

variable {h}

/-- Whatever an accepted connection receives: as long as every byte examined is in place, the bytes
from the end of each request to the end of the next one are the encoding of what is delivered
there. -/
theorem Conn.Accepted.consumed_encode {c : Conn α H} (hc : c.Accepted) (events : List (List α))
    (hplace : AllInPlace val none (readEvents val h c events).2.examined) :
    (consumed val [] (readEvents val h c events).2.examined).map Prod.snd =
        (readEvents val h c events).2.delivered ∧
      ∀ request ∈ consumed val [] (readEvents val h c events).2.examined,
        Encodes request.1 request.2 := by
  obtain ⟨hwalk, -, hdelivered⟩ := hc.walk val h events
  have hidle : c.readData.parse.Idle := ⟨hc.readStatus_eq, hc.argc_eq, hc.parsingNum_eq⟩
  exact ⟨by rw [hdelivered, map_consumed], walk_encodes hwalk (.idle hidle rfl) hplace⟩

end Run

/-- `PING` in two reads is consumed as it is encoded. -/
theorem consumed_encode_ping :
    ∃ request ∈ consumed id [] (readEvents id .idle (Conn.accept ())
      [ascii "*01\r\n$4", ascii "\r\nPING\r\n"]).2.examined,
      request.2 = ⟨1, [argSlot (ascii "PING")]⟩ ∧ Encodes request.1 request.2 := by
  have hplace : AllInPlace id none (readEvents id .idle (Conn.accept ())
      [ascii "*01\r\n$4", ascii "\r\nPING\r\n"]).2.examined := by
    decide +kernel
  have hping : (ascii "*01\r\n$4\r\nPING\r\n", (⟨1, [argSlot (ascii "PING")]⟩ : Delivery)) ∈
      consumed id [] (readEvents id .idle (Conn.accept ())
        [ascii "*01\r\n$4", ascii "\r\nPING\r\n"]).2.examined := by
    decide +kernel
  exact ⟨_, hping, rfl, ((Conn.accept_accepted ()).consumed_encode _ hplace).2 _ hping⟩

/-- Behind its payload, `PING` is executed with bytes that belong to no request. -/
theorem skipped_bytes_executed :
    ∃ request ∈ consumed id [] (readEvents id .idle (Conn.accept ())
      [ascii "*1\r\n$4\r\nPINGxx\r\n"]).2.examined,
      request.2 = ⟨1, [argSlot (ascii "PING")]⟩ ∧ ¬ Encodes request.1 request.2 := by
  refine ⟨(ascii "*1\r\n$4\r\nPINGxx\r\n", ⟨1, [argSlot (ascii "PING")]⟩), ?_, rfl, ?_⟩
  · decide +kernel
  · rintro ⟨request, ⟨digits, parts, -, hparts, hbytes⟩, hdelivery⟩
    rw [Delivery.mk.injEq] at hdelivery
    obtain ⟨argument, hrequest, hargument⟩ := List.map_eq_singleton_iff.mp hdelivery.2.symm
    have hping : argument = ascii "PING" :=
      List.map_injective_iff.mpr (Option.some_injective _)
        (by simpa [argSlot, Block.ofBytes] using hargument)
    subst hrequest
    subst hping
    cases hparts with
    | cons hpart hnil =>
        cases hnil
        obtain ⟨length, -, rfl⟩ := hpart
        -- the encoding ends with the payload and one line end
        have hend := congrArg (fun bytes => bytes.reverse.take 6) hbytes
        simp [ascii, crlf] at hend

end PgRedisProxy
