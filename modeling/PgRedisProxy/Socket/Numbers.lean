import PgRedisProxy.Base.Numeral
import PgRedisProxy.Socket.Trace

/-!
# The numbers of a request

The parser reads an argument count or the length of a string into an `int` that starts
where the number before it left it. It is left at zero unless that number was rejected.
`Conn.Accepted.header_exact_iff` says exactly which numbers are read as they are
written, with no arithmetic that wraps.
-/

namespace PgRedisProxy

open CLang Machine

/-- `sizeof(char*)` -/
def sizeofPtr : Int := 8

/-- The arithmetic that `parse_cli_mes` does for this byte stays inside its types: the next digit
and the change of the sign and the terminator inside an `int`, and the slots inside a `size_t`. -/
structure NoWrap (s : ParseState) (c : UInt8) : Prop where
  digit : isDigit c = true → (s.readStatus = .numOrMinusWait ∨ s.readStatus = .numWait) →
    InInt (s.parsing.parsingNum * 10 + digitVal c)
  sign : c = 13 → s.readStatus = .numWait → s.parsing.isNegative = true →
    InInt (-s.parsing.parsingNum)
  slots : c = 13 → s.readStatus = .numWait → s.argc = -1 → 0 ≤ s.number →
    s.number * sizeofPtr < 2 ^ 64
  terminator : c = 13 → s.readStatus = .numWait → s.argc ≠ -1 → InInt (s.number + 1)

/-- What `parse_cli_mes` takes a number for. -/
def ParseState.stored (before after : ParseState) : Int :=
  if before.argc = -1 then after.argc else after.parsing.sizeStr

/-! ## What is left of the number before -/

section Leftover

variable {s s' : ParseState}

/-- A number is only left over inside the next one. -/
def ParseState.NoLeftover (s : ParseState) : Prop :=
  s.readStatus ≠ .numWait → s.parsing.parsingNum = 0

/-- The end of a string does not touch the number. -/
theorem stringEnd_parsingNum (hend : stringEnd s = .next s') :
    s'.parsing.parsingNum = s.parsing.parsingNum := by
  rcases stringEnd_cases s with hfault | ⟨str, slots, -, -, herr⟩ | ⟨arg, slots, -, -, hnext⟩
  · rw [hfault] at hend
    cases hend
  · rw [herr] at hend
    cases hend
  · rw [hnext] at hend
    cases hend
    rfl

/-- A byte of a string does not touch the number. -/
theorem strSym_parsingNum {c : UInt8} (hsym : strSym s c = .next s') :
    s'.parsing.parsingNum = s.parsing.parsingNum := by
  rcases strSym_cases s c with hfault | ⟨s₁, hs₁, -, hnext | hend⟩
  · rw [hfault] at hsym
    cases hsym
  · rw [hnext, Fed.next.injEq] at hsym
    rw [← hsym, hs₁]
  · rw [hend] at hsym
    rw [stringEnd_parsingNum hsym, hs₁]

/-- A number that is accepted is not left over. -/
theorem headerEnd_parsingNum (hend : headerEnd s = .next s') : s'.parsing.parsingNum = 0 := by
  simp only [headerEnd] at hend
  split at hend
  · split at hend <;> cases hend
    rfl
  · split at hend <;> cases hend
    rfl

/-- A byte that is passed leaves no number over. -/
theorem feed_noLeftover (hs : s.NoLeftover) {c : UInt8} (hfeed : feed s c = .next s') :
    s'.NoLeftover := by
  intro hstatus'
  cases hstatus : s.readStatus with
  | arrayWait =>
      rw [feed_arrayWait hstatus, Fed.next.injEq] at hfeed
      have hzero := hs (by simp [hstatus])
      split at hfeed <;> simpa [← hfeed] using hzero
  | numOrMinusWait =>
      rw [feed_numOrMinusWait hstatus, Fed.next.injEq] at hfeed
      have hzero := hs (by simp [hstatus])
      split at hfeed
      · simp [← hfeed] at hstatus'
      · split at hfeed
        · simp [← hfeed] at hstatus'
        · rwa [← hfeed]
  | numWait =>
      rw [feed_numWait hstatus] at hfeed
      split at hfeed
      · cases hfeed
        exact absurd hstatus hstatus'
      · split at hfeed
        · exact headerEnd_parsingNum hfeed
        · cases hfeed
          exact absurd hstatus hstatus'
  | stringWait =>
      rw [feed_stringWait hstatus, Fed.next.injEq] at hfeed
      have hzero := hs (by simp [hstatus])
      split at hfeed <;> simpa [← hfeed] using hzero
  | startStringWait =>
      rw [feed_startStringWait hstatus, Fed.next.injEq] at hfeed
      have hzero := hs (by simp [hstatus])
      split at hfeed <;> simpa [← hfeed] using hzero
  | strSymWait =>
      rw [feed_strSymWait hstatus] at hfeed
      rw [strSym_parsingNum hfeed]
      exact hs (by simp [hstatus])
  | endWait =>
      rw [feed_endWait hstatus] at hfeed
      split at hfeed <;> cases hfeed
      exact hs (by simp [hstatus])

end Leftover

variable {α L H : Type*} {val : α → UInt8} {h : Handler L H}

/-- A path on which no number is rejected leaves no number over. -/
theorem path_noLeftover {s s' : ParseState} {pairs : List (ParseState × α)}
    (hpath : Path (afterByte val) s pairs s') (hs : s.NoLeftover)
    (haccepted : ∀ pair ∈ pairs, ∀ s₁, feed pair.1 (val pair.2) ≠ .err s₁) : s'.NoLeftover := by
  refine hpath.invariant hs fun pair hpair s₁ hold hstep => ?_
  cases hfeed : feed pair.1 (val pair.2) with
  | next s₂ =>
      rw [afterByte_next hfeed, Option.some.injEq] at hstep
      exact hstep ▸ feed_noLeftover hold hfeed
  | err s₂ => exact absurd hfeed (haccepted pair hpair s₂)
  | all s₂ =>
      rw [afterByte_all hfeed, Option.some.injEq] at hstep
      exact fun _ => hstep ▸ rfl
  | fault =>
      rw [afterByte_eq_none.mpr hfeed] at hstep
      cases hstep

/-! ## Numbers that fit -/

/-- A number is read exactly: no arithmetic on the way wraps, and if its `\r` has it accepted then
it is stored as it is written. -/
structure ReadExactly (val : α → UInt8) (header : List (ParseState × α)) (last : ParseState × α)
    (n : Numeral) : Prop where
  noWrap : ∀ pair ∈ header ++ [last], NoWrap pair.1 (val pair.2)
  stored : ∀ s', feed last.1 (val last.2) = .next s' → last.1.stored s' = n.value

/-- The numbers that fit: with any sign below `2 ^ 31`, and with room for a terminator if it is the
length of a string. -/
def ParseState.Fits (s : ParseState) (n : Numeral) : Prop :=
  n.magnitude < 2 ^ 31 ∧ (s.argc ≠ -1 → n.value < 2 ^ 31 - 1)

section Fits

variable {s s' : ParseState}

/-- For a digit it is the next value that must not wrap. -/
theorem noWrap_digit {c : UInt8} (hdigit : isDigit c = true)
    (hstatus : s.readStatus = .numOrMinusWait ∨ s.readStatus = .numWait) :
    NoWrap s c ↔ InInt (s.parsing.parsingNum * 10 + digitVal c) := by
  have hreturn : c ≠ 13 := by
    rintro rfl
    cases hdigit
  exact ⟨fun hwrap => hwrap.digit hdigit hstatus, fun hint =>
    ⟨fun _ _ => hint, fun hc => absurd hc hreturn, fun hc => absurd hc hreturn,
      fun hc => absurd hc hreturn⟩⟩

/-- Digits are read without wrapping as long as the number stays below `2 ^ 31`. -/
theorem digits_noWrap_iff {pairs : List (ParseState × α)}
    (hpath : Path (afterByte val) s pairs s') (hstatus : s.readStatus = .numWait)
    (hge : 0 ≤ s.parsing.parsingNum) (hlt : s.parsing.parsingNum < 2 ^ 31)
    (hdigits : ∀ pair ∈ pairs, isDigit (val pair.2) = true) :
    let n := readDigits s.parsing.parsingNum (pairs.map fun pair => val pair.2)
    ((∀ pair ∈ pairs, NoWrap pair.1 (val pair.2)) ↔ n < 2 ^ 31) ∧
      (n < 2 ^ 31 → s' = { s with parsing := { s.parsing with parsingNum := n } }) := by
  induction hpath with
  | nil s => exact ⟨iff_of_true (by simp) hlt, fun _ => rfl⟩
  | @cons s s₁ s' b rest hstep hrest ih =>
      have hdigit : isDigit (val b) = true := hdigits (s, b) List.mem_cons_self
      have hothers : ∀ pair ∈ rest, isDigit (val pair.2) = true :=
        fun pair hpair => hdigits pair (List.mem_cons_of_mem _ hpair)
      obtain ⟨hval, hval9⟩ := digitVal_range hdigit
      have hgrow : s.parsing.parsingNum * 10 + digitVal (val b) ≤
          readDigits s.parsing.parsingNum (((s, b) :: rest).map fun pair => val pair.2) := by
        rw [List.map_cons, readDigits_cons]
        refine le_readDigits (by omega) fun c hc => ?_
        obtain ⟨pair, hpair, rfl⟩ := List.mem_map.mp hc
        exact hothers pair hpair
      have hfirst := noWrap_digit hdigit (.inr hstatus)
      by_cases hint : s.parsing.parsingNum * 10 + digitVal (val b) < 2 ^ 31
      · have hfeed : feed s (val b) = .next { s with parsing := { s.parsing with
            parsingNum := s.parsing.parsingNum * 10 + digitVal (val b) } } := by
          rw [feed_numWait hstatus, if_pos hdigit, wrap32_of_range (by omega) hint]
        rw [afterByte_next hfeed, Option.some.injEq] at hstep
        subst hstep
        obtain ⟨hwrap, hstate⟩ := ih hstatus (by show 0 ≤ _ * 10 + _; omega) hint hothers
        refine ⟨?_, hstate⟩
        rw [List.forall_mem_cons, hwrap, hfirst]
        exact and_iff_right ⟨by omega, hint⟩
      · -- this digit wraps, and no later one makes the number smaller
        refine ⟨iff_of_false ?_ (by omega), fun hsmall => absurd hsmall (by omega)⟩
        intro hwrap
        exact hint (hfirst.mp (hwrap (s, b) List.mem_cons_self)).2

/-- At the `\r` it is the terminator that may not fit. -/
theorem noWrap_return (hstatus : s.readStatus = .numWait) (hge : 0 ≤ s.parsing.parsingNum)
    (hlt : s.parsing.parsingNum < 2 ^ 31) :
    s.number = (if s.parsing.isNegative then -s.parsing.parsingNum else s.parsing.parsingNum) ∧
      (NoWrap s 13 ↔ (s.argc ≠ -1 → s.number < 2 ^ 31 - 1)) := by
  have hnumber : s.number =
      if s.parsing.isNegative then -s.parsing.parsingNum else s.parsing.parsingNum := by
    unfold ParseState.number
    rw [wrap32_of_range (by omega) (by omega)]
  refine ⟨hnumber, ?_⟩
  have hrange : -(2 ^ 31) < s.number ∧ s.number < 2 ^ 31 := by
    rw [hnumber]
    split <;> omega
  constructor
  · intro hwrap hargc
    have := (hwrap.terminator rfl hstatus hargc).2
    omega
  · intro hroom
    refine ⟨fun hdigit => (by cases hdigit), fun _ _ _ => ⟨by omega, by omega⟩, fun _ _ _ _ => ?_,
      fun _ _ hargc => ⟨by omega, by have := hroom hargc; omega⟩⟩
    unfold sizeofPtr
    omega

/-- What is accepted is stored. -/
theorem headerEnd_stored (hend : headerEnd s = .next s') : s.stored s' = s.number := by
  simp only [headerEnd] at hend
  unfold ParseState.stored
  split at hend
  · split at hend <;> cases hend
    simp [*]
  · split at hend <;> cases hend
    simp [*]

/-- The first character of a number. -/
theorem header_begin {header : List (ParseState × α)} {n : Numeral}
    (hpath : Path (afterByte val) s header s') (hstatus : s.readStatus = .numOrMinusWait)
    (hzero : s.parsing.parsingNum = 0) (hbytes : (header.map fun pair => val pair.2) = n.bytes) :
    ∃ b s₁ rest, header = (s, b) :: rest ∧ NoWrap s (val b) ∧ Path (afterByte val) s₁ rest s' ∧
      s₁.readStatus = .numWait ∧ s₁.argc = s.argc ∧ s₁.parsing.isNegative = n.negative ∧
      0 ≤ s₁.parsing.parsingNum ∧ s₁.parsing.parsingNum < 2 ^ 31 ∧
      (∀ pair ∈ rest, isDigit (val pair.2) = true) ∧
      readDigits s₁.parsing.parsingNum (rest.map fun pair => val pair.2) = n.magnitude := by
  cases hpath with
  | nil =>
      have := n.ne_nil
      simp [Numeral.bytes] at hbytes
      exact absurd hbytes.2 this
  | @cons _ s₁ _ b rest hstep hrest =>
      rw [List.map_cons] at hbytes
      have hmem : ∀ digits : List UInt8, (rest.map fun pair => val pair.2) = digits →
          digits ⊆ n.digits → ∀ pair ∈ rest, isDigit (val pair.2) = true := by
        intro digits heq hsub pair hpair
        refine n.isDigit_of_mem _ (hsub ?_)
        rw [← heq]
        exact List.mem_map_of_mem hpair
      by_cases hneg : n.negative = true
      · -- the sign leaves the number at zero, and all digits are still to come
        obtain ⟨hminus, hdigits⟩ : val b = 45 ∧ (rest.map fun pair => val pair.2) = n.digits := by
          simpa [Numeral.bytes, hneg] using hbytes
        have hsign : isDigit 45 = false := rfl
        have hfeed : feed s (val b) =
            .next { s with
              readStatus := .numWait, parsing := { s.parsing with isNegative := true } } := by
          simp [feed_numOrMinusWait hstatus, hminus, hsign]
        rw [afterByte_next hfeed, Option.some.injEq] at hstep
        subst hstep
        refine ⟨b, _, rest, rfl, ?_, hrest, rfl, rfl, hneg.symm, ?_, ?_, ?_, ?_⟩
        · rw [hminus]
          exact ⟨fun hdigit => (by cases hdigit), fun hc => (by cases hc), fun hc => (by cases hc),
            fun hc => (by cases hc)⟩
        · exact hzero.ge
        · show s.parsing.parsingNum < _
          omega
        · exact hmem _ hdigits (List.Subset.refl _)
        · show readDigits s.parsing.parsingNum _ = _
          rw [hzero, hdigits, Numeral.magnitude]
      · -- the first byte is a digit, which no number before it is added to
        rw [Bool.not_eq_true] at hneg
        have hdigits : val b :: (rest.map fun pair => val pair.2) = n.digits := by
          simpa [Numeral.bytes, hneg] using hbytes
        have hdigit : isDigit (val b) = true :=
          n.isDigit_of_mem _ (hdigits ▸ List.mem_cons_self)
        obtain ⟨hval, hval9⟩ := digitVal_range hdigit
        have hnum : wrap32 (s.parsing.parsingNum * 10 + digitVal (val b)) = digitVal (val b) := by
          rw [hzero, wrap32_of_range] <;> omega
        have hfeed : feed s (val b) = .next { s with
            readStatus := .numWait
            parsing := { s.parsing with
              parsingNum := digitVal (val b), isNegative := false } } := by
          rw [feed_numOrMinusWait hstatus, if_pos hdigit, hnum]
        rw [afterByte_next hfeed, Option.some.injEq] at hstep
        subst hstep
        refine ⟨b, _, rest, rfl, ?_, hrest, rfl, rfl, hneg.symm, hval, ?_, ?_, ?_⟩
        · rw [noWrap_digit hdigit (.inl hstatus), hzero]
          exact ⟨by omega, by omega⟩
        · show digitVal (val b) < _
          omega
        · exact hmem _ rfl (hdigits ▸ List.subset_cons_self _ _)
        · rw [Numeral.magnitude, ← hdigits, readDigits_cons, Int.zero_mul, Int.zero_add]

/-- With nothing left over, a number is read exactly when it fits. -/
theorem header_readExactly_iff {header : List (ParseState × α)} {last : ParseState × α} {n : Numeral}
    (hpath : Path (afterByte val) s header last.1) (hstatus : s.readStatus = .numOrMinusWait)
    (hzero : s.parsing.parsingNum = 0) (hbytes : (header.map fun pair => val pair.2) = n.bytes)
    (hlast : val last.2 = 13) : ReadExactly val header last n ↔ s.Fits n := by
  obtain ⟨b, s₁, rest, rfl, hfirst, hrest, hstatus₁, hargc, hneg, hge, hlt, hdigits, hmagnitude⟩ :=
    header_begin hpath hstatus hzero hbytes
  have hpos := n.magnitude_nonneg
  obtain ⟨hwrap, hstate⟩ := digits_noWrap_iff hrest hstatus₁ hge hlt hdigits
  rw [hmagnitude] at hwrap hstate
  constructor
  · -- the digits do not wrap, so the number fits, and then the `\r` sees its value
    intro hexact
    have hfits : n.magnitude < 2 ^ 31 := hwrap.mp fun pair hpair =>
      hexact.noWrap pair (List.mem_append_left _ (List.mem_cons_of_mem _ hpair))
    refine ⟨hfits, fun hlength => ?_⟩
    have hlastState := hstate hfits
    obtain ⟨hnumber, hreturn⟩ := noWrap_return (s := last.1) (by rw [hlastState]; exact hstatus₁)
      (by rw [hlastState]; exact hpos) (by rw [hlastState]; exact hfits)
    have hnoWrap := hexact.noWrap last (List.mem_append_right _ List.mem_cons_self)
    rw [hlast, hreturn, hnumber, hlastState] at hnoWrap
    simpa [Numeral.value, hneg] using hnoWrap (by simpa [hargc] using hlength)
  · rintro ⟨hfits, hlength⟩
    have hlastState := hstate hfits
    obtain ⟨hnumber, hreturn⟩ := noWrap_return (s := last.1) (by rw [hlastState]; exact hstatus₁)
      (by rw [hlastState]; exact hpos) (by rw [hlastState]; exact hfits)
    have hvalue : last.1.number = n.value := by
      rw [hnumber, hlastState]
      simp [Numeral.value, hneg]
    refine ⟨?_, ?_⟩
    · intro pair hpair
      rcases List.mem_append.mp hpair with hpair | hpair
      · rcases List.mem_cons.mp hpair with rfl | hpair
        · exact hfirst
        · exact hwrap.mpr hfits pair hpair
      · obtain rfl := List.mem_singleton.mp hpair
        rw [hlast, hreturn, hvalue]
        intro hargc'
        exact hlength (by simpa [hlastState, hargc] using hargc')
    · intro s' hfeed
      have hlastStatus : last.1.readStatus = .numWait := by rw [hlastState]; exact hstatus₁
      have hreturnDigit : isDigit 13 = false := rfl
      rw [hlast, feed_numWait hlastStatus, hreturnDigit] at hfeed
      rw [← hvalue]
      exact headerEnd_stored (by simpa using hfeed)

end Fits

/-! ## Runs -/

/-- Whatever an accepted connection receives: as long as no number on it was rejected, the next one
is read exactly if and only if it fits. -/
theorem Conn.Accepted.header_exact_iff {c : Conn α H} (hc : c.Accepted) (events : List (List α))
    {before more rest : List (ParseState × α)} {first last : ParseState × α} {n : Numeral}
    (hexamined : (readEvents val h c events).2.examined =
      before ++ first :: more ++ last :: rest)
    (hstatus : first.1.readStatus = .numOrMinusWait)
    (hbytes : ((first :: more).map fun pair => val pair.2) = n.bytes) (hlast : val last.2 = 13)
    (haccepted : ∀ pair ∈ before, ∀ s', feed pair.1 (val pair.2) ≠ .err s') :
    ReadExactly val (first :: more) last n ↔ first.1.Fits n := by
  obtain ⟨hwalk, -, -⟩ := hc.walk val h events
  rw [hexamined] at hwalk
  obtain ⟨hpath, -⟩ := hwalk.split
  obtain ⟨s₁, hbefore, hheader⟩ := hpath.split
  obtain rfl := hheader.head_eq
  have hzero : first.1.parsing.parsingNum = 0 :=
    path_noLeftover hbefore (fun _ => hc.parsingNum_eq) haccepted (by simp [hstatus])
  exact header_readExactly_iff hheader hstatus hzero hbytes hlast

set_option maxRecDepth 2000 in
/-- The count 12, cut in two, is read exactly. -/
theorem header_exact_iff_twelve : ∃ before first more last rest, ∃ n : Numeral,
    (readEvents id .idle (Conn.accept ()) [ascii "*1", ascii "2\r\n"]).2.examined =
      before ++ first :: more ++ last :: rest ∧
    n.value = 12 ∧ ReadExactly id (first :: more) last n := by
  let s := (Conn.accept ()).readData.parse
  let s₁ := { s with readStatus := .numOrMinusWait }
  let s₂ := { s with readStatus := .numWait, parsing := { s.parsing with parsingNum := 1 } }
  let s₃ := { s₂ with parsing := { s.parsing with parsingNum := 12 } }
  have hexamined : (readEvents id .idle (Conn.accept ()) [ascii "*1", ascii "2\r\n"]).2.examined =
      [(s, 42)] ++ (s₁, 49) :: [(s₂, 50)] ++ (s₃, 13) :: [_] := rfl
  refine ⟨_, _, _, _, _, ⟨false, ascii "12", by decide, by decide⟩, hexamined, by decide, ?_⟩
  refine ((Conn.accept_accepted ()).header_exact_iff _ hexamined rfl rfl rfl ?_).mpr ?_
  · intro pair hpair
    obtain rfl := List.mem_singleton.mp hpair
    nofun
  · exact ⟨by decide, fun hargc => absurd rfl hargc⟩

set_option maxRecDepth 2000 in
/-- The count 4294967297 is taken for 1. -/
theorem count_wraps : ∃ before first more last rest, ∃ n : Numeral,
    (readEvents id .idle (Conn.accept ()) [ascii "*4294967297\r\n"]).2.examined =
      before ++ first :: more ++ last :: rest ∧
    first.1.readStatus = .numOrMinusWait ∧
    ((first :: more).map fun pair => id pair.2) = n.bytes ∧ id last.2 = 13 ∧
    (∀ pair ∈ before, ∀ s', feed pair.1 (id pair.2) ≠ .err s') ∧
    n.value = 4294967297 ∧
    (readEvents id .idle (Conn.accept ()) [ascii "*4294967297\r\n"]).2.readData.parse.argc = 1 ∧
    ¬ ReadExactly id (first :: more) last n := by
  let s := (Conn.accept ()).readData.parse
  let s₁ := { s with readStatus := .numWait, parsing := { s.parsing with parsingNum := 1 } }
  have hexamined :
      (readEvents id .idle (Conn.accept ()) [ascii "*4294967297\r\n"]).2.examined =
        [(_, 42)] ++ (_, 52) :: [(_, 50), (_, 57), (_, 52), (_, 57), (_, 54), (_, 55), (_, 50),
          (_, 57), (_, 55)] ++ (s₁, 13) :: [_] := rfl
  refine ⟨_, _, _, _, _, ⟨false, ascii "4294967297", by decide, by decide⟩, hexamined, rfl, rfl, rfl,
    ?_, by decide, rfl, fun hexact => ?_⟩
  · intro pair hpair
    obtain rfl := List.mem_singleton.mp hpair
    nofun
  · have hstored := hexact.stored _ rfl
    revert hstored
    decide

end PgRedisProxy
