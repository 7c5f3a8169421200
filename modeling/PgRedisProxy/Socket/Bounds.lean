import PgRedisProxy.Socket.Fields
import PgRedisProxy.Socket.Numbers

/-!
# The parser's writes stay inside what it allocated

`ParseState.Sound` is what holds between two bytes of any stream, provided that every
number in it is one the parser can meet: it fits an `int`, it is not zero, and the
length of a string is neither `-1`, for which `malloc` gives a block without room for
the payload, nor so large that the terminator does not fit. `writes_in_bounds` is the
main result. The completion of a string is tested for equality and only after a write,
so that a declared length of zero is never met.
-/

namespace PgRedisProxy

open CLang Resp Machine

/-- A digit does not make the number wrap, and the `\r` after a number does not declare a count or
length of zero, nor a length of `-1` or one that leaves no room for the terminator. -/
def ParseState.HeaderOk (s : ParseState) (c : UInt8) : Prop :=
  (isDigit c = true → s.readStatus = .numOrMinusWait ∨ s.readStatus = .numWait →
    s.parsing.parsingNum * 10 + digitVal c < 2 ^ 31) ∧
  (c = 13 → s.readStatus = .numWait →
    s.number ≠ 0 ∧ (s.argc ≠ -1 → s.number ≠ -1 ∧ s.number < 2 ^ 31 - 1))

instance (s : ParseState) (c : UInt8) : Decidable (s.HeaderOk c) :=
  inferInstanceAs (Decidable (_ ∧ _))

/-- The argument count is not known yet, or an argument is still missing. -/
def ParseState.Counted (s : ParseState) : Prop :=
  s.argc = -1 ∨ ∃ n args, s.Collects n args ∧ args.length < n

/-- The parser is inside a number, the argument count or the length of an argument. -/
structure ParseState.InNumber (s : ParseState) : Prop where
  status_eq : s.readStatus = .numWait
  num_nonneg : 0 ≤ s.parsing.parsingNum
  num_lt : s.parsing.parsingNum < 2 ^ 31
  counted : s.Counted

/-- The members of the parser agree with each other and with what is allocated. -/
inductive ParseState.Sound (s : ParseState) : Prop
  | idle (h : s.Idle)
  | atCount (h : s.AtCount)
  | between {n : Nat} {args : List (List UInt8)} (h : s.Between n args)
  | atLength {n : Nat} {args : List (List UInt8)} (h : s.AtLength n args)
  | inNumber (h : s.InNumber)
  | beforePayload {n : Nat} {args : List (List UInt8)} {size : Nat}
      (hstatus : s.readStatus = .stringWait) (h : s.Filling n args size [])
  | reading {n : Nat} {args : List (List UInt8)} {size : Nat} {done : List UInt8}
      (h : s.Reading n args size done)

/-- As many arguments as were declared, and each of them set. -/
def Delivery.Full (d : Delivery) : Prop :=
  ∃ args : List (List UInt8), d.argc = args.length ∧ d.argv = args.map argSlot

/-- What the parser makes of a byte in a sound state. -/
def Fed.Sound : Fed → Prop
  | .next s => s.Sound
  | .err _ => True
  | .all s => s.delivery.Full
  | .fault => False

section Feed

variable {s : ParseState}

theorem ParseState.Counted.of_eq {s' : ParseState} (hs : s.Counted) (hargc : s'.argc = s.argc)
    (hargv : s'.argv = s.argv) (hcount : s'.curCountArgv = s.curCountArgv) : s'.Counted := by
  rcases hs with hnone | ⟨n, args, h, hlt⟩
  · exact .inl (hargc.trans hnone)
  · exact .inr ⟨n, args, h.of_eq hargc hargv hcount, hlt⟩

/-- What has been read is a number of either sign. -/
theorem ParseState.InNumber.number_range (hs : s.InNumber) :
    -(2 ^ 31) < s.number ∧ s.number < 2 ^ 31 := by
  have hnum := hs.num_lt
  have hnonneg := hs.num_nonneg
  rw [(noWrap_return hs.status_eq hnonneg hnum).1]
  split <;> omega

/-- The first character of a number. -/
theorem feed_numOrMinusWait_sound (hstatus : s.readStatus = .numOrMinusWait)
    (hzero : s.parsing.parsingNum = 0) (hcounted : s.Counted) (hs : s.Sound) (c : UInt8) :
    (feed s c).Sound := by
  rw [feed_numOrMinusWait hstatus]
  split
  · next hdigit =>
      obtain ⟨hval, hval9⟩ := digitVal_range hdigit
      have hnum : wrap32 (s.parsing.parsingNum * 10 + digitVal c) = digitVal c := by
        rw [hzero, wrap32_of_range] <;> omega
      rw [hnum]
      refine .inNumber ⟨rfl, hval, ?_, hcounted.of_eq rfl rfl rfl⟩
      show digitVal c < 2 ^ 31
      omega
  · split
    · refine .inNumber ⟨rfl, hzero.ge, ?_, hcounted.of_eq rfl rfl rfl⟩
      show s.parsing.parsingNum < 2 ^ 31
      omega
    · exact hs

/-- A negative number is rejected: `malloc` fails. -/
theorem ParseState.InNumber.feed_negative (hs : s.InNumber) (hneg : s.number < 0)
    (hminus : s.argc ≠ -1 → s.number ≠ -1) : ∃ s', feed s 13 = .err s' := by
  obtain ⟨hge, -⟩ := hs.number_range
  rw [feed_return hs.status_eq]
  by_cases hargc : s.argc = -1
  · simp [headerEnd, hargc, mallocSlots, hneg]
  · have hne := hminus hargc
    have hroom : wrap32 (s.number + 1) < 0 := by
      rw [wrap32_of_range] <;> omega
    simp [headerEnd, hargc, Block.malloc, hroom]

/-- The end of the argument count. -/
theorem ParseState.InNumber.feed_count (hs : s.InNumber) (hargc : s.argc = -1) {n : Nat}
    (hnumber : s.number = n) (hpos : 0 < n) : ∃ s', feed s 13 = .next s' ∧ s'.Between n [] := by
  obtain ⟨-, hlt⟩ := hs.number_range
  rw [feed_return hs.status_eq]
  exact headerEnd_between hargc hnumber hpos (by omega)

/-- The end of a number that the parser can meet. -/
theorem ParseState.InNumber.feed_return_sound (hs : s.InNumber) (hheader : s.HeaderOk 13) :
    (feed s 13).Sound := by
  obtain ⟨hne, hlength⟩ := hheader.2 rfl hs.status_eq
  by_cases hneg : s.number < 0
  · obtain ⟨s', herr⟩ := hs.feed_negative hneg fun hargc => (hlength hargc).1
    rw [herr]
    trivial
  · obtain ⟨m, hm⟩ : ∃ m : Nat, s.number = m := ⟨s.number.toNat, by omega⟩
    rcases hs.counted with hargc | ⟨n, args, hcollects, hlt⟩
    · obtain ⟨s', hnext, hs'⟩ := hs.feed_count hargc hm (by omega)
      rw [hnext]
      exact .between hs'
    · have hargc : s.argc ≠ -1 := by
        rw [hcollects.argc_eq]
        omega
      have hroom := (hlength hargc).2
      obtain ⟨s', hend, hstatus', hs'⟩ :=
        headerEnd_length hcollects hlt hm (by omega) (by omega)
      rw [feed_return hs.status_eq, hend]
      exact .beforePayload hstatus' hs'

/-- A byte of numbers that the parser can meet leaves it sound, and is not written outside what is
allocated. -/
theorem feed_sound (hs : s.Sound) {c : UInt8} (hheader : s.HeaderOk c) : (feed s c).Sound := by
  cases hs with
  | idle h =>
      rw [feed_arrayWait h.status_eq]
      split
      · exact .atCount ⟨rfl, h.argc_eq, h.num_eq⟩
      · exact .idle h
  | atCount h =>
      exact feed_numOrMinusWait_sound h.status_eq h.num_eq (.inl h.argc_eq) (.atCount h) c
  | atLength h =>
      exact feed_numOrMinusWait_sound h.status_eq h.num_eq (.inr ⟨_, _, h.collects, h.count_lt⟩)
        (.atLength h) c
  | @between n args h =>
      by_cases hend : args.length = n
      · have hstatus : s.readStatus = .endWait := by rw [h.status_eq, if_pos hend]
        rw [feed_endWait hstatus]
        split
        · refine ⟨args, ?_, ?_⟩
          · show s.argc = _
            rw [h.collects.argc_eq, hend]
          · show s.argv.getD [] = _
            rw [h.collects.argv_eq, hend, Nat.sub_self]
            simp
        · exact .between h
      · have hstatus : s.readStatus = .startStringWait := by rw [h.status_eq, if_neg hend]
        have hle := h.collects.length_le
        by_cases hc : c = 36
        · subst hc
          obtain ⟨s', hfeed, hs'⟩ := h.feed_dollar (by omega)
          rw [hfeed]
          exact .atLength hs'
        · rw [feed_startStringWait hstatus, if_neg hc]
          exact .between h
  | inNumber h =>
      by_cases hdigit : isDigit c = true
      · have hlt := hheader.1 hdigit (.inr h.status_eq)
        have hnonneg := h.num_nonneg
        obtain ⟨hval, -⟩ := digitVal_range hdigit
        rw [feed_digit h.status_eq hdigit hnonneg hlt]
        refine .inNumber ⟨h.status_eq, ?_, hlt, h.counted.of_eq rfl rfl rfl⟩
        show 0 ≤ s.parsing.parsingNum * 10 + digitVal c
        omega
      · by_cases hreturn : c = 13
        · subst hreturn
          exact h.feed_return_sound hheader
        · rw [feed_numWait h.status_eq, if_neg hdigit, if_neg hreturn]
          exact .inNumber h
  | beforePayload hstatus h =>
      by_cases hlf : c = 10
      · subst hlf
        obtain ⟨s', hnext, hs'⟩ := h.feed_lf hstatus
        rw [hnext]
        exact .reading hs'
      · rw [feed_stringWait hstatus, if_neg hlf]
        exact .beforePayload hstatus h
  | @reading n args size done h =>
      have hlt := h.cur_lt
      -- the test for the last byte is an equation, which `h.cur_lt` keeps reachable
      by_cases hlast : done.length + 1 = size
      · obtain ⟨s', hfeed, hs'⟩ := h.feed_last c hlast
        rw [hfeed]
        exact .between hs'
      · obtain ⟨s', hfeed, hs'⟩ := h.feed_next c (by omega)
        rw [hfeed]
        exact .reading hs'

end Feed

/-! ## Runs -/

/-- What holds of a session: the parser is sound, was sound whenever it examined a byte, and
delivered full requests only. -/
structure Session.Sound {α H : Type*} (k : Session α H) : Prop where
  current : k.exitStatus ≠ .err → k.current.Sound
  examined : ∀ sb ∈ k.examined, sb.1.Sound
  delivered : ∀ d ∈ k.delivered, d.Full

section Run

variable {α L H : Type*} (val : α → UInt8) (h : Handler L H)

/-- Every number in the bytes is one the parser can meet, by the states they were examined in. -/
def HeadersOk (examined : List (ParseState × α)) : Prop :=
  ∀ sb ∈ examined, sb.1.HeaderOk (val sb.2)

/-- What has been examined stays so. -/
theorem scan_examined_subset (l : L) (k : Session α H) (bytes : List α) :
    k.examined ⊆ (scan val h l k bytes).2.examined := by
  induction bytes generalizing l k with
  | nil => exact List.Subset.refl _
  | cons b bytes ih =>
      have hpassed : ∀ (s : ParseState) (status : EexitStatus) (bs : List (ParseState × α)),
          k.examined ⊆ (k.passed s status bs).examined := by
        intro s status bs
        exact List.subset_append_left _ _
      simp only [scan]
      cases feed k.current (val b) with
      | fault => exact hpassed _ _ _
      | err s' => exact hpassed _ _ _
      | next s' => exact List.Subset.trans (hpassed s' .notAll [(k.current, b)]) (ih l _)
      | all s' =>
          simp only
          cases h.serve l ((k.passed s' .all [(k.current, b)]).deliver s').host s'.delivery with
          | none => exact hpassed s' .all [(k.current, b)]
          | some next =>
              exact List.Subset.trans (hpassed s' .all [(k.current, b)]) (ih next.1
                { (k.passed s' .all [(k.current, b)]).deliver s' with host := next.2 })

/-- The first byte of a scan is examined in the state the session is in. -/
theorem mem_scan_examined (l : L) (k : Session α H) (b : α) (bytes : List α) :
    (k.current, b) ∈ (scan val h l k (b :: bytes)).2.examined := by
  have hpassed : ∀ (s : ParseState) (status : EexitStatus),
      (k.current, b) ∈ (k.passed s status [(k.current, b)]).examined := by
    intro s status
    exact List.mem_append_right _ List.mem_cons_self
  simp only [scan]
  cases feed k.current (val b) with
  | fault => exact hpassed _ _
  | err s' => exact hpassed _ _
  | next s' => exact scan_examined_subset val h l _ bytes (hpassed s' .notAll)
  | all s' =>
      simp only
      cases h.serve l ((k.passed s' .all [(k.current, b)]).deliver s').host s'.delivery with
      | none => exact hpassed s' .all
      | some next =>
          exact scan_examined_subset val h next.1
            { (k.passed s' .all [(k.current, b)]).deliver s' with host := next.2 } bytes
            (hpassed s' .all)

/-- An accepted connection is sound. -/
theorem Conn.Accepted.sound {c : Conn α H} (hc : c.Accepted) : c.session.Sound where
  current := by
    intro _
    rw [hc.current_eq]
    exact .idle ⟨hc.readStatus_eq, hc.argc_eq, hc.parsingNum_eq⟩
  examined := by simp [Conn.session, hc.examined_eq]
  delivered := by simp [Conn.session, hc.delivered_eq]

/-- A byte examined in a sound state. -/
theorem Session.Sound.passed {k : Session α H} (hk : k.Sound) (hstatus : k.exitStatus ≠ .err)
    {s' : ParseState} {status : EexitStatus} (b : α)
    (hcurrent : status ≠ .err →
      (k.passed s' status [(k.current, b)]).current.Sound) :
    (k.passed s' status [(k.current, b)]).Sound where
  current := hcurrent
  examined := by
    intro sb hsb
    rcases List.mem_append.mp hsb with hsb | hsb
    · exact hk.examined sb hsb
    · rw [List.mem_singleton.mp hsb]
      exact hk.current hstatus
  delivered := hk.delivered

/-- A scan whose headers are fine keeps the session sound and makes no access that is not
allowed. -/
theorem scan_sound (l : L) {k : Session α H} (hk : k.Sound) (hstatus : k.exitStatus ≠ .err)
    {bytes : List α} (hheaders : HeadersOk val (scan val h l k bytes).2.examined) :
    (scan val h l k bytes).1 ≠ .fault ∧ (scan val h l k bytes).2.Sound := by
  induction bytes generalizing l k with
  | nil => exact ⟨by simp [scan], hk⟩
  | cons b bytes ih =>
      have hfed := feed_sound (hk.current hstatus)
        (hheaders _ (mem_scan_examined val h l k b bytes))
      simp only [scan] at hheaders ⊢
      cases hfeed : feed k.current (val b) with
      | fault =>
          rw [hfeed] at hfed
          exact hfed.elim
      | err s' => exact ⟨by simp, hk.passed hstatus b (by simp)⟩
      | next s' =>
          rw [hfeed] at hfed
          simp only [hfeed] at hheaders
          exact ih l (hk.passed hstatus b fun _ => hfed) (by simp [Session.passed]) hheaders
      | all s' =>
          rw [hfeed] at hfed
          simp only [hfeed] at hheaders ⊢
          have hpassed : (k.passed s' .all [(k.current, b)]).Sound :=
            hk.passed hstatus b fun _ => .idle (resetRequest_idle s')
          have hdeliver : ((k.passed s' .all [(k.current, b)]).deliver s').Sound :=
            { current := hpassed.current
              examined := hpassed.examined
              delivered := by
                intro d hd
                rcases List.mem_append.mp hd with hd | hd
                · exact hpassed.delivered d hd
                · rw [List.mem_singleton.mp hd]
                  exact hfed }
          cases hserve : h.serve l ((k.passed s' .all [(k.current, b)]).deliver s').host
              s'.delivery with
          | none => exact ⟨by simp, hdeliver⟩
          | some next =>
              simp only [hserve] at hheaders
              exact ih next.1 ⟨hdeliver.current, hdeliver.examined, hdeliver.delivered⟩
                (by simp [Session.passed, Session.deliver]) hheaders

variable {val h} {c : Conn α H}

/-- What has been examined stays so in a run. -/
theorem readEvents_examined_subset (hc : c.Drained) {events : List (List α)}
    (hreads : Reads events) (herr : NoReadAfterErr val h c events) :
    c.examined ⊆ (readEvents val h c events).2.examined := by
  induction events generalizing c with
  | nil => exact List.Subset.refl _
  | cons bytes events ih =>
      obtain ⟨hne, hlen⟩ := hreads bytes List.mem_cons_self
      obtain ⟨c₁, hread, hsession, hdrained, -⟩ := onReadCb_eq_scan val h hc hne hlen
      have hfirst : c.examined ⊆ c₁.examined := by
        have hsubset := scan_examined_subset val h h.fresh c.session bytes
        rwa [← hsession] at hsubset
      cases hexit : (scan val h h.fresh c.session bytes).1 with
      | finished =>
          rw [hexit] at hread hdrained
          simp only [readEvents, hread]
          by_cases hlast : events = []
          · subst hlast
            exact hfirst
          · exact List.Subset.trans hfirst (ih (hdrained rfl (herr.status_ne hlast hread))
              (fun b hb => hreads b (List.mem_cons_of_mem _ hb)) (herr.tail hread))
      | closed | stopped | fault =>
          rw [hexit] at hread
          simpa only [readEvents, hread] using hfirst

/-- A run whose headers are fine keeps the session sound and makes no access that is not allowed. -/
theorem readEvents_sound (hc : c.Drained) (hsound : c.session.Sound) {events : List (List α)}
    (hreads : Reads events) (herr : NoReadAfterErr val h c events)
    (hheaders : HeadersOk val (readEvents val h c events).2.examined) :
    (readEvents val h c events).1 ≠ .fault ∧ (readEvents val h c events).2.session.Sound := by
  induction events generalizing c with
  | nil => exact ⟨by simp [readEvents], hsound⟩
  | cons bytes events ih =>
      obtain ⟨hne, hlen⟩ := hreads bytes List.mem_cons_self
      obtain ⟨c₁, hread, hsession, hdrained, -⟩ := onReadCb_eq_scan val h hc hne hlen
      have hreads' : Reads events := fun b hb => hreads b (List.mem_cons_of_mem _ hb)
      -- the headers of the first read are among those of the run
      have hfirst : HeadersOk val c₁.examined →
          (scan val h h.fresh c.session bytes).1 ≠ .fault ∧ c₁.session.Sound := by
        intro hok
        have hok' : HeadersOk val (scan val h h.fresh c.session bytes).2.examined := by
          rw [← hsession]
          exact hok
        have hscan := scan_sound val h h.fresh hsound hc.status_ne hok'
        rwa [← hsession] at hscan
      cases hexit : (scan val h h.fresh c.session bytes).1 with
      | finished =>
          rw [hexit] at hread hdrained
          simp only [readEvents, hread] at hheaders ⊢
          by_cases hlast : events = []
          · subst hlast
            exact ⟨by simp [readEvents], (hfirst hheaders).2⟩
          · have hnext := hdrained rfl (herr.status_ne hlast hread)
            have hsubset := readEvents_examined_subset hnext hreads' (herr.tail hread)
            exact ih hnext (hfirst fun sb hsb => hheaders sb (hsubset hsb)).2 hreads'
              (herr.tail hread) hheaders
      | closed | stopped | fault =>
          rw [hexit] at hread hfirst
          simp only [readEvents, hread] at hheaders ⊢
          exact hfirst hheaders

end Run

/-! ## What soundness gives -/

/-- The writes the parser makes for a byte of a string, and for the last byte of it, are inside the
buffer and the slots. -/
structure ParseState.WritesInside (s : ParseState) : Prop where
  cur_ge : 0 ≤ s.parsing.curSizeStr
  cur_lt : s.parsing.curSizeStr < s.parsing.sizeStr
  str : ∃ b, s.parsing.parsingStr = some b ∧ (b.length : Int) = s.parsing.sizeStr + 1
  count_ge : 0 ≤ s.curCountArgv
  count_lt : s.curCountArgv < s.argc
  slots : ∃ slots, s.argv = some slots ∧ (slots.length : Int) = s.argc

/-- What the parser makes of a number at the `\r` behind it: it rejects a negative one, takes
exactly as many bytes as the length of a string says into the next argument, and collects exactly as
many arguments as the count of a request says. -/
structure ParseState.MeetsDeclared (s : ParseState) (declared : Int) : Prop where
  rejected : declared < 0 → ∃ s', feed s 13 = .err s'
  length : s.argc ≠ -1 → ∀ size : Nat, declared = size →
    ∃ n args, s.Collects n args ∧ args.length < n ∧ ∀ payload : List UInt8,
      (payload.length = size → ∃ s', feedAll s (crlf ++ payload) = some s' ∧
        s'.Between n (args ++ [payload])) ∧
      (payload.length < size → ∃ s', feedAll s (crlf ++ payload) = some s' ∧
        s'.Reading n args size payload)
  count : s.argc = -1 → ∀ n : Nat, declared = n → ∀ request parts,
    List.Forall₂ EncodesArgument request parts → (∀ argument ∈ request, Sendable argument) →
      (request.length = n → ∃ body s', crlf ++ parts.flatten = body ++ [10] ∧
        feedAll s body = some s' ∧ feed s' 10 = .all s' ∧
        s'.delivery = ⟨n, request.map argSlot⟩) ∧
      (request.length < n → ∃ s', feedAll s (crlf ++ parts.flatten) = some s' ∧
        s'.Between n request)

/-- `n` is a number behind a `*` or a `$` of what was examined, and `s` the parser at its `\r`. -/
def HeaderAt {α : Type*} (val : α → UInt8) (examined : List (ParseState × α)) (n : Numeral)
    (s : ParseState) : Prop :=
  ∃ before first more last rest, examined = before ++ first :: more ++ (s, last) :: rest ∧
    first.1.readStatus = .numOrMinusWait ∧
    ((first :: more).map fun pair => val pair.2) = n.bytes ∧ val last = 13

section Sound

variable {s : ParseState}

theorem ParseState.Between.status_ne_number {n : Nat} {args : List (List UInt8)}
    (hs : s.Between n args) {status : EreadStatus} (hend : status ≠ .endWait)
    (hstart : status ≠ .startStringWait) : s.readStatus ≠ status := by
  rw [hs.status_eq]
  split
  · exact hend.symm
  · exact hstart.symm

theorem ParseState.Reading.writesInside {n : Nat} {args : List (List UInt8)} {size : Nat}
    {done : List UInt8} (hs : s.Reading n args size done) : s.WritesInside := by
  obtain ⟨b, hb, rest, rfl, hrest⟩ := hs.str
  have hcur := hs.cur_lt
  have hcount := hs.count_lt
  have hle := hs.collects.length_le
  exact
    { cur_ge := by rw [hs.cur_eq]; omega
      cur_lt := by rw [hs.cur_eq, hs.size_eq]; omega
      str := by
        refine ⟨_, hb, ?_⟩
        rw [List.length_append, Block.length_ofBytes, hrest, hs.size_eq]
        omega
      count_ge := by rw [hs.collects.curCount_eq]; omega
      count_lt := by rw [hs.collects.curCount_eq, hs.collects.argc_eq]; omega
      slots := by
        refine ⟨_, hs.collects.argv_eq, ?_⟩
        rw [List.length_append, List.length_map, List.length_replicate, hs.collects.argc_eq]
        omega }

/-- What the status of a sound parser says about it. -/
theorem ParseState.Sound.of_status (hs : s.Sound) :
    (s.readStatus = .numOrMinusWait → s.AtCount ∨ ∃ n args, s.AtLength n args) ∧
      (s.readStatus = .numWait → s.InNumber) ∧ (s.readStatus = .strSymWait → s.WritesInside) := by
  cases hs with
  | idle h => simp [h.status_eq]
  | atCount h => exact ⟨fun _ => .inl h, by simp [h.status_eq], by simp [h.status_eq]⟩
  | between h =>
      exact ⟨fun hstatus => absurd hstatus (h.status_ne_number (by simp) (by simp)),
        fun hstatus => absurd hstatus (h.status_ne_number (by simp) (by simp)),
        fun hstatus => absurd hstatus (h.status_ne_number (by simp) (by simp))⟩
  | atLength h =>
      exact ⟨fun _ => .inr ⟨_, _, h⟩, by simp [h.status_eq], by simp [h.status_eq]⟩
  | inNumber h => exact ⟨by simp [h.status_eq], fun _ => h, by simp [h.status_eq]⟩
  | beforePayload hstatus h => simp [hstatus]
  | reading h => exact ⟨by simp [h.status_eq], by simp [h.status_eq], fun _ => h.writesInside⟩

/-- A digit of a number that the parser can meet does not make it wrap. -/
theorem ParseState.Sound.noWrap_digit (hs : s.Sound) {c : UInt8} (hheader : s.HeaderOk c)
    (hdigit : isDigit c = true) : NoWrap s c := by
  obtain ⟨hval, -⟩ := digitVal_range hdigit
  have hreturn : c ≠ 13 := by
    rintro rfl
    cases hdigit
  refine ⟨fun _ hstatus => ⟨?_, hheader.1 hdigit hstatus⟩, fun hc => absurd hc hreturn,
    fun hc => absurd hc hreturn, fun hc => absurd hc hreturn⟩
  have hnonneg : 0 ≤ s.parsing.parsingNum := by
    rcases hstatus with hstatus | hstatus
    · rcases hs.of_status.1 hstatus with h | ⟨_, _, h⟩
      · exact h.num_eq.ge
      · exact h.num_eq.ge
    · exact (hs.of_status.2.1 hstatus).num_nonneg
  omega

/-- The length of a string is met. -/
theorem ParseState.InNumber.meets_length (hs : s.InNumber) (hargc : s.argc ≠ -1) {size : Nat}
    (hnumber : s.number = size) (hpos : 0 < size) (hsize : size < 2 ^ 31 - 1) :
    ∃ n args, s.Collects n args ∧ args.length < n ∧ ∀ payload : List UInt8,
      (payload.length = size → ∃ s', feedAll s (crlf ++ payload) = some s' ∧
        s'.Between n (args ++ [payload])) ∧
      (payload.length < size → ∃ s', feedAll s (crlf ++ payload) = some s' ∧
        s'.Reading n args size payload) := by
  rcases hs.counted with hnone | ⟨n, args, hcollects, hlt⟩
  · exact absurd hnone hargc
  · obtain ⟨s₁, hend, hs₁⟩ :=
      feedAll_sizeEnd hs.status_eq hcollects hlt hnumber hpos hsize
    refine ⟨n, args, hcollects, hlt, fun payload => ⟨fun hlength => ?_, fun hlength => ?_⟩⟩
    · obtain ⟨s', hfed, hs'⟩ := hs₁.feedAll_payload payload (by simpa using hlength)
      exact ⟨s', by rw [feedAll_append, hend, Option.bind_some, hfed], hs'⟩
    · obtain ⟨s', hfed, hs'⟩ := hs₁.feedAll_part payload (by simpa using hlength)
      exact ⟨s', by rw [feedAll_append, hend, Option.bind_some, hfed], hs'⟩

/-- The count of a request is met. -/
theorem ParseState.InNumber.meets_count (hs : s.InNumber) (hargc : s.argc = -1) {n : Nat}
    (hnumber : s.number = n) (hpos : 0 < n) {request parts : List (List UInt8)}
    (hparts : List.Forall₂ EncodesArgument request parts)
    (hrequest : ∀ argument ∈ request, Sendable argument) :
    (request.length = n → ∃ body s', crlf ++ parts.flatten = body ++ [10] ∧
      feedAll s body = some s' ∧ feed s' 10 = .all s' ∧
      s'.delivery = ⟨n, request.map argSlot⟩) ∧
    (request.length < n → ∃ s', feedAll s (crlf ++ parts.flatten) = some s' ∧
      s'.Between n request) := by
  obtain ⟨s₁, hend, hs₁⟩ := hs.feed_count hargc hnumber hpos
  constructor
  · rintro rfl
    obtain ⟨body, s', hbody, hfed, hs'⟩ :=
      hs₁.feedAll_body hparts hrequest (List.ne_nil_of_length_pos hpos)
    exact ⟨13 :: body, s', by simp [crlf, hbody], by simpa only [feedAll, hend] using hfed,
      hs'.feed_lf, hs'.delivery_eq⟩
  · intro hlength
    obtain ⟨s', hfed, hs'⟩ := hs₁.feedAll_some hparts hrequest (by simpa using hlength)
    have hstart : s₁.readStatus = .startStringWait := by
      rw [hs₁.status_eq, List.length_nil, if_neg (by omega)]
    have hskip : feed s₁ 10 = .next s₁ := by
      rw [feed_startStringWait hstart, if_neg (by decide)]
    exact ⟨s', by simpa only [crlf, List.cons_append, List.nil_append, feedAll, hend, hskip]
      using hfed, hs'⟩

/-- A number that the parser can meet is met. -/
theorem ParseState.Sound.meetsDeclared (hs : s.Sound) (hstatus : s.readStatus = .numWait)
    (hheader : s.HeaderOk 13) : s.MeetsDeclared s.number := by
  have hnum := hs.of_status.2.1 hstatus
  obtain ⟨hne, hlength⟩ := hheader.2 rfl hstatus
  exact
    { rejected := fun hneg => hnum.feed_negative hneg fun hargc => (hlength hargc).1
      length := by
        intro hargc size hsize
        have hroom := (hlength hargc).2
        exact hnum.meets_length hargc hsize (by omega) (by omega)
      count := fun hargc n hn request parts hparts hrequest =>
        hnum.meets_count hargc hn (by omega) hparts hrequest }

end Sound

/-- In what was examined of a connection, the number behind a `*` or a `$` is the one that is
written there. -/
theorem Conn.Accepted.headerAt_number {α L H : Type*} {val : α → UInt8} {h : Handler L H}
    {c : Conn α H} (hc : c.Accepted) {events : List (List α)}
    (hsound : ∀ sb ∈ (readEvents val h c events).2.examined, sb.1.Sound)
    (hheaders : HeadersOk val (readEvents val h c events).2.examined) {n : Numeral} {s : ParseState}
    (hn : HeaderAt val (readEvents val h c events).2.examined n s) :
    s.readStatus = .numWait ∧ s.number = n.value := by
  obtain ⟨before, first, more, last, rest, hexamined, hstatus, hbytes, -⟩ := hn
  obtain ⟨hwalk, -, -⟩ := hc.walk val h events
  rw [hexamined] at hwalk hsound hheaders
  obtain ⟨hpath, -⟩ := hwalk.split
  obtain ⟨s₁, -, hheader⟩ := hpath.split
  obtain rfl := hheader.head_eq
  have hzero : first.1.parsing.parsingNum = 0 := by
    rcases (hsound first (by simp)).of_status.1 hstatus with h | ⟨_, _, h⟩
    · exact h.num_eq
    · exact h.num_eq
  obtain ⟨b, s₂, tail, htail, -, hdigitsPath, hstatus₂, -, hneg, hge, hlt, hdigits, hmagnitude⟩ :=
    header_begin hheader hstatus hzero hbytes
  obtain ⟨hwrap, hstate⟩ := digits_noWrap_iff hdigitsPath hstatus₂ hge hlt hdigits
  have hmem : ∀ pair ∈ tail, pair ∈ before ++ first :: more ++ (s, last) :: rest := by
    intro pair hpair
    have hpair : pair ∈ first :: more := htail ▸ List.mem_cons_of_mem _ hpair
    exact List.mem_append_left _ (List.mem_append_right _ hpair)
  have hsmall : n.magnitude < 2 ^ 31 := by
    rw [← hmagnitude, ← hwrap]
    intro pair hpair
    exact (hsound pair (hmem pair hpair)).noWrap_digit (hheaders pair (hmem pair hpair))
      (hdigits pair hpair)
  rw [hmagnitude] at hstate
  have hs : s = { s₂ with parsing := { s₂.parsing with parsingNum := n.magnitude } } :=
    hstate hsmall
  have hnumWait : s.readStatus = .numWait := by rw [hs]; exact hstatus₂
  refine ⟨hnumWait, ?_⟩
  obtain ⟨hnumber, -⟩ := noWrap_return hnumWait (by rw [hs]; exact n.magnitude_nonneg)
    (by rw [hs]; exact hsmall)
  rw [hnumber, hs, Numeral.value, ← hneg]

/-- From an accepted connection, with no read after an `ERR` and only numbers that the parser can
meet, the parser makes no access that is not allowed: every byte of a string is written below its
declared length, every argument into a slot below the declared count, what is written behind a `*`
or a `$` is met exactly, and what is delivered is full. -/
theorem writes_in_bounds {α L H : Type*} {val : α → UInt8} {h : Handler L H} {c : Conn α H}
    (hc : c.Accepted) {events : List (List α)} (hreads : Reads events)
    (herr : NoReadAfterErr val h c events)
    (hheaders : HeadersOk val (readEvents val h c events).2.examined) :
    (readEvents val h c events).1 ≠ .fault ∧
      (∀ sb ∈ (readEvents val h c events).2.examined,
        (sb.1.readStatus = .strSymWait → sb.1.WritesInside) ∧
        (sb.1.readStatus = .numWait → val sb.2 = 13 → sb.1.MeetsDeclared sb.1.number)) ∧
      (∀ n s, HeaderAt val (readEvents val h c events).2.examined n s → s.MeetsDeclared n.value) ∧
      ∀ d ∈ (readEvents val h c events).2.delivered, d.Full := by
  obtain ⟨hexit, hsound⟩ := readEvents_sound hc.drained hc.sound hreads herr hheaders
  have hmeets : ∀ sb ∈ (readEvents val h c events).2.examined, sb.1.readStatus = .numWait →
      val sb.2 = 13 → sb.1.MeetsDeclared sb.1.number := by
    intro sb hsb hstatus hreturn
    have hheader := hheaders sb hsb
    rw [hreturn] at hheader
    exact (hsound.examined sb hsb).meetsDeclared hstatus hheader
  refine ⟨hexit, fun sb hsb => ⟨(hsound.examined sb hsb).of_status.2.2, hmeets sb hsb⟩, ?_,
    hsound.delivered⟩
  intro n s hn
  obtain ⟨hstatus, hnumber⟩ := hc.headerAt_number hsound.examined hheaders hn
  obtain ⟨before, first, more, last, rest, hexamined, -, -, hreturn⟩ := hn
  rw [← hnumber]
  exact hmeets (s, last) (by simp [hexamined]) hstatus hreturn

/-- `PING` in two reads, with a leading zero. -/
theorem writes_in_bounds_ping :
    (readEvents id .idle (Conn.accept ()) [ascii "*1\r\n$0", ascii "4\r\nPING\r\n"]).1 ≠ .fault :=
  (writes_in_bounds (Conn.accept_accepted ()) (by unfold Reads; decide)
    (by unfold NoReadAfterErr; decide +kernel) (by unfold HeadersOk; decide +kernel)).1

/-- `GET` with an empty key: the line end behind the empty payload is written at the indices 0 and 1
of a string of declared length 0, and the second of them is past its buffer. A length of `-1` and a
count of zero leave no room at all, and a length of `2 ^ 32 + 4` takes four bytes. -/
theorem empty_payload_out_of_bounds :
    let run := readEvents id .idle (Conn.accept ()) [ascii "*2\r\n$3\r\nGET\r\n$0\r\n\r\n"]
    (run.1 = .fault ∧ ∃ sb ∈ run.2.examined, sb.1.readStatus = .strSymWait ∧
      sb.1.parsing.sizeStr ≤ sb.1.parsing.curSizeStr) ∧
      (readEvents id .idle (Conn.accept ()) [ascii "*2\r\n$3\r\nGET\r\n$-1\r\n\r\n"]).1 = .fault ∧
      (readEvents id .idle (Conn.accept ()) [ascii "*0\r\n$4\r\nPING\r\n"]).1 = .fault ∧
      (readEvents id .idle (Conn.accept ()) [ascii "*1\r\n$4294967300\r\nPING\r\n"]).2.delivered =
        [⟨1, [argSlot (ascii "PING")]⟩] := by
  decide +kernel

end PgRedisProxy
