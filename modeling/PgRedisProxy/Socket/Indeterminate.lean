import PgRedisProxy.Socket.ReadLoop

/-!
# Members that are never set

`on_accept_cb` sets only some of the members of `Tsocket_data`; the others hold what was
in the memory before. `ParseState.Agrees` compares two parsers without the members that
are still to be set: each of them is set on the way to the states in which it is used.
`onReadCb_agrees` is the main result: two connections that agree read the same requests
from the same bytes, come to the same end, and agree again.
-/

namespace PgRedisProxy

open CLang

/-- Two parsers agree in all that was set: the sign in a number, the sizes in a string, and the
count of arguments from the end of the first number on. -/
structure ParseState.Agrees (s s' : ParseState) : Prop where
  readStatus_eq : s'.readStatus = s.readStatus
  argc_eq : s'.argc = s.argc
  argv_eq : s'.argv = s.argv
  parsingNum_eq : s'.parsing.parsingNum = s.parsing.parsingNum
  parsingStr_eq : s'.parsing.parsingStr = s.parsing.parsingStr
  isNegative_eq : s.readStatus = .numWait → s'.parsing.isNegative = s.parsing.isNegative
  sizes_eq : s.readStatus = .stringWait ∨ s.readStatus = .strSymWait →
    s'.parsing.sizeStr = s.parsing.sizeStr ∧ s'.parsing.curSizeStr = s.parsing.curSizeStr
  curCountArgv_eq : s.argc ≠ -1 ∨ s.readStatus ∉ [.arrayWait, .numOrMinusWait, .numWait] →
    s'.curCountArgv = s.curCountArgv

/-- A byte does the same to both. -/
inductive Fed.Agrees : Fed → Fed → Prop
  | next {s s' : ParseState} : s.Agrees s' → Agrees (.next s) (.next s')
  | err {s s' : ParseState} : s.Agrees s' → Agrees (.err s) (.err s')
  | all {s s' : ParseState} : s.Agrees s' → Agrees (.all s) (.all s')
  | fault : Agrees .fault .fault

section Feed

variable {s s' : ParseState}

/-- The sign does not matter but in a number. -/
theorem agrees_sign (hstatus : s.readStatus ≠ .numWait) (b : Bool) :
    s.Agrees { s with parsing := { s.parsing with isNegative := b } } :=
  ⟨rfl, rfl, rfl, rfl, rfl, fun hnum => absurd hnum hstatus, fun _ => ⟨rfl, rfl⟩, fun _ => rfl⟩

/-- The last byte of a string. -/
theorem stringEnd_agrees (hstatus : s.readStatus = .strSymWait) (b : Bool) :
    (stringEnd s).Agrees (stringEnd { s with parsing := { s.parsing with isNegative := b } }) := by
  simp only [stringEnd]
  split
  · exact .fault
  · split
    · split
      · exact .fault
      · exact .err (agrees_sign (by simp [hstatus]) b)
    · split
      · exact .fault
      · split
        · exact .fault
        · exact .next (agrees_sign (by dsimp only; split <;> simp) b)

/-- A byte of a string: all that was set before the string is used. -/
theorem strSym_agrees (h : s.Agrees s') (hstatus : s.readStatus = .strSymWait) (c : UInt8) :
    (strSym s c).Agrees (strSym s' c) := by
  have hsame : s' =
      { s with parsing := { s.parsing with isNegative := s'.parsing.isNegative } } := by
    obtain ⟨hsize, hcur⟩ := h.sizes_eq (.inr hstatus)
    have hcount := h.curCountArgv_eq (.inr (by simp [hstatus]))
    obtain ⟨argv, argc, curCountArgv, ⟨num, sign, str, size, cur⟩, status⟩ := s'
    cases h.argv_eq
    cases h.argc_eq
    cases h.readStatus_eq
    cases h.parsingNum_eq
    cases h.parsingStr_eq
    cases hsize
    cases hcur
    cases hcount
    rfl
  rw [hsame]
  simp only [strSym]
  split
  · exact .fault
  · rename_i str _
    split
    · exact stringEnd_agrees (s := { s with parsing := { s.parsing with
        parsingStr := some str, curSizeStr := wrap32 (s.parsing.curSizeStr + 1) } }) hstatus _
    · exact .next (agrees_sign (by simp [hstatus]) _)

/-- The end of a number sets the count of arguments, or the sizes of a string. -/
theorem headerEnd_agrees (h : s.Agrees s') (hstatus : s.readStatus = .numWait) :
    (headerEnd s).Agrees (headerEnd s') := by
  have hnumber : s'.number = s.number := by
    simp only [ParseState.number, h.isNegative_eq hstatus, h.parsingNum_eq]
  simp only [headerEnd, hnumber, h.argc_eq]
  split
  · split
    · exact .err ⟨rfl, rfl, rfl, rfl, h.parsingStr_eq, by simp, by simp, fun _ => rfl⟩
    · exact .next ⟨rfl, rfl, rfl, rfl, h.parsingStr_eq, by simp, by simp, fun _ => rfl⟩
  · rename_i hargc
    have hcount := h.curCountArgv_eq (.inl hargc)
    split
    · exact .err ⟨rfl, rfl, h.argv_eq, rfl, rfl, by simp, fun _ => ⟨rfl, rfl⟩, fun _ => hcount⟩
    · exact .next ⟨rfl, rfl, h.argv_eq, rfl, rfl, by simp, fun _ => ⟨rfl, rfl⟩, fun _ => hcount⟩

/-- One byte. -/
theorem feed_agrees (h : s.Agrees s') (c : UInt8) : (feed s c).Agrees (feed s' c) := by
  have hstatus' := h.readStatus_eq
  cases hstatus : s.readStatus with
  | arrayWait =>
      rw [hstatus] at hstatus'
      rw [feed_arrayWait hstatus, feed_arrayWait hstatus']
      refine .next ?_
      split
      · exact ⟨rfl, h.argc_eq, h.argv_eq, h.parsingNum_eq, h.parsingStr_eq, by simp, by simp,
          fun hset => h.curCountArgv_eq (.inl (by simpa using hset))⟩
      · exact h
  | numOrMinusWait =>
      rw [hstatus] at hstatus'
      rw [feed_numOrMinusWait hstatus, feed_numOrMinusWait hstatus', h.parsingNum_eq]
      refine .next ?_
      split
      · exact ⟨rfl, h.argc_eq, h.argv_eq, rfl, h.parsingStr_eq, fun _ => rfl, by simp,
          fun hset => h.curCountArgv_eq (.inl (by simpa using hset))⟩
      · split
        · exact ⟨rfl, h.argc_eq, h.argv_eq, h.parsingNum_eq, h.parsingStr_eq, fun _ => rfl,
            by simp, fun hset => h.curCountArgv_eq (.inl (by simpa using hset))⟩
        · exact h
  | numWait =>
      rw [hstatus] at hstatus'
      rw [feed_numWait hstatus, feed_numWait hstatus', h.parsingNum_eq]
      split
      · exact .next ⟨h.readStatus_eq, h.argc_eq, h.argv_eq, rfl, h.parsingStr_eq, h.isNegative_eq,
          h.sizes_eq, h.curCountArgv_eq⟩
      · split
        · exact headerEnd_agrees h hstatus
        · exact .next h
  | stringWait =>
      rw [hstatus] at hstatus'
      rw [feed_stringWait hstatus, feed_stringWait hstatus']
      refine .next ?_
      split
      · exact ⟨rfl, h.argc_eq, h.argv_eq, h.parsingNum_eq, h.parsingStr_eq, by simp,
          fun _ => h.sizes_eq (.inl hstatus), fun _ => h.curCountArgv_eq (.inr (by simp [hstatus]))⟩
      · exact h
  | startStringWait =>
      rw [hstatus] at hstatus'
      rw [feed_startStringWait hstatus, feed_startStringWait hstatus']
      refine .next ?_
      split
      · exact ⟨rfl, h.argc_eq, h.argv_eq, h.parsingNum_eq, h.parsingStr_eq, by simp, by simp,
          fun _ => h.curCountArgv_eq (.inr (by simp [hstatus]))⟩
      · exact h
  | strSymWait =>
      rw [hstatus] at hstatus'
      rw [feed_strSymWait hstatus, feed_strSymWait hstatus']
      exact strSym_agrees h hstatus c
  | endWait =>
      rw [hstatus] at hstatus'
      rw [feed_endWait hstatus, feed_endWait hstatus']
      split
      · exact .all h
      · exact .next h

theorem resetRequest_agrees (s s' : ParseState) : (resetRequest s).Agrees (resetRequest s') :=
  ⟨rfl, rfl, rfl, rfl, rfl, by simp [resetRequest], by simp [resetRequest], by simp [resetRequest]⟩

theorem ParseState.Agrees.delivery_eq (h : s.Agrees s') : s'.delivery = s.delivery := by
  simp only [ParseState.delivery, h.argc_eq, h.argv_eq]

end Feed

/-! ## The read buffer -/

section Buffer

variable {α L H : Type*} (val : α → UInt8) (h : Handler L H)

/-- Two connections agree in what they have read and have not passed to the parser. -/
structure TsocketReadData.Agrees (d d' : TsocketReadData α) : Prop where
  parse : d.parse.Agrees d'.parse
  exitStatus_eq : d'.exitStatus = d.exitStatus
  curBufferSize_eq : d'.curBufferSize = d.curBufferSize
  size_le : d.curBufferSize ≤ bufferSize
  length_eq : d.readBuffer.length = bufferSize ∧ d'.readBuffer.length = bufferSize
  take_eq : d'.readBuffer.take d.curBufferSize = d.readBuffer.take d.curBufferSize

/-- One call of `parse_cli_mes` does the same to both. -/
structure Pass.Agrees (pass pass' : Pass α) : Prop where
  parse : pass.parse.Agrees pass'.parse
  ending_eq : pass'.ending = pass.ending
  length_eq : pass'.examined.length = pass.examined.length

/-- The loop of `parse_cli_mes` looks at no byte behind those that were read. -/
theorem parseLoop_agrees {n index : Nat} {s s' : ParseState} {rest rest' : List α}
    (hs : s.Agrees s') (hlt : index < n) (htake : rest'.take (n - index) = rest.take (n - index)) :
    (parseLoop val n s index rest).Agrees (parseLoop val n s' index rest') := by
  induction rest generalizing s s' index rest' with
  | nil =>
      cases rest' with
      | nil => exact ⟨hs, rfl, rfl⟩
      | cons b' rest' =>
          rw [List.take_nil, List.take_eq_nil_iff] at htake
          rcases htake with hzero | hnil
          · omega
          · cases hnil
  | cons b rest ih =>
      have hsome : n - index = n - (index + 1) + 1 := by omega
      rw [hsome] at htake
      cases rest' with
      | nil => simp at htake
      | cons b' rest' =>
          rw [List.take_succ_cons, List.take_succ_cons, List.cons.injEq] at htake
          obtain ⟨rfl, htake⟩ := htake
          have hfed := feed_agrees hs (val b')
          simp only [parseLoop]
          generalize feed s (val b') = fed at hfed ⊢
          generalize feed s' (val b') = fed' at hfed ⊢
          cases hfed with
          | fault => exact ⟨hs, rfl, rfl⟩
          | err hs₁ => exact ⟨hs₁, rfl, rfl⟩
          | all hs₁ => exact ⟨hs₁, rfl, rfl⟩
          | @next s₁ s₁' hs₁ =>
              dsimp only
              split
              · exact ⟨hs₁, rfl, rfl⟩
              · have hpass : (parseLoop val n s₁ (index + 1) rest).Agrees
                    (parseLoop val n s₁' (index + 1) rest') := ih hs₁ (by omega) htake
                exact ⟨hpass.parse, hpass.ending_eq, by simp [hpass.length_eq]⟩

/-- What is left in the buffer behind a request. -/
theorem replacePartOfBuffer_agrees {d d' : TsocketReadData α} (hd : d.Agrees d') (index : Nat) :
    (replacePartOfBuffer d index).Agrees (replacePartOfBuffer d' index) := by
  obtain ⟨hparse, hexit, hsize, hle, ⟨hlength, hlength'⟩, htake⟩ := hd
  have hleft : (d'.readBuffer.drop index).take (d.curBufferSize - index) =
      (d.readBuffer.drop index).take (d.curBufferSize - index) := by
    rw [← List.drop_take, ← List.drop_take, htake]
  have hfull : ((d.readBuffer.drop index).take (d.curBufferSize - index)).length =
      d.curBufferSize - index := by
    rw [List.length_take, List.length_drop]
    omega
  simp only [replacePartOfBuffer, hsize, hleft]
  refine ⟨hparse, hexit, rfl, (Nat.sub_le _ _).trans hle, ⟨?_, ?_⟩, ?_⟩
  · rw [List.length_append, hfull, List.length_drop]
    omega
  · rw [List.length_append, hfull, List.length_drop]
    omega
  · rw [List.take_left' hfull, List.take_left' hfull]

/-- `parse_cli_mes` -/
theorem parseCliMes_agrees {d d' : TsocketReadData α} (hd : d.Agrees d')
    (hpos : 0 < d.curBufferSize) :
    (parseCliMes val d).1.Agrees (parseCliMes val d').1 ∧
      (parseCliMes val d').2.ending = (parseCliMes val d).2.ending := by
  obtain ⟨hparse, hending, hlength⟩ : (parseLoop val d.curBufferSize d.parse 0 d.readBuffer).Agrees
      (parseLoop val d.curBufferSize d'.parse 0 d'.readBuffer) :=
    parseLoop_agrees val hd.parse hpos hd.take_eq
  simp only [parseCliMes, hd.curBufferSize_eq]
  generalize parseLoop val d.curBufferSize d.parse 0 d.readBuffer = pass at *
  generalize parseLoop val d.curBufferSize d'.parse 0 d'.readBuffer = pass' at *
  rw [hending, hlength]
  have hpassed : TsocketReadData.Agrees { d with parse := pass.parse }
      { d' with parse := pass'.parse, curBufferSize := d.curBufferSize } :=
    ⟨hparse, hd.exitStatus_eq, rfl, hd.size_le, hd.length_eq, hd.take_eq⟩
  cases pass.ending with
  | fault => exact ⟨hpassed, hending⟩
  | err => exact ⟨⟨hparse, rfl, rfl, hd.size_le, hd.length_eq, hd.take_eq⟩, hending⟩
  | notAll => exact ⟨⟨hparse, rfl, rfl, Nat.zero_le _, hd.length_eq, rfl⟩, hending⟩
  | all =>
      have hmoved := replacePartOfBuffer_agrees hpassed pass.examined.length
      exact ⟨⟨hmoved.parse, rfl, hmoved.curBufferSize_eq, hmoved.size_le, hmoved.length_eq,
        hmoved.take_eq⟩, hending⟩

theorem resetIfAll_agrees {d d' : TsocketReadData α} (hd : d.Agrees d') :
    (resetIfAll d).Agrees (resetIfAll d') := by
  simp only [resetIfAll, hd.exitStatus_eq]
  split
  · exact ⟨resetRequest_agrees _ _, rfl, hd.curBufferSize_eq, hd.size_le, hd.length_eq, hd.take_eq⟩
  · exact hd

/-! ## The read event -/

/-- The bytes examined are not compared: with them the state of the parser was recorded. -/
structure Conn.Agrees (c c' : Conn α H) : Prop where
  readData : c.readData.Agrees c'.readData
  host_eq : c'.host = c.host
  delivered_eq : c'.delivered = c.delivered

/-- The loop of `on_read_cb`. -/
theorem readLoop_agrees {fuel : Nat} {l : L} {c c' : Conn α H} (hc : c.Agrees c')
    (hpos : 0 < c.readData.curBufferSize) :
    (readLoop val h fuel l c').1 = (readLoop val h fuel l c).1 ∧
      (readLoop val h fuel l c).2.Agrees (readLoop val h fuel l c').2 := by
  induction fuel generalizing l c c' with
  | zero => exact ⟨rfl, hc⟩
  | succ fuel ih =>
      have hreset : (resetIfAll c.readData).curBufferSize = c.readData.curBufferSize := by
        simp only [resetIfAll]
        split
        · rfl
        · rfl
      obtain ⟨hdata, hending⟩ := parseCliMes_agrees val (resetIfAll_agrees hc.readData)
        (by rw [hreset]; exact hpos)
      simp only [readLoop]
      generalize parseCliMes val (resetIfAll c.readData) = turn at hdata hending ⊢
      generalize parseCliMes val (resetIfAll c'.readData) = turn' at hdata hending ⊢
      rw [hending, hdata.exitStatus_eq, hdata.curBufferSize_eq, hdata.parse.delivery_eq,
        hc.host_eq, hc.delivered_eq]
      split
      · exact ⟨rfl, hdata, rfl, rfl⟩
      · split
        · exact ⟨rfl, hdata, rfl, rfl⟩
        · cases h.serve l c.host turn.1.parse.delivery with
          | none => exact ⟨rfl, hdata, rfl, rfl⟩
          | some next =>
              dsimp only
              split
              · rename_i hmore
                exact ih ⟨hdata, rfl, rfl⟩ (Nat.pos_of_ne_zero hmore)
              · exact ⟨rfl, hdata, rfl, rfl⟩

/-- A read event comes to the same end on both connections, with the same requests delivered. -/
theorem onReadCb_agrees {c c' : Conn α H} (hc : c.Agrees c') (bytes : List α) :
    (onReadCb val h c' bytes).1 = (onReadCb val h c bytes).1 ∧
      (onReadCb val h c bytes).2.Agrees (onReadCb val h c' bytes).2 := by
  obtain ⟨hparse, hexit, hsize, hle, ⟨hlength, hlength'⟩, htake⟩ := hc.readData
  simp only [onReadCb, hsize, htake]
  generalize hres : bytes.take (bufferSize - c.readData.curBufferSize) = res
  have hroom : res.length ≤ bufferSize - c.readData.curBufferSize := by
    rw [← hres, List.length_take]
    exact Nat.min_le_left _ _
  split
  · exact ⟨rfl, hc⟩
  · rename_i hne
    have hpos : 0 < res.length := List.length_pos_iff.mpr hne
    refine readLoop_agrees val h ⟨⟨hparse, hexit, rfl, by dsimp only; omega, ⟨?_, ?_⟩, ?_⟩, hc.host_eq,
      hc.delivered_eq⟩ hpos
    · simp only [List.length_append, List.length_take, List.length_drop, hlength]
      omega
    · simp only [List.length_append, List.length_take, List.length_drop, hlength, hlength']
      omega
    · have hwithin : res.length ≤
          (c.readData.readBuffer.take c.readData.curBufferSize ++ res).length := by simp
      rw [List.take_append_of_le_length hwithin, List.take_append_of_le_length hwithin]

end Buffer

end PgRedisProxy
