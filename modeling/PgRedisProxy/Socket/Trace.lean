import PgRedisProxy.Base.Path
import PgRedisProxy.Socket.Feeding

/-!
# The path of the parser

`Feeding` says which bytes are examined as long as no read follows an `ERR`. Here no
run is left out: whatever is received, and also after an `ERR`, the bytes examined on a
connection are a path of the parser from the state it was accepted in, the requests
delivered are those completed on the path, and only the last byte can be one that makes
a forbidden access. `Conn.Accepted.walk` is the main result.
-/

namespace PgRedisProxy

open CLang Machine

variable {α L H : Type*} (val : α → UInt8) (h : Handler L H)

/-- The state in which the byte after this one is examined, if there is one: after a complete
request the parser is reset, after an `ERR` it is not. -/
def afterByte (s : ParseState) (b : α) : Option ParseState :=
  match feed s (val b) with
  | .next s' => some s'
  | .err s' => some s'
  | .all s' => some (resetRequest s')
  | .fault => none

/-- The request that this byte completes. -/
def completes (pair : ParseState × α) : Option Delivery :=
  match feed pair.1 (val pair.2) with
  | .all s' => some s'.delivery
  | .next _ => none
  | .err _ => none
  | .fault => none

section AfterByte

variable {val} {s s' : ParseState} {b : α}

theorem afterByte_next (hfeed : feed s (val b) = .next s') : afterByte val s b = some s' := by
  simp only [afterByte, hfeed]

theorem afterByte_err (hfeed : feed s (val b) = .err s') : afterByte val s b = some s' := by
  simp only [afterByte, hfeed]

theorem afterByte_all (hfeed : feed s (val b) = .all s') :
    afterByte val s b = some (resetRequest s') := by
  simp only [afterByte, hfeed]

/-- The parser has no next state exactly after a forbidden access. -/
theorem afterByte_eq_none : afterByte val s b = none ↔ feed s (val b) = .fault := by
  cases hfeed : feed s (val b) <;> simp [afterByte, hfeed]

end AfterByte

/-- The state in which the byte after a pass is examined. -/
def Pass.next (pass : Pass α) : ParseState :=
  if pass.ending = .all then resetRequest pass.parse else pass.parse

/-- One call of `parse_cli_mes` is a walk of the parser on which at most its last byte completes a
request. -/
theorem parseLoop_walk (curBufferSize : Nat) (s : ParseState) (index : Nat) (buffer : List α) :
    let pass := parseLoop val curBufferSize s index buffer
    Walk (afterByte val) s pass.examined pass.next ∧
      (pass.ending ≠ .fault → Path (afterByte val) s pass.examined pass.next) ∧
      pass.examined.filterMap (completes val) =
        if pass.ending = .all then [pass.parse.delivery] else [] := by
  induction buffer generalizing s index with
  | nil => exact ⟨.inl (.nil s), fun _ => .nil s, rfl⟩
  | cons b buffer ih =>
      simp only [parseLoop]
      cases hfeed : feed s (val b) with
      | fault =>
          have hnone := afterByte_eq_none.mpr hfeed
          refine ⟨.inr ⟨[], b, rfl, .nil s, hnone⟩, fun hne => absurd rfl hne, ?_⟩
          simp [completes, hfeed]
      | err s' =>
          have hpath := Path.single (afterByte_err hfeed)
          exact ⟨.inl hpath, fun _ => hpath, by simp [completes, hfeed]⟩
      | all s' =>
          have hpath := Path.single (afterByte_all hfeed)
          exact ⟨.inl hpath, fun _ => hpath, by simp [completes, hfeed]⟩
      | next s' =>
          have hpath := Path.single (afterByte_next hfeed)
          by_cases hend : index + 1 ≥ curBufferSize
          · simp only [hend, if_true]
            exact ⟨.inl hpath, fun _ => hpath, by simp [completes, hfeed]⟩
          · obtain ⟨hwalk, hrest, hcompleted⟩ := ih s' (index + 1)
            simp only [hend, if_false]
            refine ⟨hpath.append_walk hwalk, fun hne => hpath.append (hrest hne), ?_⟩
            simpa [completes, hfeed] using hcompleted

/-- The state in which the next byte of the connection is examined. -/
def TsocketReadData.next (d : TsocketReadData α) : ParseState :=
  if d.exitStatus = .all then resetRequest d.parse else d.parse

/-- The same, with what the call leaves behind. -/
theorem parseCliMes_walk (d : TsocketReadData α) (hd : d.exitStatus ≠ .all) :
    Walk (afterByte val) d.parse (parseCliMes val d).2.examined (parseCliMes val d).1.next ∧
      ((parseCliMes val d).2.ending ≠ .fault →
        Path (afterByte val) d.parse (parseCliMes val d).2.examined (parseCliMes val d).1.next) ∧
      ((parseCliMes val d).2.ending = .fault → (parseCliMes val d).1.exitStatus ≠ .all) ∧
      ((parseCliMes val d).1.exitStatus = .all →
        (parseCliMes val d).2.examined.filterMap (completes val) =
          [(parseCliMes val d).1.parse.delivery]) ∧
      ((parseCliMes val d).1.exitStatus ≠ .all →
        (parseCliMes val d).2.examined.filterMap (completes val) = []) := by
  have hpass := parseLoop_walk val d.curBufferSize d.parse 0 d.readBuffer
  simp only [parseCliMes]
  generalize parseLoop val d.curBufferSize d.parse 0 d.readBuffer = pass at hpass ⊢
  obtain ⟨parse, ending, examined⟩ := pass
  cases ending with
  | err | notAll | all => simpa [TsocketReadData.next, Pass.next, replacePartOfBuffer] using hpass
  | fault => simpa [TsocketReadData.next, Pass.next, hd] using hpass

/-! ## Runs -/

/-- The connection goes from `c` to `c'` along a path of the parser, or along a walk where the run
ends with a forbidden access. -/
def Conn.Advances (c : Conn α H) (exit : Exit) (c' : Conn α H) : Prop :=
  ∃ new, c'.examined = c.examined ++ new ∧
    c'.delivered = c.delivered ++ new.filterMap (completes val) ∧
    Walk (afterByte val) c.session.current new c'.session.current ∧
    (exit ≠ .fault → Path (afterByte val) c.session.current new c'.session.current)

section Advances

variable {val} {c c' c₁ : Conn α H} {exit exit₁ : Exit}

theorem Conn.Advances.refl (c : Conn α H) (exit : Exit) : c.Advances val exit c :=
  ⟨[], by simp, by simp, .inl (.nil _), fun _ => .nil _⟩

/-- Nothing but the parser, the bytes examined and the requests delivered counts. -/
theorem Conn.Advances.of_eq (hcurrent : c₁.session.current = c.session.current)
    (hexamined : c₁.examined = c.examined) (hdelivered : c₁.delivered = c.delivered)
    (hadvances : c₁.Advances val exit c') : c.Advances val exit c' := by
  obtain ⟨new, hnew, hnewDelivered, hwalk, hpath⟩ := hadvances
  rw [hcurrent] at hwalk hpath
  exact ⟨new, hexamined ▸ hnew, hdelivered ▸ hnewDelivered, hwalk, hpath⟩

theorem Conn.Advances.trans (hfirst : c.Advances val exit₁ c₁) (hexit : exit₁ ≠ .fault)
    (hsecond : c₁.Advances val exit c') : c.Advances val exit c' := by
  obtain ⟨new₁, hnew₁, hdelivered₁, -, hpath₁⟩ := hfirst
  obtain ⟨new, hnew, hdelivered, hwalk, hpath⟩ := hsecond
  refine ⟨new₁ ++ new, ?_, ?_, (hpath₁ hexit).append_walk hwalk,
    fun hne => (hpath₁ hexit).append (hpath hne)⟩
  · rw [hnew, hnew₁, List.append_assoc]
  · rw [hdelivered, hdelivered₁, List.filterMap_append, List.append_assoc]

end Advances

/-- What is done before a pass leaves the parser in the state in which the next byte is examined. -/
theorem resetIfAll_parse (c : Conn α H) :
    (resetIfAll c.readData).parse = c.session.current ∧
      (resetIfAll c.readData).exitStatus ≠ .all := by
  by_cases hall : c.readData.exitStatus = .all <;>
    simp [resetIfAll, Session.current, Conn.session, hall]

/-- The loop of a read event. -/
theorem readLoop_advances (fuel : Nat) (l : L) (c : Conn α H) :
    c.Advances val (readLoop val h fuel l c).1 (readLoop val h fuel l c).2 := by
  induction fuel generalizing l c with
  | zero => exact .refl c _
  | succ fuel ih =>
      obtain ⟨hparse, hnotAll⟩ := resetIfAll_parse c
      have hpass := parseCliMes_walk val (resetIfAll c.readData) hnotAll
      rw [hparse] at hpass
      simp only [readLoop]
      generalize parseCliMes val (resetIfAll c.readData) = result at hpass
      obtain ⟨d, pass⟩ := result
      obtain ⟨hwalk, hpath, hnone, hall, hother⟩ := hpass
      by_cases hfault : pass.ending = .fault
      · rw [if_pos hfault]
        exact ⟨pass.examined, rfl, by simp [hother (hnone hfault)], hwalk,
          fun hne => absurd rfl hne⟩
      · have hpath := hpath hfault
        rw [if_neg hfault]
        by_cases hexit : d.exitStatus = .all
        · have hcompleted := hall hexit
          -- the request is delivered before it is handled
          have hturn : ∀ (exit : Exit) (host : H), c.Advances val exit
              ⟨d, host, c.examined ++ pass.examined, c.delivered ++ [d.parse.delivery]⟩ :=
            fun exit host => ⟨pass.examined, rfl, by rw [hcompleted], hwalk, fun _ => hpath⟩
          rw [if_neg (not_not.mpr hexit)]
          cases h.serve l c.host d.parse.delivery with
          | none => exact hturn _ _
          | some next =>
              simp only
              split
              · exact (hturn .finished next.2).trans (by simp) (ih next.1 _)
              · exact hturn _ _
        · rw [if_pos hexit]
          exact ⟨pass.examined, rfl, by simp [hother hexit], hwalk, fun _ => hpath⟩

/-- A read event. -/
theorem onReadCb_advances (c : Conn α H) (bytes : List α) :
    c.Advances val (onReadCb val h c bytes).1 (onReadCb val h c bytes).2 := by
  simp only [onReadCb]
  split
  · exact .refl c _
  · exact .of_eq rfl rfl rfl (readLoop_advances val h _ _ _)

/-- Any run of read events. -/
theorem readEvents_advances (c : Conn α H) (events : List (List α)) :
    c.Advances val (readEvents val h c events).1 (readEvents val h c events).2 := by
  induction events generalizing c with
  | nil => exact .refl c _
  | cons bytes events ih =>
      have hread := onReadCb_advances val h c bytes
      rw [readEvents]
      cases hresult : onReadCb val h c bytes with
      | mk exit c₁ =>
          rw [hresult] at hread
          cases exit with
          | finished => exact hread.trans (by simp) (ih c₁)
          | closed | stopped | fault => exact hread

/-- Everything a connection has examined since it was accepted is a walk of the parser, a path
unless the run ended with a forbidden access, and the requests delivered are those completed on
it. -/
theorem Conn.Accepted.walk {c : Conn α H} (hc : c.Accepted) (events : List (List α)) :
    Walk (afterByte val) c.readData.parse (readEvents val h c events).2.examined
        (readEvents val h c events).2.session.current ∧
      ((readEvents val h c events).1 ≠ .fault →
        Path (afterByte val) c.readData.parse (readEvents val h c events).2.examined
          (readEvents val h c events).2.session.current) ∧
      (readEvents val h c events).2.delivered =
        (readEvents val h c events).2.examined.filterMap (completes val) := by
  obtain ⟨new, hexamined, hdelivered, hwalk, hpath⟩ :=
    readEvents_advances val h c events
  rw [hc.examined_eq, List.nil_append] at hexamined
  rw [hc.delivered_eq, List.nil_append] at hdelivered
  rw [hc.current_eq, ← hexamined] at hwalk hpath
  exact ⟨hwalk, hpath, by rw [hdelivered, hexamined]⟩

end PgRedisProxy
