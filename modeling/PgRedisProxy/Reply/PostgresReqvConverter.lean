import PgRedisProxy.Base.Block
import PgRedisProxy.Base.Resp

/-!
# From results to Redis replies (`postgres_reqv_converter`)

The first byte of a result says what kind of reply it becomes, and the rest is its
content. `Answer.of` is the result that stands for a reply, and
`defineTypeReq_answer` says that it is turned into the bytes of that reply.
-/

namespace PgRedisProxy

open CLang Resp

/-- A `char*` and the size that goes with it, as the two locals of `on_read_cb` hold them. -/
structure Answer where
  buffer : Option Block
  size : Int

/-- The locals at the beginning of `on_read_cb`. -/
def Answer.null : Answer :=
  ⟨none, 0⟩

/-- The common part of `CreateSimplStr` and `CreateInt`: a mark, the content, and the end of the
line. -/
def createLine (mark : UInt8) (reqv : Block) (sizeReqvData : Int) : Option (Int × Answer) :=
  let countShellSym := 3
  let sizeAnswer := sizeReqvData + countShellSym
  match Block.malloc sizeAnswer with
  | none => some (-1, ⟨none, sizeAnswer⟩)
  | some answer => do
      let answer ← answer.write? 0 (Block.ofBytes [mark])
      let answer ← Block.copy? answer 1 reqv 1 sizeReqvData
      let answer ← answer.write? (sizeAnswer - 2).toNat (Block.ofBytes crlf)
      some (0, ⟨some answer, sizeAnswer⟩)

/-- `CreateSimplStr` -/
def createSimplStr (reqv : Block) (sizeReqv : Int) : Option (Int × Answer) :=
  createLine 43 reqv (sizeReqv - 2)

/-- `CreateInt` -/
def createInt (reqv : Block) (sizeReqv : Int) : Option (Int × Answer) :=
  createLine 58 reqv (sizeReqv - 1)

/-- `CreateStr`. A result without content becomes the missing bulk string. -/
def createStr (reqv : Block) (sizeReqv : Int) : Option (Int × Answer) :=
  let sizeReqvData := if sizeReqv = 1 then 0 else sizeReqv - 2
  let size := if sizeReqvData = 0 then ascii "-1" else decimal sizeReqvData.toNat
  let countWriteSym := size.length
  let countShellSym : Int :=
    if sizeReqvData = 0 then 1 + countWriteSym + 2 else 1 + countWriteSym + 2 + 2
  let sizeAnswer := sizeReqvData + countShellSym
  match Block.malloc sizeAnswer with
  | none => some (-1, ⟨none, sizeAnswer⟩)
  | some answer => do
      let answer ← answer.write? 0 (Block.ofBytes [36])
      let answer ← answer.write? 1 (Block.ofBytes size)
      let answer ← answer.write? (1 + countWriteSym) (Block.ofBytes [13])
      let answer ← answer.write? (1 + countWriteSym + 1) (Block.ofBytes [10])
      if sizeReqvData ≠ 0 then
        let answer ← Block.copy? answer (1 + countWriteSym + 2) reqv 1 sizeReqvData
        let answer ← answer.write? (sizeAnswer - 2).toNat (Block.ofBytes crlf)
        some (0, ⟨some answer, sizeAnswer⟩)
      else some (0, ⟨some answer, sizeAnswer⟩)

/-- `CreateErr`. The copy of the message takes one byte too many, which the end of the line
overwrites. -/
def createErr (reqv : Block) (sizeReqv : Int) : Option (Int × Answer) :=
  let sizeAnswer := 5 + sizeReqv + 2 - 1
  match Block.malloc sizeAnswer with
  | none => some (-1, ⟨none, sizeAnswer⟩)
  | some answer => do
      let answer ← answer.write? 0 (Block.ofBytes (ascii "-ERR "))
      let answer ← Block.copy? answer 5 reqv 1 sizeReqv
      let answer ← answer.write? (sizeAnswer - 2).toNat (Block.ofBytes crlf)
      some (0, ⟨some answer, sizeAnswer⟩)

/-- `define_type_req`: the return code and `rd_answer`. Without a result, reading its first byte
goes through a null pointer. -/
def defineTypeReq (pgAnswer rdAnswer : Answer) : Option (Int × Answer) := do
  let reqv ← pgAnswer.buffer
  let code ← reqv.head?
  if code = some 0 then createSimplStr reqv pgAnswer.size
  else if code = some 1 then createErr reqv pgAnswer.size
  else if code = some 2 then createInt reqv pgAnswer.size
  else if code = some 3 then createStr reqv pgAnswer.size
  else some (-1, rdAnswer)

/-- The result that stands for a reply. `rest` is what follows an error message in its buffer. -/
def Answer.of (rest : Block) : Reply → Answer
  | .simple text => ⟨some (Block.ofBytes (0 :: text ++ [0])), text.length + 2⟩
  | .error message => ⟨some (Block.ofBytes (1 :: message) ++ rest), message.length + 1⟩
  | .int n => ⟨some (Block.ofBytes (2 :: decimal n)), (decimal n).length + 1⟩
  | .bulk content => ⟨some (Block.ofBytes (3 :: content ++ [0])), content.length + 2⟩
  | .nil => ⟨some (Block.ofBytes [3]), 1⟩

/-- A buffer that holds exactly these bytes. -/
def Answer.bytes (bytes : List UInt8) : Answer :=
  ⟨some (Block.ofBytes bytes), bytes.length⟩

/-! ## What each conversion writes -/

theorem createLine_eq (mark code : UInt8) (data : List UInt8) (rest : Block) :
    createLine mark (Block.ofBytes [code] ++ (Block.ofBytes data ++ rest)) data.length =
      some (0, .bytes ([mark] ++ data ++ crlf)) := by
  have hsize : (data.length : Int) + 3 = (data.length + 3 : Nat) := by omega
  have hread := Block.read_ofBytes [code] data rest rfl
  obtain ⟨b₀, hmalloc, hb₀⟩ := Block.holds_malloc hsize
  obtain ⟨b₁, hmark, hb₁⟩ := hb₀.write 0 [mark] rfl (by simp)
  obtain ⟨b₂, hdata, hb₂⟩ := hb₁.write 1 data rfl (by simp)
  obtain ⟨b₃, hend, hb₃⟩ := hb₂.write ((data.length : Int) + 3 - 2).toNat crlf (by simp; omega)
    (by simp [crlf])
  have hb : b₃ = Block.ofBytes ([mark] ++ data ++ crlf) := by
    apply Block.Holds.eq_ofBytes
    simpa [crlf] using hb₃
  have hcopy : Block.copy? b₁ 1 (Block.ofBytes [code] ++ (Block.ofBytes data ++ rest)) 1
      data.length = some b₂ := by
    rw [Block.copy?, if_neg (by omega), Int.toNat_natCast, show 1 = [code].length from rfl, hread]
    exact hdata
  simp only [createLine, hmalloc, Option.bind_eq_bind, hmark, Option.bind_some, hcopy, hend, hb]
  simp [Answer.bytes, crlf]
  omega

/-- A present bulk string. -/
theorem createStr_bulk {content : List UInt8} (hne : content ≠ []) (rest : Block) :
    createStr (Block.ofBytes [3] ++ (Block.ofBytes content ++ rest)) (content.length + 2) =
      some (0, .bytes (Reply.bulk content).encode) := by
  have hpos : 0 < content.length := List.length_pos_of_ne_nil hne
  set size := decimal content.length with hsize
  have hdata : (if (content.length : Int) + 2 = 1 then 0 else (content.length : Int) + 2 - 2) =
      content.length := by
    rw [if_neg (by omega)]
    omega
  have hread := Block.read_ofBytes [3] content rest rfl
  have hroom : (content.length : Int) + (1 + size.length + 2 + 2) =
      (content.length + size.length + 5 : Nat) := by omega
  obtain ⟨b₀, hmalloc, hb₀⟩ := Block.holds_malloc hroom
  obtain ⟨b₁, hmark, hb₁⟩ := hb₀.write 0 [36] rfl (by simp)
  obtain ⟨b₂, hwrite, hb₂⟩ := hb₁.write 1 size rfl (by simp; omega)
  obtain ⟨b₃, hcr, hb₃⟩ := hb₂.write (1 + size.length) [13] (by simp; omega) (by simp; omega)
  obtain ⟨b₄, hlf, hb₄⟩ := hb₃.write (1 + size.length + 1) [10] (by simp; omega) (by simp; omega)
  obtain ⟨b₅, hcontent, hb₅⟩ := hb₄.write (1 + size.length + 2) content (by simp; omega)
    (by simp; omega)
  obtain ⟨b₆, hend, hb₆⟩ := hb₅.write
    ((content.length : Int) + (1 + size.length + 2 + 2) - 2).toNat crlf (by simp; omega)
    (by simp [crlf]; omega)
  have hb : b₆ = Block.ofBytes (Reply.bulk content).encode := by
    apply Block.Holds.eq_ofBytes
    have hfull : content.length + size.length + 4 - size.length - 1 - 1 - content.length - 2 =
        0 := by omega
    simpa [crlf, Reply.encode, ascii, ← hsize, hfull] using hb₆
  have hcopy : Block.copy? b₄ (1 + size.length + 2)
      (Block.ofBytes [3] ++ (Block.ofBytes content ++ rest)) 1 content.length = some b₅ := by
    rw [Block.copy?, if_neg (by omega), Int.toNat_natCast, show 1 = [(3 : UInt8)].length from rfl,
      hread]
    exact hcontent
  have hnonzero : ¬ (content.length : Int) = 0 := by omega
  simp only [createStr, hdata, hnonzero, if_false, Int.toNat_natCast, ← hsize, hmalloc,
    Option.bind_eq_bind, hmark, Option.bind_some, hwrite, hcr, hlf, ne_eq, not_false_eq_true,
    if_true, hcopy, hend, hb]
  simp [Answer.bytes, Reply.encode, crlf, ascii, ← hsize]
  omega

/-- The missing bulk string. -/
theorem createStr_nil : createStr (Block.ofBytes [3]) 1 = some (0, .bytes Reply.nil.encode) := rfl

theorem createErr_eq (message : List UInt8) (rest : Block) :
    createErr (Block.ofBytes [1] ++ (Block.ofBytes message ++ rest)) (message.length + 1) =
      some (0, .bytes (Reply.error message).encode) := by
  have hsize : 5 + ((message.length : Int) + 1) + 2 - 1 = (message.length + 7 : Nat) := by omega
  obtain ⟨b₀, hmalloc, hb₀⟩ := Block.holds_malloc hsize
  obtain ⟨b₁, hmark, hb₁⟩ := hb₀.write 0 (ascii "-ERR ") rfl (by simp [ascii])
  -- one byte past the message is copied along, whatever it is
  obtain ⟨c, hread⟩ : ∃ c, Block.read (Block.ofBytes [1] ++ (Block.ofBytes message ++ rest)) 1
      (message.length + 1) = Block.ofBytes message ++ [c] := by
    have hlen : (Block.ofBytes message).length = message.length := Block.length_ofBytes message
    refine ⟨(rest ++ Block.alloc (message.length + 1)).headD none, ?_⟩
    have hsplit : Block.read (Block.ofBytes [1] ++ (Block.ofBytes message ++ rest)) 1
        (message.length + 1) =
        (Block.ofBytes message ++ (rest ++ Block.alloc (message.length + 1))).take
          (message.length + 1) := by
      simp [Block.read]
    rw [hsplit, List.take_append, List.take_of_length_le (by omega), hlen,
      Nat.add_sub_cancel_left]
    cases rest with
    | nil => simp [Block.alloc, List.replicate_succ]
    | cons c rest => simp
  obtain ⟨b₂, hmessage, hb₂⟩ := hb₁.write_append 5 message [c] rfl (by simp [ascii])
  obtain ⟨b₃, hend, hb₃⟩ := hb₂.write (5 + ((message.length : Int) + 1) + 2 - 1 - 2).toNat crlf
    (by simp [ascii]; omega) (by simp [crlf, ascii])
  have hb : b₃ = Block.ofBytes (Reply.error message).encode := by
    apply Block.Holds.eq_ofBytes
    simpa [crlf, Reply.encode, ascii] using hb₃
  have hcopy : Block.copy? b₁ 5 (Block.ofBytes [1] ++ (Block.ofBytes message ++ rest)) 1
      ((message.length : Int) + 1) = some b₂ := by
    rw [Block.copy?, if_neg (by omega), show ((message.length : Int) + 1).toNat =
      message.length + 1 by omega, hread]
    exact hmessage
  simp only [createErr, hmalloc, Option.bind_eq_bind, hmark, Option.bind_some, hcopy, hend, hb]
  simp [Answer.bytes, Reply.encode, crlf, ascii]
  omega

/-- The reply a client gets: an empty bulk string is sent as the missing one. -/
def shown : Reply → Reply
  | .bulk [] => .nil
  | reply => reply

/-- The result that stands for a reply is turned into the bytes of the reply. -/
theorem defineTypeReq_of (rest : Block) (reply : Reply) (rdAnswer : Answer) :
    defineTypeReq (.of rest reply) rdAnswer = some (0, .bytes (shown reply).encode) := by
  cases reply with
  | simple text =>
      have hline := createLine_eq 43 0 text (Block.ofBytes [0])
      simpa [defineTypeReq, Answer.of, createSimplStr, shown, Reply.encode, ascii] using hline
  | error message =>
      have herr := createErr_eq message rest
      simpa [defineTypeReq, Answer.of, shown] using herr
  | int n =>
      have hline := createLine_eq 58 2 (decimal n) []
      simpa [defineTypeReq, Answer.of, createInt, shown, Reply.encode, ascii] using hline
  | bulk content =>
      cases content with
      | nil =>
          have hnil : createStr (Block.ofBytes [3, 0]) 2 = some (0, .bytes Reply.nil.encode) := rfl
          simpa [defineTypeReq, Answer.of, shown] using hnil
      | cons c content =>
          have hbulk := createStr_bulk (List.cons_ne_nil c content) (Block.ofBytes [0])
          simpa [defineTypeReq, Answer.of, shown] using hbulk
  | nil =>
      have hnil := createStr_nil
      simpa [defineTypeReq, Answer.of, shown] using hnil

end PgRedisProxy
