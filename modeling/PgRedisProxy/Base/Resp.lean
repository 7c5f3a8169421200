import Mathlib.Data.List.Forall2
import PgRedisProxy.Base.Numeral

/-!
# The Redis serialization protocol

`Reply` is what a server sends, and `Reply.encode` its bytes. `readReplies` is how a
client reads them back, and `readReplies_encode` says that it gets the replies that
were sent, whatever bytes are in their bulk strings. `encodeRequest` is a request as
clients send it, an array of bulk strings.
-/

namespace Resp

open CLang (ascii decimal isDigit digitVal digitByte)

/-- The end of a line. -/
def crlf : List UInt8 := [13, 10]

/-- A reply of a server. -/
inductive Reply where
  | simple (text : List UInt8)
  | error (message : List UInt8)
  | int (n : Nat)
  | bulk (content : List UInt8)
  | nil
  deriving DecidableEq

/-- The bytes of a reply. -/
def Reply.encode : Reply → List UInt8
  | .simple text => ascii "+" ++ text ++ crlf
  | .error message => ascii "-ERR " ++ message ++ crlf
  | .int n => ascii ":" ++ decimal n ++ crlf
  | .bulk content => ascii "$" ++ decimal content.length ++ crlf ++ content ++ crlf
  | .nil => ascii "$-1" ++ crlf

/-- A request: its arguments, the command name first. -/
abbrev Request := List (List UInt8)

/-- The bytes of one argument. -/
def encodeArgument (argument : List UInt8) : List UInt8 :=
  ascii "$" ++ decimal argument.length ++ crlf ++ argument ++ crlf

/-- The bytes of a request. -/
def encodeRequest (request : Request) : List UInt8 :=
  ascii "*" ++ decimal request.length ++ crlf ++ request.flatMap encodeArgument

/-! ## Reading replies -/

/-- The line at the beginning, without its end, and what comes after it. -/
def readLine : List UInt8 → Option (List UInt8 × List UInt8)
  | 13 :: 10 :: rest => some ([], rest)
  | c :: rest => (readLine rest).map fun (line, rest) => (c :: line, rest)
  | [] => none

/-- The number with these digits. -/
def readNat (digits : List UInt8) : Option Nat :=
  if digits ≠ [] ∧ digits.all isDigit then
    some (digits.foldl (fun n c => 10 * n + (digitVal c).toNat) 0)
  else none

/-- These are the bytes of an argument, up to leading zeros in its length. -/
def EncodesArgument (argument bytes : List UInt8) : Prop :=
  ∃ digits, readNat digits = some argument.length ∧
    bytes = ascii "$" ++ digits ++ crlf ++ argument ++ crlf

/-- These are the bytes of a request, up to leading zeros in its numbers. -/
def EncodesRequest (request : Request) (bytes : List UInt8) : Prop :=
  ∃ digits parts, readNat digits = some request.length ∧
    List.Forall₂ EncodesArgument request parts ∧
    bytes = ascii "*" ++ digits ++ crlf ++ parts.flatten

/-- The content of a bulk string of `n` bytes, and what comes after its end. -/
def readContent (n : Nat) (bytes : List UInt8) : Option (List UInt8 × List UInt8) :=
  if n ≤ bytes.length ∧ (bytes.drop n).take 2 = crlf then
    some (bytes.take n, bytes.drop (n + 2))
  else none

/-- The reply at the beginning, by its mark, and what comes after it. -/
def readReply : List UInt8 → Option (Reply × List UInt8)
  | 43 :: rest => do
      let (text, rest) ← readLine rest
      some (.simple text, rest)
  | 45 :: 69 :: 82 :: 82 :: 32 :: rest => do
      let (message, rest) ← readLine rest
      some (.error message, rest)
  | 58 :: rest => do
      let (digits, rest) ← readLine rest
      let n ← readNat digits
      some (.int n, rest)
  | 36 :: rest => do
      let (size, rest) ← readLine rest
      if size = ascii "-1" then some (.nil, rest)
      else do
        let n ← readNat size
        let (content, rest) ← readContent n rest
        some (.bulk content, rest)
  | _ => none

/-- At most `n` replies, up to the end of the bytes. -/
def readUpTo : Nat → List UInt8 → Option (List Reply)
  | _, [] => some []
  | 0, _ :: _ => none
  | n + 1, c :: bytes => do
      let (reply, rest) ← readReply (c :: bytes)
      let replies ← readUpTo n rest
      some (reply :: replies)

/-- The replies that some bytes stand for. -/
def readReplies (bytes : List UInt8) : Option (List Reply) :=
  readUpTo bytes.length bytes

/-- A reply whose line can be found again. -/
def Reply.Readable : Reply → Prop
  | .simple text => 13 ∉ text
  | .error message => 13 ∉ message
  | _ => True

theorem readLine_append {line : List UInt8} (hline : 13 ∉ line) (rest : List UInt8) :
    readLine (line ++ crlf ++ rest) = some (line, rest) := by
  induction line with
  | nil => rfl
  | cons c line ih =>
      rw [List.mem_cons, not_or] at hline
      obtain ⟨hc, hline⟩ := hline
      have hne : c ≠ 13 := Ne.symm hc
      rw [List.cons_append, List.cons_append, readLine, ih hline]
      · rfl
      · intro rest' heq
        exact absurd heq hne

/-- The digits of a number are read as the number. -/
theorem foldl_decimal (n : Nat) :
    (decimal n).foldl (fun n c => 10 * n + (digitVal c).toNat) 0 = n := by
  induction n using Nat.strongRecOn with
  | ind n ih =>
      by_cases hsmall : n < 10
      · rw [CLang.decimal_of_lt hsmall]
        simp [CLang.digitVal_digitByte hsmall]
      · have hlast : n % 10 < 10 := Nat.mod_lt n (by omega)
        rw [CLang.decimal_of_le (by omega), List.foldl_append, ih (n / 10) (by omega)]
        simp only [List.foldl_cons, List.foldl_nil, CLang.digitVal_digitByte hlast,
          Int.toNat_natCast]
        omega

theorem decimal_ne_nil (n : Nat) : decimal n ≠ [] := by
  by_cases hsmall : n < 10
  · simp [CLang.decimal_of_lt hsmall]
  · simp [CLang.decimal_of_le (not_lt.mp hsmall)]

/-- Digits are the same number with and without the sign of its type. -/
theorem readNat_eq_readDigits {digits : List UInt8} (hne : digits ≠ [])
    (hdigits : ∀ c ∈ digits, isDigit c = true) :
    ∃ n : Nat, readNat digits = some n ∧ CLang.readDigits 0 digits = n := by
  have hfold : ∀ acc : Nat, CLang.readDigits acc digits =
      (digits.foldl (fun n c => 10 * n + (digitVal c).toNat) acc : Nat) := by
    induction digits with
    | nil => exact fun acc => rfl
    | cons c rest ih =>
        intro acc
        obtain ⟨hval, -⟩ := CLang.digitVal_range (hdigits c List.mem_cons_self)
        have hstep : (acc : Int) * 10 + digitVal c = (10 * acc + (digitVal c).toNat : Nat) := by
          omega
        rw [CLang.readDigits_cons, List.foldl_cons, hstep]
        by_cases hrest : rest = []
        · subst hrest
          rfl
        · exact ih hrest (fun d hd => hdigits d (List.mem_cons_of_mem _ hd)) _
  refine ⟨_, ?_, hfold 0⟩
  rw [readNat, if_pos ⟨hne, List.all_eq_true.mpr hdigits⟩]

theorem readNat_decimal (n : Nat) : readNat (decimal n) = some n := by
  have hdigits : (decimal n).all isDigit = true :=
    List.all_eq_true.mpr fun c hc => CLang.isDigit_of_mem_decimal hc
  rw [readNat, if_pos ⟨decimal_ne_nil n, hdigits⟩, foldl_decimal]

/-- What is read as a number is digits that make it. -/
theorem readDigits_of_readNat {digits : List UInt8} {n : Nat} (hread : readNat digits = some n) :
    digits ≠ [] ∧ (∀ c ∈ digits, isDigit c = true) ∧ CLang.readDigits 0 digits = n := by
  have hdigits : digits ≠ [] ∧ digits.all isDigit = true := by
    unfold readNat at hread
    split at hread
    · assumption
    · cases hread
  obtain ⟨hne, hall⟩ := hdigits
  rw [List.all_eq_true] at hall
  obtain ⟨m, hm, hvalue⟩ := readNat_eq_readDigits hne hall
  obtain rfl : m = n := Option.some.inj (hm.symm.trans hread)
  exact ⟨hne, hall, hvalue⟩

theorem encodesArgument_encode (argument : List UInt8) :
    EncodesArgument argument (encodeArgument argument) :=
  ⟨_, readNat_decimal _, rfl⟩

/-- The arguments of a request as clients write them. -/
theorem forall₂_encodeArgument (request : Request) :
    List.Forall₂ EncodesArgument request (request.map encodeArgument) :=
  List.forall₂_map_right_iff.mpr (List.forall₂_same.mpr fun argument _ =>
    encodesArgument_encode argument)

theorem cr_notMem_decimal (n : Nat) : 13 ∉ decimal n := by
  intro hmem
  exact absurd (CLang.isDigit_of_mem_decimal hmem) (by decide)

theorem readContent_append (content rest : List UInt8) :
    readContent content.length (content ++ crlf ++ rest) = some (content, rest) := by
  have hdrop : (content ++ crlf ++ rest).drop (content.length + 2) = rest := by
    rw [← List.drop_drop, List.append_assoc, List.drop_left]
    rfl
  have hend : ((content ++ crlf ++ rest).drop content.length).take 2 = crlf := by
    rw [List.append_assoc, List.drop_left]
    rfl
  have hle : content.length ≤ (content ++ crlf ++ rest).length := by
    simp only [List.length_append]
    omega
  rw [readContent, if_pos ⟨hle, hend⟩, hdrop, List.append_assoc, List.take_left]

/-- A reply is read back, whatever comes after it. -/
theorem readReply_encode {reply : Reply} (hreply : reply.Readable) (rest : List UInt8) :
    readReply (reply.encode ++ rest) = some (reply, rest) := by
  cases reply with
  | simple text =>
      have hline := readLine_append hreply rest
      show (readLine (text ++ crlf ++ rest)).bind _ = _
      rw [hline]
      rfl
  | error message =>
      have hline := readLine_append hreply rest
      show (readLine (message ++ crlf ++ rest)).bind _ = _
      rw [hline]
      rfl
  | int n =>
      have hline := readLine_append (cr_notMem_decimal n) rest
      show (readLine (decimal n ++ crlf ++ rest)).bind _ = _
      rw [hline, Option.bind_some]
      show (readNat (decimal n)).bind _ = _
      rw [readNat_decimal]
      rfl
  | bulk content =>
      have hline := readLine_append (cr_notMem_decimal content.length) (content ++ crlf ++ rest)
      have hsize : decimal content.length ≠ ascii "-1" := by
        intro heq
        have hminus : (45 : UInt8) ∈ decimal content.length := by
          rw [heq]
          decide
        exact absurd (CLang.isDigit_of_mem_decimal hminus) (by decide)
      have hbytes : (Reply.bulk content).encode ++ rest =
          36 :: (decimal content.length ++ crlf ++ (content ++ crlf ++ rest)) := by
        simp [Reply.encode, ascii]
      rw [hbytes]
      show (readLine (decimal content.length ++ crlf ++ (content ++ crlf ++ rest))).bind _ = _
      rw [hline, Option.bind_some]
      show (if decimal content.length = ascii "-1" then _ else _) = _
      rw [if_neg hsize, readNat_decimal]
      show (readContent content.length (content ++ crlf ++ rest)).bind _ = _
      rw [readContent_append]
      rfl
  | nil => rfl

theorem Reply.encode_ne_nil (reply : Reply) : reply.encode ≠ [] := by
  cases reply with
  | simple text => simp [encode, ascii]
  | error message => simp [encode, ascii]
  | int n => simp [encode, ascii]
  | bulk content => simp [encode, ascii]
  | nil => simp [encode, ascii]

/-- Replies are read back one after the other. -/
theorem readUpTo_encode {replies : List Reply} (hreplies : ∀ reply ∈ replies, reply.Readable)
    {n : Nat} (hn : (replies.flatMap Reply.encode).length ≤ n) :
    readUpTo n (replies.flatMap Reply.encode) = some replies := by
  induction replies generalizing n with
  | nil =>
      cases n with
      | zero => rfl
      | succ n => rfl
  | cons reply replies ih =>
      have hread := readReply_encode (hreplies reply List.mem_cons_self)
        (replies.flatMap Reply.encode)
      have hpos := List.length_pos_of_ne_nil reply.encode_ne_nil
      rw [List.flatMap_cons, List.length_append] at hn
      rw [List.flatMap_cons]
      obtain ⟨c, bytes, hbytes⟩ := List.exists_cons_of_ne_nil
        (List.append_ne_nil_of_left_ne_nil reply.encode_ne_nil (replies.flatMap Reply.encode))
      cases n with
      | zero => omega
      | succ n =>
          have hrest := ih (fun r hr => hreplies r (List.mem_cons_of_mem reply hr))
            (n := n) (by omega)
          rw [hbytes] at hread ⊢
          simp only [readUpTo, hread, Option.bind_eq_bind, Option.bind_some, hrest]

/-- A client reads the replies that were sent. -/
theorem readReplies_encode {replies : List Reply} (hreplies : ∀ reply ∈ replies, reply.Readable) :
    readReplies (replies.flatMap Reply.encode) = some replies :=
  readUpTo_encode hreplies (le_refl _)

end Resp
