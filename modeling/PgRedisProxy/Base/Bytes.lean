import Mathlib.Data.List.Basic
import Mathlib.Tactic.IntervalCases

/-!
# Byte strings and integers of C programs

Bytes are `UInt8`. `CString` is the content of a NUL-terminated string, so the
terminator is not part of it and no byte of it is zero. `decimal` is what `%d`
prints for a natural number, and `wrap32` is the value a 32-bit `int` keeps of
an integer.
-/

namespace CLang

/-- The bytes of an ASCII text. -/
def ascii (text : String) : List UInt8 :=
  text.toList.map fun c => c.toNat.toUInt8

/-- The byte of a decimal digit. -/
def digitByte (d : Nat) : UInt8 :=
  (48 + d).toUInt8

/-- The decimal representation of a natural number, most significant digit first. -/
def decimal (n : Nat) : List UInt8 :=
  (Nat.toDigits 10 n).map fun c => c.toNat.toUInt8

/-- `'0' <= c && c <= '9'` -/
def isDigit (c : UInt8) : Bool :=
  48 ≤ c && c ≤ 57

/-- `c - '0'` for a digit `c`. -/
def digitVal (c : UInt8) : Int :=
  (c.toNat : Int) - 48

theorem digitChar_byte {d : Nat} (h : d < 10) :
    (Nat.digitChar d).toNat.toUInt8 = digitByte d := by
  interval_cases d <;> rfl

@[simp] theorem isDigit_digitByte {d : Nat} (h : d < 10) : isDigit (digitByte d) = true := by
  interval_cases d <;> rfl

@[simp] theorem digitVal_digitByte {d : Nat} (h : d < 10) : digitVal (digitByte d) = d := by
  interval_cases d <;> rfl

/-- A number below ten prints as its digit. -/
theorem decimal_of_lt {n : Nat} (h : n < 10) : decimal n = [digitByte n] := by
  simp [decimal, Nat.toDigits_of_lt_base h, digitChar_byte h]

/-- A number from ten on prints as its tenth followed by its last digit. -/
theorem decimal_of_le {n : Nat} (h : 10 ≤ n) :
    decimal n = decimal (n / 10) ++ [digitByte (n % 10)] := by
  have hlast : n % 10 < 10 := Nat.mod_lt n (by decide)
  simp [decimal, Nat.toDigits_of_base_le (by decide : 1 < 10) h, digitChar_byte hlast]

/-- A number prints as digits. -/
theorem isDigit_of_mem_decimal {n : Nat} {c : UInt8} (hc : c ∈ decimal n) : isDigit c = true := by
  induction n using Nat.strongRecOn with
  | ind n ih =>
      by_cases hsmall : n < 10
      · rw [decimal_of_lt hsmall, List.mem_singleton] at hc
        rw [hc, isDigit_digitByte hsmall]
      · rw [decimal_of_le (by omega), List.mem_append, List.mem_singleton] at hc
        rcases hc with hc | hc
        · exact ih (n / 10) (by omega) hc
        · rw [hc, isDigit_digitByte (Nat.mod_lt n (by omega))]

/-- A number below `10 ^ k` prints as at most `k` digits. -/
theorem length_decimal_le {n k : Nat} (h : n < 10 ^ (k + 1)) : (decimal n).length ≤ k + 1 := by
  induction k generalizing n with
  | zero => simp [decimal_of_lt h]
  | succ k ih =>
      by_cases hsmall : n < 10
      · simp [decimal_of_lt hsmall]
      · rw [decimal_of_le (by omega), List.length_append, List.length_singleton]
        have htenth : n / 10 < 10 ^ (k + 1) := Nat.div_lt_of_lt_mul (by rwa [← pow_succ'])
        have hle := ih htenth
        omega

/-- Two's-complement reduction to a 32-bit `int`. -/
def wrap32 (n : Int) : Int :=
  n.bmod (2 ^ 32)

theorem wrap32_of_range {n : Int} (hlo : -(2 ^ 31) ≤ n) (hhi : n < 2 ^ 31) : wrap32 n = n := by
  unfold wrap32
  rw [Int.bmod_eq_of_le] <;> omega

theorem wrap32_lt (n : Int) : wrap32 n < 2 ^ 31 := by
  have := Int.bmod_lt (x := n) (m := 2 ^ 32) (by decide)
  unfold wrap32
  omega

/-- The sum of two sizes that is no `int` is negative. -/
theorem wrap32_neg {n : Int} (hlo : 2 ^ 31 ≤ n) (hhi : n < 2 ^ 32) : wrap32 n < 0 := by
  have hmod : n % ((2 ^ 32 : Nat) : Int) = n := Int.emod_eq_of_lt (by omega) (by omega)
  unfold wrap32
  rw [Int.bmod_eq_emod, hmod, if_pos (by omega)]
  omega

/-- The content of a NUL-terminated string. -/
@[ext]
structure CString where
  bytes : List UInt8
  noNul : 0 ∉ bytes
  deriving DecidableEq

namespace CString

/-- The empty string. -/
def empty : CString := ⟨[], by simp⟩

instance : Inhabited CString := ⟨empty⟩

/-- `strlen` -/
def strlen (s : CString) : Nat :=
  s.bytes.length

/-- The bytes of the string's buffer, terminator included. -/
def buffer (s : CString) : List UInt8 :=
  s.bytes ++ [0]

@[simp] theorem bytes_empty : empty.bytes = [] := rfl

@[simp] theorem strlen_empty : empty.strlen = 0 := rfl

@[simp] theorem length_buffer (s : CString) : s.buffer.length = s.strlen + 1 := by
  simp [buffer, strlen]

end CString

end CLang
