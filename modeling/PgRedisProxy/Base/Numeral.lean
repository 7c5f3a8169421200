import PgRedisProxy.Base.Bytes

/-!
# Written numbers

`readDigits` is the integer that digits make, of any number of them and without the
bounds of a machine integer. A `Numeral` is a number as it is written: an optional
minus sign and at least one digit.
-/

namespace CLang

/-- An integer that a 32-bit `int` holds. -/
def InInt (n : Int) : Prop :=
  -(2 ^ 31) ≤ n ∧ n < 2 ^ 31

instance (n : Int) : Decidable (InInt n) :=
  inferInstanceAs (Decidable (_ ∧ _))

/-- The number that digits make behind those that made `acc`. -/
def readDigits (acc : Int) (digits : List UInt8) : Int :=
  digits.foldl (fun n c => n * 10 + digitVal c) acc

@[simp] theorem readDigits_nil (acc : Int) : readDigits acc [] = acc := rfl

@[simp] theorem readDigits_cons (acc : Int) (c : UInt8) (digits : List UInt8) :
    readDigits acc (c :: digits) = readDigits (acc * 10 + digitVal c) digits := rfl

theorem readDigits_append (acc : Int) (first second : List UInt8) :
    readDigits acc (first ++ second) = readDigits (readDigits acc first) second :=
  List.foldl_append

/-- A digit is worth at most nine. -/
theorem digitVal_range {c : UInt8} (h : isDigit c = true) : 0 ≤ digitVal c ∧ digitVal c ≤ 9 := by
  simp only [isDigit, Bool.and_eq_true, decide_eq_true_eq] at h
  have hlo : 48 ≤ c.toNat := UInt8.le_iff_toNat_le.mp h.1
  have hhi : c.toNat ≤ 57 := UInt8.le_iff_toNat_le.mp h.2
  unfold digitVal
  omega

/-- Reading on never makes a number smaller. -/
theorem le_readDigits {acc : Int} (hacc : 0 ≤ acc) {digits : List UInt8}
    (hdigits : ∀ c ∈ digits, isDigit c = true) : acc ≤ readDigits acc digits := by
  induction digits generalizing acc with
  | nil => exact le_rfl
  | cons c digits ih =>
      have hc := digitVal_range (hdigits c List.mem_cons_self)
      have hrest := ih (by omega : 0 ≤ acc * 10 + digitVal c)
        (fun d hd => hdigits d (List.mem_cons_of_mem _ hd))
      rw [readDigits_cons]
      omega

/-- A number as it is written. -/
structure Numeral where
  negative : Bool
  digits : List UInt8
  ne_nil : digits ≠ []
  isDigit_of_mem : ∀ c ∈ digits, isDigit c = true

namespace Numeral

/-- What is written. -/
def bytes (n : Numeral) : List UInt8 :=
  (if n.negative then [45] else []) ++ n.digits

/-- The number without its sign. -/
def magnitude (n : Numeral) : Int :=
  readDigits 0 n.digits

/-- The number. -/
def value (n : Numeral) : Int :=
  if n.negative then -n.magnitude else n.magnitude

theorem magnitude_nonneg (n : Numeral) : 0 ≤ n.magnitude :=
  le_readDigits le_rfl n.isDigit_of_mem

end Numeral

end CLang
