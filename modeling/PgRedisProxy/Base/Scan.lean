import Mathlib.Data.List.TakeWhile
import PgRedisProxy.Base.Numeral

/-!
# Reading text with the C library

`scanLine`, `scanField`, `strtok` and `strtol` are what `fscanf` with `%[^\n]\n`,
`sscanf` with `%s %[^\n]`, `strtok` with one delimiter, and `strtol` to the base ten do
with a text. Where they go on from there is part of their result. `linesOf` and
`tokensOf` are all lines and tokens of a text, and `strtol_eq_some_nil_iff` says of which texts
`strtol` leaves nothing.
-/

namespace CLang

/-- `isspace` -/
def isSpace (c : UInt8) : Bool :=
  c = 32 || (9 ≤ c && c ≤ 13)

/-- The C string at the beginning of some bytes. -/
def CString.ofBytes (bytes : List UInt8) : CString where
  bytes := bytes.takeWhile (· ≠ 0)
  noNul := fun hmem => by simpa using List.mem_takeWhile_imp hmem

/-- What `fscanf(file, "%[^\n]\n", line)` makes of what is left of a file: the end of the file, a
line feed at the beginning, which stays, or a line and what is left behind the blanks that follow
it. -/
inductive LineScan where
  | eof
  | noMatch
  | line (text rest : List UInt8)

/-- `fscanf(file, "%[^\n]\n", line)` -/
def scanLine : List UInt8 → LineScan
  | [] => .eof
  | c :: input =>
      if c = 10 then .noMatch
      else
        .line (c :: input.takeWhile (· ≠ 10)) ((input.dropWhile (· ≠ 10)).dropWhile isSpace)

/-- `sscanf(line, "%s %[^\n]", name, value)`: nothing if the line is blank, and else its first word
and what comes after it, if there is anything. -/
def scanField (line : List UInt8) : Option (List UInt8 × Option (List UInt8)) :=
  let line := line.dropWhile isSpace
  if line = [] then none
  else
    let value := ((line.dropWhile (!isSpace ·)).dropWhile isSpace).takeWhile (· ≠ 10)
    some (line.takeWhile (!isSpace ·), if value = [] then none else some value)

/-- `strtok`: the next token and what is left behind the delimiter after it. -/
def strtok (delimiter : UInt8) (text : List UInt8) : Option (List UInt8 × List UInt8) :=
  let text := text.dropWhile (· = delimiter)
  if text = [] then none
  else some (text.takeWhile (· ≠ delimiter), (text.dropWhile (· ≠ delimiter)).drop 1)

/-- What is behind the token that `strtok` finds, from the delimiter on that it overwrites. -/
def strtokBehind (delimiter : UInt8) (text : List UInt8) : List UInt8 :=
  (text.dropWhile (· = delimiter)).dropWhile (· ≠ delimiter)

/-- What a call of `strtok` leaves to the next one. -/
def strtokLeft (delimiter : UInt8) (text : List UInt8) : List UInt8 :=
  (strtokBehind delimiter text).drop 1

/-- What is left of a string after the first call of `strtok`, which ends it behind its first
token. -/
def strtokHead (delimiter : UInt8) (text : List UInt8) : List UInt8 :=
  text.takeWhile (· = delimiter) ++ (text.dropWhile (· = delimiter)).takeWhile (· ≠ delimiter)

/-- `strtol` to the base ten: the number, without the bounds of a `long`, and what is left behind
it. Nothing if there are no digits. -/
def strtol (text : List UInt8) : Option (Int × List UInt8) :=
  let text := text.dropWhile isSpace
  let unsigned := if text.head? = some 45 ∨ text.head? = some 43 then text.tail else text
  let digits := unsigned.takeWhile isDigit
  if digits = [] then none
  else
    some (if text.head? = some 45 then -readDigits 0 digits else readDigits 0 digits,
      unsigned.dropWhile isDigit)

/-- A text that is one integer, with blanks before it and a sign, both optional. -/
def IsInteger (text : List UInt8) (n : Int) : Prop :=
  ∃ (blanks : List UInt8) (number : Numeral), (∀ c ∈ blanks, isSpace c = true) ∧
    number.value = n ∧
    (text = blanks ++ number.bytes ∨
      number.negative = false ∧ text = blanks ++ 43 :: number.digits)

/-! ## Integers -/

section Integers

variable {text digits : List UInt8} {n : Int}

theorem not_isSpace_of_isDigit {c : UInt8} (h : isDigit c = true) : isSpace c = false := by
  simp only [isDigit, Bool.and_eq_true, decide_eq_true_eq, UInt8.le_iff_toNat_le] at h
  simp only [isSpace, Bool.or_eq_false_iff, Bool.and_eq_false_iff, decide_eq_false_iff_not,
    UInt8.le_iff_toNat_le, ← UInt8.toNat_inj]
  simp at h ⊢
  omega

/-- `strtol` passes the blanks before the number. -/
theorem strtol_blanks {blanks : List UInt8} (hblanks : ∀ c ∈ blanks, isSpace c = true) :
    strtol (blanks ++ text) = strtol text := by
  unfold strtol
  rw [List.dropWhile_append_of_pos hblanks]

/-- A minus sign in front of digits. -/
theorem strtol_minus (hne : digits ≠ []) (hdigits : ∀ c ∈ digits, isDigit c = true) :
    strtol (45 :: digits) = some (-readDigits 0 digits, []) := by
  have htake : digits.takeWhile isDigit = digits := List.takeWhile_eq_self_iff.mpr hdigits
  have hdrop : digits.dropWhile isDigit = [] := List.dropWhile_eq_nil_iff.mpr hdigits
  simp [strtol, isSpace, htake, hdrop, hne]

/-- A plus sign in front of digits. -/
theorem strtol_plus (hne : digits ≠ []) (hdigits : ∀ c ∈ digits, isDigit c = true) :
    strtol (43 :: digits) = some (readDigits 0 digits, []) := by
  have htake : digits.takeWhile isDigit = digits := List.takeWhile_eq_self_iff.mpr hdigits
  have hdrop : digits.dropWhile isDigit = [] := List.dropWhile_eq_nil_iff.mpr hdigits
  simp [strtol, isSpace, htake, hdrop, hne]

/-- Digits alone. -/
theorem strtol_digits (hne : digits ≠ []) (hdigits : ∀ c ∈ digits, isDigit c = true) :
    strtol digits = some (readDigits 0 digits, []) := by
  have htake : digits.takeWhile isDigit = digits := List.takeWhile_eq_self_iff.mpr hdigits
  have hdrop : digits.dropWhile isDigit = [] := List.dropWhile_eq_nil_iff.mpr hdigits
  obtain ⟨c, rest, rfl⟩ := List.exists_cons_of_ne_nil hne
  have hc := hdigits c List.mem_cons_self
  have hminus : c ≠ 45 := by
    rintro rfl
    cases hc
  have hplus : c ≠ 43 := by
    rintro rfl
    cases hc
  simp [strtol, not_isSpace_of_isDigit hc, hminus, hplus, htake, hdrop]

/-- `strtol` passes the whole text exactly if the text is an integer. -/
theorem strtol_eq_some_nil_iff : strtol text = some (n, []) ↔ IsInteger text n := by
  constructor
  · intro h
    have hsplit : text = text.takeWhile isSpace ++ text.dropWhile isSpace :=
      List.takeWhile_append_dropWhile.symm
    have hblanks : ∀ c ∈ text.takeWhile isSpace, isSpace c = true :=
      fun c hc => List.mem_takeWhile_imp hc
    unfold strtol at h
    generalize text.dropWhile isSpace = body at h hsplit
    simp only at h
    set unsigned := if body.head? = some 45 ∨ body.head? = some 43 then body.tail else body
      with hunsigned
    split_ifs at h with hnone hminus
    · rw [Option.some_inj, Prod.mk.injEq] at h
      obtain ⟨rfl, hdrop⟩ := h
      have hdigits := List.dropWhile_eq_nil_iff.mp hdrop
      rw [List.takeWhile_eq_self_iff.mpr hdigits] at hnone ⊢
      refine ⟨_, ⟨true, unsigned, hnone, hdigits⟩, hblanks, rfl, .inl ?_⟩
      obtain ⟨rest, rfl⟩ : ∃ rest, body = 45 :: rest := by
        cases body with
        | nil => cases hminus
        | cons c rest => exact ⟨rest, by rw [Option.some.inj hminus]⟩
      exact hsplit
    · rw [Option.some_inj, Prod.mk.injEq] at h
      obtain ⟨rfl, hdrop⟩ := h
      have hdigits := List.dropWhile_eq_nil_iff.mp hdrop
      rw [List.takeWhile_eq_self_iff.mpr hdigits] at hnone ⊢
      refine ⟨_, ⟨false, unsigned, hnone, hdigits⟩, hblanks, rfl, ?_⟩
      by_cases hplus : body.head? = some 43
      · obtain ⟨rest, rfl⟩ : ∃ rest, body = 43 :: rest := by
          cases body with
          | nil => cases hplus
          | cons c rest => exact ⟨rest, by rw [Option.some.inj hplus]⟩
        exact .inr ⟨rfl, hsplit⟩
      · have hbody : unsigned = body := by
          rw [hunsigned, if_neg (not_or.mpr ⟨hminus, hplus⟩)]
        refine .inl ?_
        show text = text.takeWhile isSpace ++ unsigned
        rw [hbody]
        exact hsplit
  · rintro ⟨blanks, ⟨negative, digits, hne, hdigits⟩, hblanks, rfl, rfl | ⟨hpositive, rfl⟩⟩
    · rw [strtol_blanks hblanks]
      cases negative with
      | true => exact strtol_minus hne hdigits
      | false => exact strtol_digits hne hdigits
    · rw [strtol_blanks hblanks]
      obtain rfl : negative = false := hpositive
      exact strtol_plus hne hdigits

end Integers

/-! ## Lines and tokens -/

theorem scanLine_eq_eof {input : List UInt8} : scanLine input = .eof ↔ input = [] := by
  cases input with
  | nil => exact iff_of_true rfl rfl
  | cons c input =>
      by_cases hc : c = 10
      · simp [scanLine, hc]
      · simp [scanLine, hc]

/-- Nothing is read exactly if a line feed comes first. -/
theorem scanLine_eq_noMatch {input : List UInt8} :
    scanLine input = .noMatch ↔ input.head? = some 10 := by
  cases input with
  | nil => simp [scanLine]
  | cons c input =>
      by_cases hc : c = 10
      · simp [scanLine, hc]
      · simp [scanLine, hc]

/-- A line that is read is not in what is left, which does not begin with a blank. -/
theorem scanLine_eq_line {input text rest : List UInt8} (h : scanLine input = .line text rest) :
    rest.length < input.length ∧ ∀ c, rest.head? = some c → isSpace c = false := by
  cases input with
  | nil => cases h
  | cons c input =>
      by_cases hc : c = 10
      · simp [scanLine, hc] at h
      · simp only [scanLine, hc, if_false, LineScan.line.injEq] at h
        obtain ⟨-, rfl⟩ := h
        have hdrop := (List.dropWhile_suffix isSpace (l := input.dropWhile (· ≠ 10))).length_le
        have hline := (List.dropWhile_suffix (· ≠ (10 : UInt8)) (l := input)).length_le
        refine ⟨by rw [List.length_cons]; omega, fun c hc => ?_⟩
        have hhead := List.head?_dropWhile_not isSpace (input.dropWhile (· ≠ 10))
        rw [hc] at hhead
        simpa using hhead

/-- A token is not empty, and not in what is left. -/
theorem strtok_eq_some {delimiter : UInt8} {text token rest : List UInt8}
    (h : strtok delimiter text = some (token, rest)) :
    0 < token.length ∧ token.length + rest.length ≤ text.length := by
  have hdrop := (List.dropWhile_suffix (· = delimiter) (l := text)).length_le
  have hhead := List.head?_dropWhile_not (· = delimiter) text
  unfold strtok at h
  cases hleft : text.dropWhile (· = delimiter) with
  | nil => simp [hleft] at h
  | cons c left =>
      rw [hleft] at hdrop hhead
      have hc : ¬ c = delimiter := by simpa using hhead
      simp only [hleft, reduceCtorEq, if_false, Option.some.injEq, Prod.mk.injEq] at h
      obtain ⟨rfl, rfl⟩ := h
      have hsplit := congrArg List.length
        (List.takeWhile_append_dropWhile (p := fun c => decide (c ≠ delimiter)) (l := c :: left))
      rw [List.length_append] at hsplit
      constructor
      · simp [hc]
      · rw [List.length_drop]
        omega

/-- Behind the token there is either nothing or a delimiter, and `strtok` goes on behind that. -/
theorem strtok_left {delimiter : UInt8} {text : List UInt8} :
    (match strtok delimiter text with
      | none => []
      | some next => next.2) = strtokLeft delimiter text := by
  unfold strtok strtokLeft strtokBehind
  simp only
  split_ifs with hnone
  · rw [hnone]
    rfl
  · rfl

/-- The string that the first call leaves has one token at most, and nothing behind it. -/
theorem strtokBehind_head (delimiter : UInt8) (text : List UInt8) :
    strtokBehind delimiter (strtokHead delimiter text) = [] := by
  have hblanks : ∀ c ∈ text.takeWhile (· = delimiter), decide (c = delimiter) = true := by
    intro c hc
    simpa using List.mem_takeWhile_imp hc
  rw [strtokBehind, strtokHead, List.dropWhile_append_of_pos hblanks, List.dropWhile_eq_nil_iff]
  intro c hc
  simpa using List.mem_takeWhile_imp (List.dropWhile_suffix _ |>.subset hc)

/-- The texts of the lines of a file, with the bytes that are not read as a string. -/
def textsOf (input : List UInt8) : List (List UInt8) :=
  match _h : scanLine input with
  | .eof => []
  | .noMatch => []
  | .line text rest => text :: textsOf rest
termination_by input.length
decreasing_by exact (scanLine_eq_line _h).1

/-- The lines of a file, up to its end or to a line feed that is not passed. -/
def linesOf (input : List UInt8) : List CString :=
  match _h : scanLine input with
  | .eof => []
  | .noMatch => []
  | .line text rest => .ofBytes text :: linesOf rest
termination_by input.length
decreasing_by exact (scanLine_eq_line _h).1

/-- The tokens of a text. -/
def tokensOf (delimiter : UInt8) (text : List UInt8) : List (List UInt8) :=
  match _h : strtok delimiter text with
  | none => []
  | some (token, rest) => token :: tokensOf delimiter rest
termination_by text.length
decreasing_by
  have := strtok_eq_some _h
  omega

@[simp] theorem textsOf_nil : textsOf [] = [] := by
  rw [textsOf]
  rfl

theorem textsOf_line {input text rest : List UInt8} (h : scanLine input = .line text rest) :
    textsOf input = text :: textsOf rest := by
  rw [textsOf]
  split
  · simp_all
  · simp_all
  · simp_all

@[simp] theorem linesOf_nil : linesOf [] = [] := by
  rw [linesOf]
  rfl

theorem linesOf_line {input text rest : List UInt8} (h : scanLine input = .line text rest) :
    linesOf input = .ofBytes text :: linesOf rest := by
  rw [linesOf]
  split
  · simp_all
  · simp_all
  · simp_all

theorem tokensOf_none {delimiter : UInt8} {text : List UInt8} (h : strtok delimiter text = none) :
    tokensOf delimiter text = [] := by
  rw [tokensOf]
  split
  · rfl
  · simp_all

theorem tokensOf_some {delimiter : UInt8} {text token rest : List UInt8}
    (h : strtok delimiter text = some (token, rest)) :
    tokensOf delimiter text = token :: tokensOf delimiter rest := by
  rw [tokensOf]
  split
  · simp_all
  · simp_all

end CLang
