import Mathlib.Algebra.GroupWithZero.Nat
import Mathlib.Data.List.Basic

/-!
# SQL texts and their string literals

A statement is SQL text with string literals in it. `Statement.plain` is its text with
the literals put between quotes as they are, and `readStatement` reads a text by the
standard rule for literals: a literal ends at the first quote that is not doubled, and
a doubled quote stands for one. `readStatement_plain_iff`, the main result, says that
the plain text is read as the statement exactly if no literal holds a quote.
-/

namespace SqlText

variable {α : Type*} [DecidableEq α]

/-- SQL text up to the first literal, and each literal with the SQL text after it. -/
structure Statement (α : Type*) where
  head : List α
  tail : List (List α × List α)
  deriving DecidableEq

namespace Statement

/-- The SQL text of a statement, without its literals. -/
def sql (s : Statement α) : List α :=
  s.head ++ s.tail.flatMap Prod.snd

/-- The text of a statement with each literal between quotes. -/
def plain (quote : α) (s : Statement α) : List α :=
  s.head ++ s.tail.flatMap fun part => quote :: part.1 ++ quote :: part.2

/-- The SQL text holds no quote, and something stands between two literals. -/
structure WellShaped (quote : α) (s : Statement α) : Prop where
  head_plain : quote ∉ s.head
  tail_plain : ∀ part ∈ s.tail, quote ∉ part.2 ∧ part.2 ≠ []

/-- The statement ends with its only separator. -/
def Single (separator : α) (s : Statement α) : Prop :=
  ∃ text, s.sql = text ++ [separator] ∧ separator ∉ text

end Statement

/-- Where a reader is: in SQL text, in a literal, or behind a quote in a literal. -/
inductive Mode where
  | sql
  | literal
  | quoted

/-- What is read from somewhere on: the rest of the literal the reader is in, the SQL text after it,
and the literals and SQL texts that follow. -/
structure Rest (α : Type*) where
  literal : List α
  sql : List α
  tail : List (List α × List α)

/-- Reading a text, character by character. A literal that does not end cannot be read. -/
def lex (quote : α) : Mode → List α → Option (Rest α)
  | .sql, [] => some ⟨[], [], []⟩
  | .literal, [] => none
  | .quoted, [] => some ⟨[], [], []⟩
  | .sql, c :: text =>
      if c = quote then
        (lex quote .literal text).map fun r => ⟨[], [], (r.literal, r.sql) :: r.tail⟩
      else (lex quote .sql text).map fun r => { r with sql := c :: r.sql }
  | .literal, c :: text =>
      if c = quote then lex quote .quoted text
      else (lex quote .literal text).map fun r => { r with literal := c :: r.literal }
  | .quoted, c :: text =>
      if c = quote then (lex quote .literal text).map fun r => { r with literal := c :: r.literal }
      else (lex quote .sql text).map fun r => { r with sql := c :: r.sql }

/-- The statement a text is read as. -/
def readStatement (quote : α) (text : List α) : Option (Statement α) :=
  (lex quote .sql text).map fun r => ⟨r.sql, r.tail⟩

section Lex

variable {quote : α}

/-- SQL text without a quote is read as such. -/
theorem lex_sql_append {sql : List α} (hsql : quote ∉ sql) (text : List α) :
    lex quote .sql (sql ++ text) =
      (lex quote .sql text).map fun r => { r with sql := sql ++ r.sql } := by
  induction sql with
  | nil => simp
  | cons c sql ih =>
      rw [List.mem_cons, not_or] at hsql
      obtain ⟨hc, hsql⟩ := hsql
      simp only [List.cons_append, lex, if_neg (Ne.symm hc), ih hsql, Option.map_map]
      rfl

/-- The content of a literal without a quote is read as such. -/
theorem lex_literal_append {literal : List α} (hliteral : quote ∉ literal) (text : List α) :
    lex quote .literal (literal ++ text) =
      (lex quote .literal text).map fun r => { r with literal := literal ++ r.literal } := by
  induction literal with
  | nil => simp
  | cons c literal ih =>
      rw [List.mem_cons, not_or] at hliteral
      obtain ⟨hc, hliteral⟩ := hliteral
      simp only [List.cons_append, lex, if_neg (Ne.symm hc), ih hliteral, Option.map_map]
      rfl

/-- A literal ends before anything but a quote. -/
theorem lex_quoted {text : List α} (htext : ∀ c rest, text = c :: rest → c ≠ quote) :
    lex quote .quoted text = lex quote .sql text := by
  cases text with
  | nil => rfl
  | cons c rest =>
      have hc := htext c rest rfl
      simp only [lex, if_neg hc]

/-- Literals without quotes, each followed by SQL text, are read as they are. -/
theorem lex_tail {tail : List (List α × List α)}
    (htail : ∀ part ∈ tail, quote ∉ part.1 ∧ quote ∉ part.2 ∧ part.2 ≠ []) :
    lex quote .sql (tail.flatMap fun part => quote :: part.1 ++ quote :: part.2) =
      some ⟨[], [], tail⟩ := by
  induction tail with
  | nil => rfl
  | cons part tail ih =>
      obtain ⟨literal, sql⟩ := part
      obtain ⟨hliteral, hsql, hne⟩ := htail (literal, sql) List.mem_cons_self
      have hrest := ih fun p hp => htail p (List.mem_cons_of_mem _ hp)
      have hends : ∀ c rest, sql ++ (tail.flatMap fun part =>
          quote :: part.1 ++ quote :: part.2) = c :: rest → c ≠ quote := by
        intro c rest heq
        obtain ⟨c', sql', rfl⟩ := List.exists_cons_of_ne_nil hne
        cases heq
        intro hc
        exact hsql (by simp [hc])
      rw [List.flatMap_cons, List.cons_append, List.cons_append, lex, if_pos rfl, List.append_assoc,
        lex_literal_append hliteral, List.cons_append, lex, if_pos rfl, lex_quoted hends,
        lex_sql_append hsql, hrest]
      simp

/-- A statement whose literals hold no quote is read from its plain text. -/
theorem readStatement_plain {s : Statement α} (hs : s.WellShaped quote)
    (hliterals : ∀ part ∈ s.tail, quote ∉ part.1) :
    readStatement quote (s.plain quote) = some s := by
  have htail : lex quote .sql (s.tail.flatMap fun part => quote :: part.1 ++ quote :: part.2) =
      some ⟨[], [], s.tail⟩ :=
    lex_tail fun part hpart =>
      ⟨hliterals part hpart, (hs.tail_plain part hpart).1, (hs.tail_plain part hpart).2⟩
  rw [readStatement, Statement.plain, lex_sql_append hs.head_plain, htail]
  simp

/-! ## Counting quotes -/

/-- The number of quotes inside some literals. -/
def innerQuotes (quote : α) (tail : List (List α × List α)) : Nat :=
  (tail.map fun part => part.1.count quote).sum

theorem innerQuotes_eq_zero_iff {tail : List (List α × List α)} :
    innerQuotes quote tail = 0 ↔ ∀ part ∈ tail, quote ∉ part.1 := by
  rw [innerQuotes, List.sum_eq_zero_iff_forall_eq_nat, List.forall_mem_map]
  simp only [List.count_eq_zero]

/-- Every quote that is read begins or ends a literal, or is one half of a doubled one. -/
theorem lex_count {mode : Mode} {text : List α} {r : Rest α} (h : lex quote mode text = some r) :
    match mode with
    | .sql => r.literal = [] ∧
        text.count quote = 2 * r.tail.length + 2 * innerQuotes quote r.tail
    | .literal => text.count quote =
        1 + 2 * r.literal.count quote + 2 * r.tail.length + 2 * innerQuotes quote r.tail
    | .quoted => text.count quote =
        2 * r.literal.count quote + 2 * r.tail.length + 2 * innerQuotes quote r.tail := by
  induction text generalizing mode r with
  | nil =>
      cases mode with
      | sql =>
          cases h
          exact ⟨rfl, rfl⟩
      | literal => cases h
      | quoted =>
          cases h
          rfl
  | cons c text ih =>
      cases mode with
      | sql =>
          simp only [lex] at h
          split at h
          · next hc =>
              obtain ⟨r', hr', rfl⟩ := Option.map_eq_some_iff.mp h
              have hcount := ih hr'
              simp only [innerQuotes] at hcount
              simp only [hc, List.count_cons_self, innerQuotes, List.map_cons, List.sum_cons,
                List.length_cons]
              exact ⟨trivial, by omega⟩
          · next hc =>
              obtain ⟨r', hr', rfl⟩ := Option.map_eq_some_iff.mp h
              rw [List.count_cons_of_ne hc]
              exact ih hr'
      | literal =>
          simp only [lex] at h
          split at h
          · next hc =>
              have hcount := ih h
              simp only at hcount
              simp only [hc, List.count_cons_self]
              omega
          · next hc =>
              obtain ⟨r', hr', rfl⟩ := Option.map_eq_some_iff.mp h
              simp only [List.count_cons_of_ne hc]
              exact ih hr'
      | quoted =>
          simp only [lex] at h
          split at h
          · -- the second quote of a doubled one, which the literal keeps
            next hc =>
              obtain ⟨r', hr', rfl⟩ := Option.map_eq_some_iff.mp h
              have hcount := ih hr'
              simp only at hcount
              simp only [hc, List.count_cons_self]
              omega
          · -- the quote before this character has ended the literal
            next hc =>
              obtain ⟨r', hr', rfl⟩ := Option.map_eq_some_iff.mp h
              obtain ⟨hliteral, hcount⟩ := ih hr'
              simp only [List.count_cons_of_ne hc, hliteral, List.count_nil, hcount]
              omega

/-- The quotes of a plain text: two for each literal, and those inside. -/
theorem count_plain {s : Statement α} (hs : s.WellShaped quote) :
    (s.plain quote).count quote = 2 * s.tail.length + innerQuotes quote s.tail := by
  rw [Statement.plain, List.count_append, List.count_eq_zero_of_not_mem hs.head_plain,
    Nat.zero_add]
  have htail := hs.tail_plain
  generalize s.tail = tail at htail ⊢
  induction tail with
  | nil => rfl
  | cons part tail ih =>
      have hrest := ih fun p hp => htail p (List.mem_cons_of_mem _ hp)
      have hsql := List.count_eq_zero_of_not_mem (htail part List.mem_cons_self).1
      simp only [innerQuotes, List.cons_append] at hrest
      simp only [innerQuotes, List.flatMap_cons, List.count_append, List.count_cons_self,
        List.map_cons, List.sum_cons, List.cons_append, List.length_cons]
      omega

/-- The plain text of a statement is read as the statement exactly if no literal holds a quote. -/
theorem readStatement_plain_iff {s : Statement α} (hs : s.WellShaped quote) :
    readStatement quote (s.plain quote) = some s ↔ ∀ part ∈ s.tail, quote ∉ part.1 := by
  refine ⟨fun hread => ?_, readStatement_plain hs⟩
  obtain ⟨r, hr, heq⟩ := Option.map_eq_some_iff.mp hread
  obtain ⟨-, hcount⟩ := lex_count hr
  have htail : r.tail = s.tail := congrArg Statement.tail heq
  rw [count_plain hs, htail] at hcount
  rw [← innerQuotes_eq_zero_iff]
  omega

/-- Where no literal holds a quote, no other statement with as many literals has the same plain
text. -/
theorem plain_injective {s s' : Statement α} (hs : s.WellShaped quote) (hs' : s'.WellShaped quote)
    (hlength : s'.tail.length = s.tail.length) (hliterals : ∀ part ∈ s.tail, quote ∉ part.1)
    (heq : s'.plain quote = s.plain quote) : s' = s := by
  have hcount := count_plain hs'
  rw [heq, count_plain hs, hlength, innerQuotes_eq_zero_iff.mpr hliterals] at hcount
  have hliterals' := innerQuotes_eq_zero_iff.mp (by omega : innerQuotes quote s'.tail = 0)
  have hread := readStatement_plain hs' hliterals'
  rw [heq, readStatement_plain hs hliterals] at hread
  exact (Option.some.inj hread).symm

end Lex

end SqlText
