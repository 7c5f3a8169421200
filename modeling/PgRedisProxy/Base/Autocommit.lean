import Mathlib.Data.Option.Basic

/-!
# Statements that are committed one by one

A client sends its statements one at a time, and each is its own transaction. A call may
get no result back, and its statement is executed or not; this is what a broken
connection looks like, and a client that is cut off. `executed` says how many statements
are executed before a client that gives up at the first such call ends, and `exec_cases`
what one call leaves to those after it.
-/

namespace Autocommit

/-- What becomes of a call: a result comes back, or none does and the statement was executed or
not. -/
inductive CallResult where
  | answered
  | lost (committed : Bool)
  deriving DecidableEq, Repr

/-- How many statements are executed up to the first call without a result, if there is one. -/
def executed : List CallResult → Option Nat
  | [] => none
  | .answered :: answers => (executed answers).map (· + 1)
  | .lost committed :: _ => some (if committed then 1 else 0)

/-- A client: what its statements change, and what becomes of the calls still to come. All calls
after the last one listed are answered. -/
structure Client (σ : Type*) where
  state : σ
  answers : List CallResult

namespace Client

variable {σ : Type*}

/-- One call, which succeeds if its result comes back and reports no error. A statement that
reports an error changes nothing. -/
def exec (statement : σ → Option σ) (s : Client σ) : Client σ × Bool :=
  let result := statement s.state
  match s.answers with
  | .lost committed :: answers =>
      (⟨if committed then result.getD s.state else s.state, answers⟩, false)
  | .answered :: answers => (⟨result.getD s.state, answers⟩, result.isSome)
  | [] => (⟨result.getD s.state, []⟩, result.isSome)

/-- A call of a statement that reports no error succeeds, or its statement is not executed, or it is
executed and nothing more. -/
theorem exec_cases {statement : σ → Option σ} {s : Client σ} {state' : σ}
    (hresult : statement s.state = some state') :
    (∃ s' : Client σ, s.exec statement = (s', true) ∧ s'.state = state' ∧
      executed s.answers = (executed s'.answers).map (· + 1)) ∨
    (∃ s' : Client σ, s.exec statement = (s', false) ∧ s'.state = s.state ∧
      executed s.answers = some 0) ∨
    ∃ s' : Client σ, s.exec statement = (s', false) ∧ s'.state = state' ∧
      executed s.answers = some 1 := by
  obtain ⟨state, answers⟩ := s
  have hexec : statement state = some state' := hresult
  cases answers with
  | nil => exact .inl ⟨⟨state', []⟩, by simp [exec, hexec], rfl, rfl⟩
  | cons answer answers =>
      cases answer with
      | answered => exact .inl ⟨⟨state', answers⟩, by simp [exec, hexec], rfl, rfl⟩
      | lost committed =>
          cases committed with
          | false => exact .inr (.inl ⟨⟨state, answers⟩, by simp [exec], rfl, rfl⟩)
          | true => exact .inr (.inr ⟨⟨state', answers⟩, by simp [exec, hexec], rfl, rfl⟩)

end Client

end Autocommit
