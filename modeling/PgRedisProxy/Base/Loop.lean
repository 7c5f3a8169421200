import Mathlib.Logic.Function.Iterate
import Mathlib.Order.WellFounded

/-!
# Loops that finish

A loop makes one step after the other until it has ended. `Finishes` says that it does
end, and that every step on the way makes progress. `finishes_iff` is the rule for it:
where progress is what decreases a measure, a loop finishes exactly from the states of
a set that each step of progress keeps in both directions. `Finishes.throughout_iff` is the
rule for what holds in every state of a loop that does, `throughout_iff` one for any loop.
-/

namespace Machine

variable {σ : Type*}

/-- The loop ends, and until then each step makes progress. -/
structure Finishes (step : σ → σ) (ended progress : σ → Prop) (s : σ) : Prop where
  ends : ∃ n, ended (step^[n] s)
  progress : ∀ n, ¬ ended (step^[n] s) → progress (step^[n] s)

variable {step : σ → σ} {ended progress : σ → Prop} {s : σ}

/-- What finishes after a step of progress finishes. -/
theorem Finishes.of_step (hprogress : ¬ ended s → progress s)
    (h : Finishes step ended progress (step s)) : Finishes step ended progress s := by
  obtain ⟨n, hn⟩ := h.ends
  refine ⟨⟨n + 1, hn⟩, fun n => ?_⟩
  cases n with
  | zero => exact hprogress
  | succ n => exact h.progress n

/-- A loop that finishes does so after a step, too. -/
theorem Finishes.tail (h : Finishes step ended progress s) (hrunning : ¬ ended s) :
    Finishes step ended progress (step s) := by
  obtain ⟨n, hn⟩ := h.ends
  cases n with
  | zero => exact absurd hn hrunning
  | succ n => exact ⟨⟨n, hn⟩, fun n => h.progress (n + 1)⟩

/-- A set of states decides whether a loop finishes, if the loop has ended only inside of it, makes
progress inside of it, and a step of progress neither enters nor leaves it. -/
theorem finishes_iff {good : σ → Prop} {smaller : σ → σ → Prop} (hwf : WellFounded smaller)
    (hended : ∀ s, ended s → step s = s ∧ good s)
    (hgood : ∀ s, good s → ¬ ended s → progress s)
    (hstep : ∀ s, ¬ ended s → progress s → (good s ↔ good (step s)) ∧ smaller (step s) s) :
    Finishes step ended progress s ↔ good s := by
  induction s using hwf.induction with
  | _ s ih =>
      by_cases hs : ended s
      · obtain ⟨hstop, hin⟩ := hended s hs
        have hstays : ∀ n, step^[n] s = s := Function.iterate_fixed hstop
        refine iff_of_true ⟨⟨0, hs⟩, fun n hn => ?_⟩ hin
        rw [hstays] at hn
        exact absurd hs hn
      · by_cases hprogress : progress s
        · obtain ⟨hkeep, hsmaller⟩ := hstep s hs hprogress
          rw [hkeep, ← ih (step s) hsmaller]
          exact ⟨fun h => h.tail hs, .of_step fun _ => hprogress⟩
        · exact iff_of_false (fun h => hprogress (h.progress 0 hs))
            fun h => hprogress (hgood s h hs)

/-- What holds in every state of a loop that finishes, from what holds in one state and what is to
hold of the rest of the loop. -/
theorem Finishes.throughout_iff {holds good : σ → Prop}
    (hended : ∀ s, ended s → step s = s ∧ (good s ↔ holds s))
    (hstep : ∀ s, ¬ ended s → progress s → (good s ↔ holds s ∧ good (step s)))
    (h : Finishes step ended progress s) : (∀ n, holds (step^[n] s)) ↔ good s := by
  have hlast : ∀ s, ended s → ((∀ n, holds (step^[n] s)) ↔ good s) := by
    intro s hs
    obtain ⟨hstop, hgood⟩ := hended s hs
    have hstays : ∀ n, step^[n] s = s := Function.iterate_fixed hstop
    rw [hgood]
    exact ⟨fun hall => hall 0, fun hnow n => by rwa [hstays n]⟩
  obtain ⟨n, hn⟩ := h.ends
  induction n generalizing s with
  | zero => exact hlast s hn
  | succ n ih =>
      by_cases hs : ended s
      · exact hlast s hs
      · have htail : (∀ n, holds (step^[n] (step s))) ↔ good (step s) := ih (h.tail hs) hn
        rw [hstep s hs (h.progress 0 hs), ← htail]
        constructor
        · intro hall
          exact ⟨hall 0, fun n => hall (n + 1)⟩
        · rintro ⟨hnow, hrest⟩ n
          cases n with
          | zero => exact hnow
          | succ n => exact hrest n

/-- What holds in every state of a loop that may go on for ever: what a step keeps, and what comes
back from the next state if that is nearer to the end. -/
theorem throughout_iff {holds good : σ → Prop} {smaller : σ → σ → Prop}
    (hwf : WellFounded smaller) (hkeep : ∀ s, good s → holds s ∧ good (step s))
    (hback : ∀ s, (∀ n, holds (step^[n] s)) → (smaller (step s) s → good (step s)) → good s) :
    (∀ n, holds (step^[n] s)) ↔ good s := by
  constructor
  · intro hall
    induction s using hwf.induction with
    | _ s ih => exact hback s hall fun hsmaller => ih (step s) hsmaller fun n => hall (n + 1)
  · intro hgood n
    induction n generalizing s with
    | zero => exact (hkeep s hgood).1
    | succ n ih => exact ih (hkeep s hgood).2

end Machine
