import Mathlib.Data.List.Basic

/-!
# The paths of a machine

A machine takes one input after the other and may refuse one. `Path` is a run through
inputs it takes, with the state each of them is taken in, and `Walk` is a path that may
end with an input that is refused. `Walk.split` finds the path up to any place of a
walk, and `Path.invariant` is the induction over a path.
-/

namespace Machine

variable {σ β : Type*} (step : σ → β → Option σ)

/-- A run from one state to another, with each input and the state it is taken in. -/
inductive Path : σ → List (σ × β) → σ → Prop where
  | nil (s : σ) : Path s [] s
  | cons {s s₁ s' : σ} {b : β} {rest : List (σ × β)} (hstep : step s b = some s₁)
      (hrest : Path s₁ rest s') : Path s ((s, b) :: rest) s'

/-- A run whose last input may be one that the machine refuses. -/
def Walk (s : σ) (pairs : List (σ × β)) (s' : σ) : Prop :=
  Path step s pairs s' ∨
    ∃ init b, pairs = init ++ [(s', b)] ∧ Path step s init s' ∧ step s' b = none

variable {step} {s s₁ s' : σ} {b : β} {first second : List (σ × β)}

theorem Path.single (hstep : step s b = some s₁) : Path step s [(s, b)] s₁ :=
  .cons hstep (.nil s₁)

/-- A path and one from where it ends. -/
theorem Path.append (hfirst : Path step s first s₁) (hsecond : Path step s₁ second s') :
    Path step s (first ++ second) s' := by
  induction hfirst with
  | nil s => exact hsecond
  | cons hstep hrest ih => exact .cons hstep (ih hsecond)

/-- A path can be cut anywhere. -/
theorem Path.split (h : Path step s (first ++ second) s') :
    ∃ s₁, Path step s first s₁ ∧ Path step s₁ second s' := by
  induction first generalizing s with
  | nil => exact ⟨s, .nil s, h⟩
  | cons pair first ih =>
      cases h with
      | cons hstep hrest =>
          obtain ⟨s₁, hfirst, hsecond⟩ := ih hrest
          exact ⟨s₁, .cons hstep hfirst, hsecond⟩

/-- The state an input is taken in is the one the path has come to. -/
theorem Path.head_eq {pair : σ × β} (h : Path step s (pair :: second) s') : pair.1 = s := by
  cases h with
  | cons hstep hrest => rfl

/-- A path and a walk from where it ends. -/
theorem Path.append_walk (hfirst : Path step s first s₁) (hsecond : Walk step s₁ second s') :
    Walk step s (first ++ second) s' := by
  rcases hsecond with hpath | ⟨init, b, rfl, hinit, hnone⟩
  · exact .inl (hfirst.append hpath)
  · exact .inr ⟨first ++ init, b, by simp, hfirst.append hinit, hnone⟩

/-- The first input of a walk is taken, or it is refused and the last one. -/
theorem Walk.cons_cases {pair : σ × β} (h : Walk step s (pair :: second) s') :
    pair.1 = s ∧ ((∃ s₁, step s pair.2 = some s₁ ∧ Walk step s₁ second s') ∨
      (step s pair.2 = none ∧ second = [])) := by
  rcases h with hpath | ⟨init, b, hpairs, hinit, hnone⟩
  · cases hpath with
    | cons hstep hrest => exact ⟨rfl, .inl ⟨_, hstep, .inl hrest⟩⟩
  · cases hinit with
    | nil =>
        obtain ⟨rfl, rfl⟩ := List.cons.inj hpairs
        exact ⟨rfl, .inr ⟨hnone, rfl⟩⟩
    | cons hstep hrest =>
        obtain ⟨rfl, rfl⟩ := List.cons.inj hpairs
        exact ⟨rfl, .inl ⟨_, hstep, .inr ⟨_, b, rfl, hrest, hnone⟩⟩⟩

/-- A walk can be cut anywhere: what is before the cut is a path. -/
theorem Walk.split {pair : σ × β} (h : Walk step s (first ++ pair :: second) s') :
    Path step s first pair.1 ∧ Walk step pair.1 (pair :: second) s' := by
  rcases h with hpath | ⟨init, b, hpairs, hinit, hnone⟩
  · obtain ⟨s₁, hfirst, hsecond⟩ := hpath.split
    obtain rfl := hsecond.head_eq
    exact ⟨hfirst, .inl hsecond⟩
  · rcases List.eq_nil_or_concat second with rfl | ⟨second, last, rfl⟩
    · -- the pair is the one that is refused
      obtain ⟨rfl, hpair⟩ := List.append_inj' hpairs rfl
      obtain rfl : pair = (s', b) := List.singleton_inj.mp hpair
      exact ⟨hinit, .inr ⟨[], b, rfl, .nil s', hnone⟩⟩
    · have hcut : (first ++ pair :: second) ++ [last] = init ++ [(s', b)] := by
        simpa using hpairs
      obtain ⟨rfl, hlast⟩ := List.append_inj' hcut rfl
      obtain rfl : last = (s', b) := List.singleton_inj.mp hlast
      obtain ⟨s₁, hfirst, hsecond⟩ := hinit.split
      obtain rfl := hsecond.head_eq
      exact ⟨hfirst, .inr ⟨pair :: second, b, by simp, hsecond, hnone⟩⟩

/-- What every step of a path keeps holds wherever the path comes to. -/
theorem Path.invariant {P : σ → Prop} (h : Path step s first s') (hs : P s)
    (hstep : ∀ pair ∈ first, ∀ s₁, P pair.1 → step pair.1 pair.2 = some s₁ → P s₁) : P s' := by
  induction h with
  | nil s => exact hs
  | cons htaken hrest ih =>
      exact ih (hstep _ List.mem_cons_self _ hs htaken)
        (fun pair hpair => hstep pair (List.mem_cons_of_mem _ hpair))

end Machine
