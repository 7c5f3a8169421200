import Mathlib.Data.List.Basic

/-!
# Runs of a machine

`runFrom` feeds a machine a list of inputs, one after the other, and has no result once
one of them is refused. `Along` says that each input meets a condition in the state it is
taken in. `runFrom_invariant` is the induction over a run, and `runFrom_total` the one
that also shows that no input is refused. `Throughout` is about a run that may be stopped
behind any of its inputs.
-/

namespace Machine

variable {σ β : Type*} (step : σ → β → Option σ)

/-- The state after some inputs, unless one of them is refused. -/
def runFrom (s : σ) : List β → Option σ
  | [] => some s
  | b :: bs => (step s b).bind fun s₁ => runFrom s₁ bs

/-- Every input satisfies `C` in the state it is taken in. -/
def Along (C : σ → β → Prop) (s : σ) : List β → Prop
  | [] => True
  | b :: bs => C s b ∧ ∀ s₁, step s b = some s₁ → Along C s₁ bs

instance decidableAlong (C : σ → β → Prop) [∀ s b, Decidable (C s b)] :
    (bs : List β) → (s : σ) → Decidable (Along step C s bs)
  | [], _ => isTrue trivial
  | b :: bs, s =>
      have := decidableAlong C bs
      inferInstanceAs (Decidable (C s b ∧ ∀ s₁ ∈ step s b, Along step C s₁ bs))

variable {step} {s s' : σ} {C : σ → β → Prop}

@[simp] theorem runFrom_nil (s : σ) : runFrom step s [] = some s := rfl

theorem runFrom_cons_eq_some {b : β} {bs : List β} :
    runFrom step s (b :: bs) = some s' ↔
      ∃ s₁, step s b = some s₁ ∧ runFrom step s₁ bs = some s' := by
  rw [runFrom, Option.bind_eq_some_iff]

/-- A run can be cut anywhere. -/
theorem runFrom_append (first second : List β) :
    runFrom step s (first ++ second) =
      (runFrom step s first).bind fun s₁ => runFrom step s₁ second := by
  induction first generalizing s with
  | nil => rfl
  | cons b first ih =>
      rw [List.cons_append, runFrom, runFrom, Option.bind_assoc]
      exact congrArg _ (funext fun s₁ => ih)

theorem runFrom_append_eq_some {first second : List β} :
    runFrom step s (first ++ second) = some s' ↔
      ∃ s₁, runFrom step s first = some s₁ ∧ runFrom step s₁ second = some s' := by
  rw [runFrom_append, Option.bind_eq_some_iff]

/-- What each step keeps on inputs that meet the condition holds after the run. -/
theorem runFrom_invariant {I : σ → Prop}
    (hkeep : ∀ s b s', I s → C s b → step s b = some s' → I s') {bs : List β} (hs : I s)
    (halong : Along step C s bs) (hrun : runFrom step s bs = some s') : I s' := by
  induction bs generalizing s with
  | nil =>
      cases hrun
      exact hs
  | cons b bs ih =>
      obtain ⟨hb, hnext⟩ := halong
      obtain ⟨s₁, hstep, hrest⟩ := runFrom_cons_eq_some.mp hrun
      exact ih (hkeep s b s₁ hs hb hstep) (hnext s₁ hstep) hrest

/-- If no input that meets the condition is refused, the run has a result. -/
theorem runFrom_total {I : σ → Prop}
    (htake : ∀ s b, I s → C s b → ∃ s', step s b = some s' ∧ I s') {bs : List β} (hs : I s)
    (halong : Along step C s bs) : ∃ s', runFrom step s bs = some s' ∧ I s' := by
  induction bs generalizing s with
  | nil => exact ⟨s, rfl, hs⟩
  | cons b bs ih =>
      obtain ⟨hb, hnext⟩ := halong
      obtain ⟨s₁, hstep, hs₁⟩ := htake s b hs hb
      obtain ⟨s', hrest, hs'⟩ := ih hs₁ (hnext s₁ hstep)
      exact ⟨s', runFrom_cons_eq_some.mpr ⟨s₁, hstep, hrest⟩, hs'⟩

/-- A condition that is always met. -/
theorem along_of_forall (hC : ∀ s b, C s b) (s : σ) (bs : List β) : Along step C s bs := by
  induction bs generalizing s with
  | nil => trivial
  | cons b bs ih => exact ⟨hC s b, fun s₁ _ => ih s₁⟩

/-- No input is refused exactly if none is in the state it is taken in. -/
theorem along_isSome_iff {bs : List β} :
    Along step (fun s b => (step s b).isSome) s bs ↔ (runFrom step s bs).isSome := by
  induction bs generalizing s with
  | nil => simp [Along]
  | cons b bs ih =>
      simp only [Along, runFrom]
      cases step s b with
      | none => simp
      | some s₁ => simp [ih]

/-- Conditions that agree in the states of an invariant, on inputs of a kind. The invariant has to
be kept by inputs that meet them only. -/
theorem along_congr {I : σ → Prop} {D : σ → β → Prop} {P : β → Prop}
    (hkeep : ∀ s b s', I s → P b → D s b → step s b = some s' → I s')
    (hiff : ∀ s b, I s → P b → (C s b ↔ D s b)) {bs : List β} (hbs : ∀ b ∈ bs, P b)
    (hs : I s) : Along step C s bs ↔ Along step D s bs := by
  induction bs generalizing s with
  | nil => exact Iff.rfl
  | cons b bs ih =>
      have hb := hbs b List.mem_cons_self
      have hrest := fun b' hb' => hbs b' (List.mem_cons_of_mem b hb')
      simp only [Along, hiff s b hs hb]
      exact and_congr_right fun hD =>
        forall₂_congr fun s₁ hstep => ih hrest (hkeep s b s₁ hs hb hD hstep)

/-- What each step keeps holds after the run. -/
theorem runFrom_keeps {I : σ → Prop} (hkeep : ∀ s b s', I s → step s b = some s' → I s')
    {bs : List β} (hs : I s) (hrun : runFrom step s bs = some s') : I s' :=
  runFrom_invariant (C := fun _ _ => True) (fun s b s' hs _ => hkeep s b s' hs) hs
    (along_of_forall (fun _ _ => trivial) s bs) hrun

/-! ## Runs that are stopped -/

variable (step) in
/-- Wherever the run is stopped, no input was refused so far, and `I` holds. -/
def Throughout (I : σ → Prop) (s : σ) (bs : List β) : Prop :=
  ∀ done, done <+: bs → ∃ s', runFrom step s done = some s' ∧ I s'

section Throughout

variable {I J : σ → Prop} {bs : List β}

theorem Throughout.nil (hs : I s) : Throughout step I s [] := by
  intro done hdone
  rw [List.prefix_nil.mp hdone]
  exact ⟨s, rfl, hs⟩

theorem Throughout.cons {b : β} (hs : I s) (hstep : step s b = some s')
    (hrest : Throughout step I s' bs) : Throughout step I s (b :: bs) := by
  intro done hdone
  rcases List.prefix_cons_iff.mp hdone with rfl | ⟨after, rfl, hafter⟩
  · exact ⟨s, rfl, hs⟩
  · obtain ⟨s₁, hrun, hs₁⟩ := hrest after hafter
    exact ⟨s₁, runFrom_cons_eq_some.mpr ⟨s', hstep, hrun⟩, hs₁⟩

/-- A run that goes on where another one has ended. -/
theorem Throughout.append {first second : List β} (hfirst : Throughout step I s first)
    (hrun : runFrom step s first = some s') (hsecond : Throughout step I s' second) :
    Throughout step I s (first ++ second) := by
  intro done hdone
  rcases List.prefix_or_prefix_of_prefix hdone (List.prefix_append first second) with
    hbefore | ⟨after, rfl⟩
  · exact hfirst done hbefore
  · obtain ⟨s₁, hrest, hs₁⟩ := hsecond after ((List.prefix_append_right_inj first).mp hdone)
    exact ⟨s₁, runFrom_append_eq_some.mpr ⟨s', hrun, hrest⟩, hs₁⟩

/-- A run on at most one input is stopped before it or behind it. -/
theorem throughout_of_length_le_one (hone : bs.length ≤ 1) (hrun : runFrom step s bs = some s')
    (hs : I s) (hs' : I s') : Throughout step I s bs := by
  match bs with
  | [] => exact .nil hs
  | [b] =>
      obtain ⟨s₁, hstep, hrest⟩ := runFrom_cons_eq_some.mp hrun
      cases hrest
      exact .cons hs hstep (.nil hs')
  | _ :: _ :: _ => simp at hone

/-- At most one more input. -/
theorem Throughout.append_of_length_le_one {first second : List β}
    (hfirst : Throughout step I s first) (hone : second.length ≤ 1)
    (hrun : runFrom step s (first ++ second) = some s') (hs' : I s') :
    Throughout step I s (first ++ second) := by
  obtain ⟨s₁, hrun₁, hs₁⟩ := hfirst first List.prefix_rfl
  obtain ⟨s₂, hrun₂, hrest⟩ := runFrom_append_eq_some.mp hrun
  obtain rfl : s₁ = s₂ := Option.some.inj (hrun₁.symm.trans hrun₂)
  exact hfirst.append hrun₁ (throughout_of_length_le_one hone hrest hs₁ hs')

theorem Throughout.imp (h : Throughout step I s bs) (himp : ∀ s, I s → J s) :
    Throughout step J s bs := by
  intro done hdone
  obtain ⟨s', hrun, hs'⟩ := h done hdone
  exact ⟨s', hrun, himp s' hs'⟩

end Throughout

end Machine
