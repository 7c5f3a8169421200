import Mathlib.Logic.Function.Basic
import PgRedisProxy.Base.Runs

/-!
# Parties around a shared state

A system is a state that all parties share and a state of its own for each party.
Parties join, act one at a time on the shared state and on their own, and leave, in any
order; the shared state may also change alone. `Rules.Keeps` is the rule of
non-interference: an assertion about the shared state and one about each party, where
whoever acts restores its own and disturbs no other. `Rules.Keeps.run` says that they
then hold in every interleaving. `Rules.Simulates` compares two systems whose parties
cannot tell the shared states apart, `Rules.Agree` two systems that do the same as long as
it leads to something good, and `Rules.Respects` two runs of one system whose parties
correspond.
-/

namespace Parties

/-- A party has not joined, takes part with a state of its own, or has left in some state. -/
inductive Member (τ : Type*) where
  | absent
  | present (t : τ)
  | left (t : τ)

/-- The shared state and the parties. -/
structure System (ι σ τ : Type*) where
  shared : σ
  member : ι → Member τ

/-- Who acts, and on what input. -/
inductive Event (ι γ β ε : Type*) where
  | join (i : ι) (g : γ)
  | act (i : ι) (b : β)
  | change (e : ε)

/-- How parties behave: the state a party joins with, what it does on an input, and how the shared
state changes alone. Without a result, the whole system is gone. -/
structure Rules (ι γ β ε σ τ : Type*) where
  join : γ → τ
  act : ι → β → σ → τ → Option (σ × Member τ)
  change : ε → σ → Option σ

variable {ι γ β ε σ τ : Type*}

/-- The state of a party that has joined. -/
def Member.state? : Member τ → Option τ
  | .absent => none
  | .present t => some t
  | .left t => some t

variable [DecidableEq ι]

/-- One event. Nothing comes of a party that joins again, or that acts without taking part. -/
def Rules.step (P : Rules ι γ β ε σ τ) (s : System ι σ τ) :
    Event ι γ β ε → Option (System ι σ τ)
  | .join i g =>
      match s.member i with
      | .absent => some { s with member := Function.update s.member i (.present (P.join g)) }
      | _ => some s
  | .act i b =>
      match s.member i with
      | .present t =>
          (P.act i b s.shared t).map fun (x, m) => ⟨x, Function.update s.member i m⟩
      | _ => some s
  | .change e => (P.change e s.shared).map fun x => { s with shared := x }

/-- Every party that acts meets the guard. -/
def Guarded (ok : ι → β → σ → τ → Prop) (s : System ι σ τ) : Event ι γ β ε → Prop
  | .act i b => ∀ t, s.member i = .present t → ok i b s.shared t
  | _ => True

instance (ok : ι → β → σ → τ → Prop) [∀ i b x t, Decidable (ok i b x t)] (s : System ι σ τ) :
    (e : Event ι γ β ε) → Decidable (Guarded ok s e)
  | .join _ _ => isTrue trivial
  | .act i b =>
      match h : s.member i with
      | .absent => isTrue fun t ht => by rw [h] at ht; cases ht
      | .present t =>
          decidable_of_iff (ok i b s.shared t) ⟨fun hok t' ht' => by
            rw [h] at ht'
            cases ht'
            exact hok, fun hall => hall t h⟩
      | .left _ => isTrue fun t ht => by rw [h] at ht; cases ht
  | .change _ => isTrue trivial

/-- The assertions hold. -/
structure System.Holds (inv : σ → Prop) (own : ι → σ → Member τ → Prop) (s : System ι σ τ) :
    Prop where
  shared : inv s.shared
  member : ∀ i, own i s.shared (s.member i)

/-- Steps that meet the guard keep the assertion about the shared state and the one about the party
that acts, and do not interfere with the others. -/
structure Rules.Keeps (P : Rules ι γ β ε σ τ) (ok : ι → β → σ → τ → Prop) (inv : σ → Prop)
    (own : ι → σ → Member τ → Prop) : Prop where
  join : ∀ {i x} g, inv x → own i x .absent → own i x (.present (P.join g))
  act : ∀ {i b x t x' m}, inv x → own i x (.present t) → ok i b x t →
    P.act i b x t = some (x', m) → inv x' ∧ own i x' m
  act_other : ∀ {i b x t x' m j n}, inv x → own i x (.present t) → ok i b x t →
    P.act i b x t = some (x', m) → j ≠ i → own j x n → own j x' n
  change : ∀ {e x x'}, inv x → P.change e x = some x' → inv x'
  change_other : ∀ {e x x' j n}, inv x → P.change e x = some x' → own j x n → own j x' n

variable {P : Rules ι γ β ε σ τ} {ok : ι → β → σ → τ → Prop} {inv : σ → Prop}
  {own : ι → σ → Member τ → Prop}

/-- The state of one party after another one has been set. -/
theorem own_update {x : σ} {member : ι → Member τ} {i : ι} {m : Member τ} (hi : own i x m)
    (hothers : ∀ j, j ≠ i → own j x (member j)) (j : ι) :
    own j x (Function.update member i m j) := by
  by_cases hj : j = i
  · subst hj
    rwa [Function.update_self]
  · rw [Function.update_of_ne hj]
    exact hothers j hj

/-- One event keeps the assertions. -/
theorem Rules.Keeps.step (hkeeps : P.Keeps ok inv own) {s s' : System ι σ τ} {e : Event ι γ β ε}
    (hs : s.Holds inv own) (hguard : Guarded ok s e) (hstep : P.step s e = some s') :
    s'.Holds inv own := by
  cases e with
  | join i g =>
      have hi := hs.member i
      simp only [Rules.step] at hstep
      cases hm : s.member i with
      | absent =>
          rw [hm] at hi hstep
          cases hstep
          exact ⟨hs.shared,
            own_update (hkeeps.join g hs.shared hi) fun j _ => hs.member j⟩
      | present t =>
          rw [hm] at hstep
          cases hstep
          exact hs
      | left t =>
          rw [hm] at hstep
          cases hstep
          exact hs
  | act i b =>
      have hi := hs.member i
      simp only [Rules.step] at hstep
      cases hm : s.member i with
      | absent =>
          rw [hm] at hstep
          cases hstep
          exact hs
      | present t =>
          rw [hm] at hi hstep
          obtain ⟨⟨x', m⟩, hact, rfl⟩ := Option.map_eq_some_iff.mp hstep
          have hok := hguard t hm
          obtain ⟨hinv, hown⟩ := hkeeps.act hs.shared hi hok hact
          exact ⟨hinv, own_update hown fun j hj =>
            hkeeps.act_other hs.shared hi hok hact hj (hs.member j)⟩
      | left t =>
          rw [hm] at hstep
          cases hstep
          exact hs
  | change e =>
      obtain ⟨x', hchange, rfl⟩ := Option.map_eq_some_iff.mp hstep
      exact ⟨hkeeps.change hs.shared hchange,
        fun j => hkeeps.change_other hs.shared hchange (hs.member j)⟩

/-- The assertions hold after any interleaving whose steps meet the guard. -/
theorem Rules.Keeps.run (hkeeps : P.Keeps ok inv own) {s s' : System ι σ τ}
    {events : List (Event ι γ β ε)} (hs : s.Holds inv own)
    (hguard : Machine.Along P.step (Guarded ok) s events)
    (hrun : Machine.runFrom P.step s events = some s') : s'.Holds inv own :=
  Machine.runFrom_invariant (fun _ _ _ => hkeeps.step) hs hguard hrun

omit [DecidableEq ι] in
/-- An assertion about the state of each party alone, which needs the other assertions only where
the party acts itself. -/
theorem Rules.Keeps.strengthen (hkeeps : P.Keeps ok inv own) {L : ι → Member τ → Prop}
    (hjoin : ∀ {i} g, L i .absent → L i (.present (P.join g)))
    (hact : ∀ {i b x t x' m}, inv x → own i x (.present t) → L i (.present t) → ok i b x t →
      P.act i b x t = some (x', m) → L i m) :
    P.Keeps ok inv fun i x m => own i x m ∧ L i m where
  join := fun g hx h => ⟨hkeeps.join g hx h.1, hjoin g h.2⟩
  act := fun hx h hok hstep =>
    ⟨(hkeeps.act hx h.1 hok hstep).1, (hkeeps.act hx h.1 hok hstep).2,
      hact hx h.1 h.2 hok hstep⟩
  act_other := fun hx h hok hstep hj hother =>
    ⟨hkeeps.act_other hx h.1 hok hstep hj hother.1, hother.2⟩
  change := hkeeps.change
  change_other := fun hx hstep h => ⟨hkeeps.change_other hx hstep h.1, h.2⟩

omit [DecidableEq ι] in
/-- Another assertion about the shared state. -/
theorem Rules.Keeps.and_shared (hkeeps : P.Keeps ok inv own) {J : σ → Prop}
    (hact : ∀ {i b x t x' m}, inv x → own i x (.present t) → J x → ok i b x t →
      P.act i b x t = some (x', m) → J x')
    (hchange : ∀ {e x x'}, inv x → J x → P.change e x = some x' → J x') :
    P.Keeps ok (fun x => inv x ∧ J x) own where
  join := fun g hx h => hkeeps.join g hx.1 h
  act := fun hx h hok hstep =>
    ⟨⟨(hkeeps.act hx.1 h hok hstep).1, hact hx.1 h hx.2 hok hstep⟩,
      (hkeeps.act hx.1 h hok hstep).2⟩
  act_other := fun hx h hok hstep hj hother => hkeeps.act_other hx.1 h hok hstep hj hother
  change := fun hx hstep => ⟨hkeeps.change hx.1 hstep, hchange hx.1 hx.2 hstep⟩
  change_other := fun hx hstep h => hkeeps.change_other hx.1 hstep h

omit [DecidableEq ι] in
/-- A stronger guard. -/
theorem Rules.Keeps.guard (hkeeps : P.Keeps ok inv own) {ok' : ι → β → σ → τ → Prop}
    (hok : ∀ {i b x t}, ok' i b x t → ok i b x t) : P.Keeps ok' inv own where
  join := hkeeps.join
  act := fun hx h hok' => hkeeps.act hx h (hok hok')
  act_other := fun hx h hok' => hkeeps.act_other hx h (hok hok')
  change := hkeeps.change
  change_other := hkeeps.change_other

section Survives

variable (hkeeps : P.Keeps ok inv own)
  (hact : ∀ {i b x t}, inv x → own i x (.present t) → ok i b x t → (P.act i b x t).isSome)
  (hchange : ∀ {e x}, inv x → (P.change e x).isSome)
include hkeeps hact hchange

/-- If moreover no step that meets the guard is refused, the system survives every such event. -/
theorem Rules.Keeps.survives_step {s : System ι σ τ} {e : Event ι γ β ε} (hs : s.Holds inv own)
    (hok : Guarded ok s e) : ∃ s', P.step s e = some s' ∧ s'.Holds inv own := by
  have hsome : (P.step s e).isSome := by
    cases e with
    | join i g =>
        simp only [Rules.step]
        split <;> rfl
    | act i b =>
        simp only [Rules.step]
        split
        · rename_i t hm
          rw [Option.isSome_map]
          exact hact hs.shared (hm ▸ hs.member i) (hok t hm)
        · rfl
    | change e =>
        simp only [Rules.step, Option.isSome_map]
        exact hchange hs.shared
  obtain ⟨s', hstep⟩ := Option.isSome_iff_exists.mp hsome
  exact ⟨s', hstep, hkeeps.step hs hok hstep⟩

end Survives

/-- What every step of the parties does to the shared state is done by a run. -/
theorem shared_rel {R : σ → σ → Prop} (hrefl : ∀ x, R x x)
    (htrans : ∀ {x y z}, R x y → R y z → R x z)
    (hact : ∀ {i b x t x' m}, P.act i b x t = some (x', m) → R x x')
    (hchange : ∀ {e x x'}, P.change e x = some x' → R x x') {s s' : System ι σ τ}
    {events : List (Event ι γ β ε)} (hrun : Machine.runFrom P.step s events = some s') :
    R s.shared s'.shared := by
  refine Machine.runFrom_keeps (I := fun s₁ => R s.shared s₁.shared) ?_ (hrefl s.shared) hrun
  intro s₁ e s₂ hs₁ hstep
  refine htrans hs₁ ?_
  cases e with
  | join i g =>
      simp only [Rules.step] at hstep
      split at hstep
      · cases hstep
        exact hrefl _
      · cases hstep
        exact hrefl _
  | act i b =>
      simp only [Rules.step] at hstep
      split at hstep
      · obtain ⟨⟨x', m⟩, hx', rfl⟩ := Option.map_eq_some_iff.mp hstep
        exact hact hx'
      · cases hstep
        exact hrefl _
  | change e =>
      obtain ⟨x', hx', rfl⟩ := Option.map_eq_some_iff.mp hstep
      exact hchange hx'

/-! ## Two systems -/

/-- A party joins or acts. -/
def Event.isMove : Event ι γ β ε → Bool
  | .join _ _ => true
  | .act _ _ => true
  | .change _ => false

section Simulation

variable {σ' : Type*} {P' : Rules ι γ β ε σ' τ} {good : σ → Prop} {R : σ → σ' → Prop}

omit [DecidableEq ι] in
/-- The parties cannot tell one shared state from another that corresponds to it, as long as what
they make of the first one is good. Changes of a shared state alone do not matter. -/
structure Rules.Simulates (P : Rules ι γ β ε σ τ) (P' : Rules ι γ β ε σ' τ) (good : σ → Prop)
    (R : σ → σ' → Prop) : Prop where
  join : P'.join = P.join
  good_act : ∀ {i b x t x₁ m}, P.act i b x t = some (x₁, m) → good x₁ → good x
  good_change : ∀ {e x x₁}, P.change e x = some x₁ → good x₁ → good x
  act : ∀ {i b x x' t x₁ m}, R x x' → good x₁ → P.act i b x t = some (x₁, m) →
    ∃ x₁', P'.act i b x' t = some (x₁', m) ∧ R x₁ x₁'
  change_left : ∀ {e x x' x₁}, R x x' → P.change e x = some x₁ → R x₁ x'
  change_right : ∀ {e x x'}, R x x' → ∃ x₁', P'.change e x' = some x₁' ∧ R x x₁'

/-- What a run makes is good only if what it began with was. -/
theorem Rules.Simulates.good_of_run (h : P.Simulates P' good R) {s s₁ : System ι σ τ}
    {events : List (Event ι γ β ε)} (hrun : Machine.runFrom P.step s events = some s₁)
    (hgood : good s₁.shared) : good s.shared :=
  shared_rel (R := fun x x₁ => good x₁ → good x) (fun _ => id) (fun hxy hyz => hxy ∘ hyz)
    h.good_act h.good_change hrun hgood

/-- What a party does in one system, it does in the other. -/
theorem Rules.Simulates.move (h : P.Simulates P' good R) {s s₁ : System ι σ τ}
    {s' : System ι σ' τ} (hR : R s.shared s'.shared) (hmember : s'.member = s.member)
    {e : Event ι γ β ε} (he : e.isMove) (hstep : P.step s e = some s₁) (hgood : good s₁.shared) :
    ∃ s₁', P'.step s' e = some s₁' ∧ R s₁.shared s₁'.shared ∧ s₁'.member = s₁.member := by
  cases e with
  | join i g =>
      simp only [Rules.step, hmember, h.join] at hstep ⊢
      cases hm : s.member i <;> simp only [hm] at hstep ⊢ <;> cases hstep <;>
        exact ⟨_, rfl, hR, by simp [hmember]⟩
  | act i b =>
      simp only [Rules.step, hmember] at hstep ⊢
      cases hm : s.member i with
      | present t =>
          simp only [hm] at hstep ⊢
          obtain ⟨⟨x₁, m⟩, hact, rfl⟩ := Option.map_eq_some_iff.mp hstep
          obtain ⟨x₁', hact', hR₁⟩ := h.act hR hgood hact
          exact ⟨_, by rw [hact']; rfl, hR₁, rfl⟩
      | absent | left t =>
          simp only [hm] at hstep ⊢
          cases hstep
          exact ⟨s', rfl, hR, hmember⟩
  | change e => cases he

/-- The second system changes alone. -/
theorem Rules.Simulates.changes (h : P.Simulates P' good R) {x : σ} {s' : System ι σ' τ}
    (hR : R x s'.shared) {events : List (Event ι γ β ε)} (hevents : ∀ e ∈ events, ¬ e.isMove) :
    ∃ s₁', Machine.runFrom P'.step s' events = some s₁' ∧ R x s₁'.shared ∧
      s₁'.member = s'.member := by
  induction events generalizing s' with
  | nil => exact ⟨s', rfl, hR, rfl⟩
  | cons e events ih =>
      have hmove := hevents e List.mem_cons_self
      cases e with
      | join i g => exact absurd rfl hmove
      | act i b => exact absurd rfl hmove
      | change e =>
          obtain ⟨x', hchange, hR'⟩ := h.change_right (e := e) hR
          have hchanged : R x (System.mk x' s'.member).shared := hR'
          obtain ⟨s₁', hrun, hR₁, hmember⟩ :=
            ih hchanged fun e he => hevents e (List.mem_cons_of_mem _ he)
          refine ⟨s₁', Machine.runFrom_cons_eq_some.mpr ⟨_, ?_, hrun⟩, hR₁, hmember⟩
          simp only [Rules.step, hchange, Option.map_some]

/-- Parties that move alike find the two systems alike, whenever each of them changes alone. -/
theorem Rules.Simulates.run (h : P.Simulates P' good R) {s s₁ : System ι σ τ}
    {s' : System ι σ' τ} (hR : R s.shared s'.shared) (hmember : s'.member = s.member)
    {events events' : List (Event ι γ β ε)}
    (hevents : events'.filter Event.isMove = events.filter Event.isMove)
    (hrun : Machine.runFrom P.step s events = some s₁) (hgood : good s₁.shared) :
    ∃ s₁', Machine.runFrom P'.step s' events' = some s₁' ∧ R s₁.shared s₁'.shared ∧
      s₁'.member = s₁.member := by
  induction events generalizing s s' events' with
  | nil =>
      cases hrun
      obtain ⟨s₁', hrun', hR₁, hmember₁⟩ :=
        h.changes hR (List.filter_eq_nil_iff.mp hevents)
      exact ⟨s₁', hrun', hR₁, hmember₁.trans hmember⟩
  | cons e events ih =>
      obtain ⟨s₂, hstep, hrest⟩ := Machine.runFrom_cons_eq_some.mp hrun
      cases he : e.isMove with
      | false =>
          cases e with
          | join i g => cases he
          | act i b => cases he
          | change e =>
              obtain ⟨x₂, hchange, rfl⟩ := Option.map_eq_some_iff.mp hstep
              refine ih (s := { s with shared := x₂ }) (h.change_left hR hchange) hmember ?_ hrest
              rwa [List.filter_cons_of_neg (by simp [he])] at hevents
      | true =>
          -- what the second system does before the party moves in it
          rw [List.filter_cons_of_pos he] at hevents
          obtain ⟨before, after, rfl, hbefore, -, hafter⟩ := List.filter_eq_cons_iff.mp hevents
          obtain ⟨s₂', hbefore', hR₂, hmember₂⟩ := h.changes hR hbefore
          obtain ⟨s₃', hstep', hR₃, hmember₃⟩ :=
            h.move hR₂ (hmember₂.trans hmember) he hstep (h.good_of_run hrest hgood)
          obtain ⟨s₁', hafter', hR₁, hmember₁⟩ := ih hR₃ hmember₃ hafter hrest
          exact ⟨s₁', Machine.runFrom_append_eq_some.mpr ⟨s₂', hbefore',
            Machine.runFrom_cons_eq_some.mpr ⟨s₃', hstep', hafter'⟩⟩, hR₁, hmember₁⟩

end Simulation

/-! ## Two systems that do the same -/

omit [DecidableEq ι] in
/-- In the second system a party does the same to a shared state with an assertion if it meets the
guard, and otherwise the system is gone. So it is as long as what parties and changes make of the
shared state is good, and the assertion is kept then. -/
structure Rules.Agree (P P' : Rules ι γ β ε σ τ) (ok : ι → β → σ → τ → Prop)
    (good inv : σ → Prop) : Prop where
  join : P'.join = P.join
  good_act : ∀ {i b x t x₁ m}, P.act i b x t = some (x₁, m) ∨ P'.act i b x t = some (x₁, m) →
    good x₁ → good x
  good_change : ∀ {e x x₁}, P.change e x = some x₁ ∨ P'.change e x = some x₁ → good x₁ → good x
  act : ∀ {i b x t x₁ m}, inv x → good x₁ →
    (P'.act i b x t = some (x₁, m) ↔ ok i b x t ∧ P.act i b x t = some (x₁, m))
  change : ∀ {e x x₁}, inv x → good x₁ → (P'.change e x = some x₁ ↔ P.change e x = some x₁)
  inv_act : ∀ {i b x t x₁ m}, inv x → good x₁ → P.act i b x t = some (x₁, m) → inv x₁
  inv_change : ∀ {e x x₁}, inv x → good x₁ → P.change e x = some x₁ → inv x₁

section Agree

variable {P' : Rules ι γ β ε σ τ} {good : σ → Prop} {s s₁ : System ι σ τ}

/-- One event does the same in both systems. -/
theorem Rules.Agree.step_iff (h : P.Agree P' ok good inv) (hs : inv s.shared)
    (hgood : good s₁.shared) {e : Event ι γ β ε} :
    P'.step s e = some s₁ ↔ Guarded ok s e ∧ P.step s e = some s₁ := by
  cases e with
  | join i g => simp only [Rules.step, h.join, Guarded, true_and]
  | act i b =>
      simp only [Rules.step, Guarded]
      cases s.member i with
      | absent | left t => simp
      | present t =>
          simp only [Option.map_eq_some_iff, Member.present.injEq, forall_eq']
          constructor
          · rintro ⟨a, hact, rfl⟩
            obtain ⟨hok, hact⟩ := (h.act hs hgood).mp hact
            exact ⟨hok, a, hact, rfl⟩
          · rintro ⟨hok, a, hact, rfl⟩
            exact ⟨a, (h.act hs hgood).mpr ⟨hok, hact⟩, rfl⟩
  | change e =>
      simp only [Rules.step, Guarded, true_and, Option.map_eq_some_iff]
      constructor
      · rintro ⟨x, hchange, rfl⟩
        exact ⟨x, (h.change hs hgood).mp hchange, rfl⟩
      · rintro ⟨x, hchange, rfl⟩
        exact ⟨x, (h.change hs hgood).mpr hchange, rfl⟩

/-- It keeps the assertion. -/
theorem Rules.Agree.inv_step (h : P.Agree P' ok good inv) (hs : inv s.shared)
    (hgood : good s₁.shared) {e : Event ι γ β ε} (hstep : P.step s e = some s₁) :
    inv s₁.shared := by
  cases e with
  | join i g =>
      simp only [Rules.step] at hstep
      split at hstep <;> cases hstep <;> exact hs
  | act i b =>
      simp only [Rules.step] at hstep
      split at hstep
      · obtain ⟨a, hact, rfl⟩ := Option.map_eq_some_iff.mp hstep
        exact h.inv_act hs hgood hact
      · cases hstep
        exact hs
  | change e =>
      obtain ⟨x, hchange, rfl⟩ := Option.map_eq_some_iff.mp hstep
      exact h.inv_change hs hgood hchange

/-- What either system makes is good only if what it began with was. -/
theorem Rules.Agree.good_of_run (h : P.Agree P' ok good inv) {events : List (Event ι γ β ε)}
    (hgood : good s₁.shared) :
    (Machine.runFrom P.step s events = some s₁ → good s.shared) ∧
      (Machine.runFrom P'.step s events = some s₁ → good s.shared) := by
  constructor
  · intro hrun
    exact shared_rel (R := fun x x₁ => good x₁ → good x) (fun _ => id) (fun hxy hyz => hxy ∘ hyz)
      (fun hact => h.good_act (.inl hact)) (fun hchange => h.good_change (.inl hchange)) hrun hgood
  · intro hrun
    exact shared_rel (R := fun x x₁ => good x₁ → good x) (fun _ => id) (fun hxy hyz => hxy ∘ hyz)
      (fun hact => h.good_act (.inr hact)) (fun hchange => h.good_change (.inr hchange)) hrun hgood

/-- An interleaving that leads to something good is one of the second system exactly if it is one of
the first, and all parties that act meet the guard. -/
theorem Rules.Agree.run_iff (h : P.Agree P' ok good inv) (hs : inv s.shared)
    (hgood : good s₁.shared) {events : List (Event ι γ β ε)} :
    Machine.runFrom P'.step s events = some s₁ ↔
      Machine.Along P.step (Guarded ok) s events ∧ Machine.runFrom P.step s events = some s₁ := by
  induction events generalizing s with
  | nil => simp [Machine.Along]
  | cons e events ih =>
      rw [Machine.runFrom_cons_eq_some, Machine.runFrom_cons_eq_some]
      constructor
      · rintro ⟨s₂, hstep, hrest⟩
        have hgood₂ := (h.good_of_run hgood).2 hrest
        obtain ⟨hguard, hstep⟩ := (h.step_iff hs hgood₂).mp hstep
        obtain ⟨halong, hrest⟩ := (ih (h.inv_step hs hgood₂ hstep)).mp hrest
        refine ⟨⟨hguard, fun s₃ hstep' => ?_⟩, s₂, hstep, hrest⟩
        obtain rfl : s₂ = s₃ := Option.some.inj (hstep.symm.trans hstep')
        exact halong
      · rintro ⟨⟨hguard, halong⟩, s₂, hstep, hrest⟩
        have hgood₂ := (h.good_of_run hgood).1 hrest
        exact ⟨s₂, (h.step_iff hs hgood₂).mpr ⟨hguard, hstep⟩,
          (ih (h.inv_step hs hgood₂ hstep)).mpr ⟨halong s₂ hstep, hrest⟩⟩

/-- If the first system survives every event that meets a stronger guard, and what it makes is good,
then the second survives every interleaving of such events. -/
theorem Rules.Agree.survives (h : P.Agree P' ok good inv) {ok' : ι → β → σ → τ → Prop}
    {J : σ → Prop} (hkeeps : P.Keeps ok' J own) (hJ : ∀ {x}, J x → good x ∧ inv x)
    (hok : ∀ {i b x t}, J x → own i x (.present t) → ok' i b x t → ok i b x t)
    (hact : ∀ {i b x t}, J x → own i x (.present t) → ok' i b x t → (P.act i b x t).isSome)
    (hchange : ∀ {e x}, J x → (P.change e x).isSome) {events : List (Event ι γ β ε)}
    (hs : s.Holds J own) (halong : Machine.Along P'.step (Guarded ok') s events) :
    ∃ s', Machine.runFrom P'.step s events = some s' ∧ s'.Holds J own := by
  refine Machine.runFrom_total ?_ hs halong
  intro s e hs hguard
  obtain ⟨s', hstep, hs'⟩ := hkeeps.survives_step hact hchange hs hguard
  have hguard' : Guarded ok s e := by
    cases e with
    | join | change => trivial
    | act i b => exact fun t ht => hok hs.shared (ht ▸ hs.member i) (hguard t ht)
  exact ⟨s', (h.step_iff (hJ hs.shared).2 (hJ hs'.shared).1).mpr ⟨hguard', hstep⟩, hs'⟩

end Agree

/-! ## Two runs of one system -/

/-- Two parties that take part alike, in states that correspond. -/
inductive Member.Related (R : τ → τ → Prop) : Member τ → Member τ → Prop
  | absent : Related R .absent .absent
  | present {t t' : τ} : R t t' → Related R (.present t) (.present t')
  | left {t t' : τ} : R t t' → Related R (.left t) (.left t')

/-- The shared state is the same, and the parties correspond. -/
structure System.Related (R : τ → τ → Prop) (s s' : System ι σ τ) : Prop where
  shared_eq : s'.shared = s.shared
  member : ∀ i, (s.member i).Related R (s'.member i)

/-- Two events that differ at most in what a party joins with. -/
inductive Event.SameButJoin : Event ι γ β ε → Event ι γ β ε → Prop
  | join (i : ι) (g g' : γ) : SameButJoin (.join i g) (.join i g')
  | act (i : ι) (b : β) : SameButJoin (.act i b) (.act i b)
  | change (e : ε) : SameButJoin (.change e) (.change e)

omit [DecidableEq ι] in
/-- Whatever parties join with, their states correspond, and parties whose states correspond do the
same to the shared state. -/
structure Rules.Respects (P : Rules ι γ β ε σ τ) (R : τ → τ → Prop) : Prop where
  join : ∀ g g', R (P.join g) (P.join g')
  act : ∀ {i b x t t'}, R t t' →
    Option.Rel (fun a a' => a'.1 = a.1 ∧ Member.Related R a.2 a'.2) (P.act i b x t) (P.act i b x t')

section Respects

variable {R : τ → τ → Prop} {s s' : System ι σ τ}

theorem System.Related.update (h : s.Related R s') {i : ι} {m m' : Member τ} (hm : m.Related R m')
    {x : σ} : System.Related R ⟨x, Function.update s.member i m⟩
      ⟨x, Function.update s'.member i m'⟩ where
  shared_eq := rfl
  member := fun j => by
    show Member.Related R (Function.update s.member i m j) (Function.update s'.member i m' j)
    by_cases hj : j = i
    · subst hj
      rwa [Function.update_self, Function.update_self]
    · rw [Function.update_of_ne hj, Function.update_of_ne hj]
      exact h.member j

/-- One event, whatever a party joins with. -/
theorem Rules.Respects.step (h : P.Respects R) (hs : s.Related R s') {e e' : Event ι γ β ε}
    (he : e.SameButJoin e') : Option.Rel (System.Related R) (P.step s e) (P.step s' e') := by
  cases he with
  | join i g g' =>
      have hi := hs.member i
      simp only [Rules.step]
      generalize hm : s.member i = m at hi
      generalize hm' : s'.member i = m' at hi
      cases hi with
      | absent =>
          have hjoined := hs.update (i := i) (x := s.shared) (.present (h.join g g'))
          dsimp only
          rw [hs.shared_eq]
          exact .some hjoined
      | present ht => exact .some hs
      | left ht => exact .some hs
  | act i b =>
      have hi := hs.member i
      simp only [Rules.step]
      generalize hm : s.member i = m at hi
      generalize hm' : s'.member i = m' at hi
      cases hi with
      | absent => exact .some hs
      | left ht => exact .some hs
      | @present t t' ht =>
          dsimp only
          rw [hs.shared_eq]
          have hact := h.act (i := i) (b := b) (x := s.shared) ht
          generalize P.act i b s.shared t = a at hact ⊢
          generalize P.act i b s.shared t' = a' at hact ⊢
          cases hact with
          | none => exact .none
          | some hsome =>
              obtain ⟨hx, hmember⟩ := hsome
              simp only [Option.map_some, hx]
              exact .some (hs.update hmember)
  | change e =>
      simp only [Rules.step, hs.shared_eq]
      cases P.change e s.shared with
      | none => exact .none
      | some x => exact .some ⟨rfl, hs.member⟩

/-- Two interleavings that differ at most in what parties join with. -/
theorem Rules.Respects.run (h : P.Respects R) (hs : s.Related R s')
    {events events' : List (Event ι γ β ε)}
    (hevents : List.Forall₂ Event.SameButJoin events events') :
    Option.Rel (System.Related R) (Machine.runFrom P.step s events)
      (Machine.runFrom P.step s' events') := by
  induction hevents generalizing s s' with
  | nil => exact .some hs
  | @cons e e' events events' he _ ih =>
      have hstep := h.step hs he
      simp only [Machine.runFrom]
      generalize P.step s e = s₁ at hstep ⊢
      generalize P.step s' e' = s₁' at hstep ⊢
      cases hstep with
      | none => exact .none
      | some hs₁ => exact ih hs₁

end Respects

end Parties
