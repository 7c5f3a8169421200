import Mathlib.Data.List.Perm.Basic
import Mathlib.Data.List.Nodup

/-!
# Allocated objects

A heap says of each object that was ever allocated whether it is still live; a pointer
is the number of the object's allocation. Using or freeing an object that is not live is
an access that is not allowed. `Owns` says that the live objects are exactly these,
each of them once; its rules say what allocating and freeing make of it.
-/

namespace CLang

/-- Whether each object, in the order of their allocation, is live. -/
abbrev Heap := List Bool

namespace Heap

/-- The object is allocated and not freed. -/
def Live (h : Heap) (p : Nat) : Prop :=
  h[p]? = some true

instance (h : Heap) (p : Nat) : Decidable (h.Live p) :=
  inferInstanceAs (Decidable (_ = _))

/-- `malloc`, of any size and with success: the new object and the heap with it. -/
def malloc (h : Heap) : Nat × Heap :=
  (h.length, h ++ [true])

/-- An access to an object. -/
def use (h : Heap) (p : Nat) : Option Unit :=
  if h.Live p then some () else none

/-- `free(p)` for a pointer that is not null -/
def free (h : Heap) (p : Nat) : Option Heap :=
  if h.Live p then some (h.set p false) else none

/-- `free(p)`, which does nothing for a null pointer -/
def freePtr (h : Heap) : Option Nat → Option Heap
  | none => some h
  | some p => h.free p

/-- The live objects are exactly these, each of them once. -/
structure Owns (h : Heap) (ps : List Nat) : Prop where
  nodup : ps.Nodup
  live_iff : ∀ p, h.Live p ↔ p ∈ ps

section Owns

variable {h : Heap} {p : Nat} {ps qs : List Nat}

theorem Owns.perm (howns : h.Owns ps) (hperm : ps.Perm qs) : h.Owns qs :=
  ⟨hperm.nodup_iff.mp howns.nodup, fun p => (howns.live_iff p).trans hperm.mem_iff⟩

/-- What is owned can be used. -/
theorem Owns.use_eq (howns : h.Owns ps) (hp : p ∈ ps) : h.use p = some () :=
  if_pos ((howns.live_iff p).mpr hp)

/-- What is not owned cannot. -/
theorem Owns.use_eq_none (howns : h.Owns ps) (hp : p ∉ ps) : h.use p = none :=
  if_neg fun hlive => hp ((howns.live_iff p).mp hlive)

/-- A new object is owned besides those before. -/
theorem Owns.malloc (howns : h.Owns ps) : h.malloc.2.Owns (h.malloc.1 :: ps) := by
  have hfresh : ∀ q, h.Live q → q < h.length := fun q hq => (List.getElem?_eq_some_iff.mp hq).1
  refine ⟨List.nodup_cons.mpr ⟨fun hmem => ?_, howns.nodup⟩, fun q => ?_⟩
  · exact absurd (hfresh _ ((howns.live_iff _).mpr hmem)) (Nat.lt_irrefl _)
  · rw [List.mem_cons, ← howns.live_iff]
    show (h ++ [true])[q]? = some true ↔ q = h.length ∨ h[q]? = some true
    rcases Nat.lt_trichotomy q h.length with hlt | rfl | hgt
    · rw [List.getElem?_append_left hlt]
      exact ⟨.inr, fun hq => hq.resolve_left (Nat.ne_of_lt hlt)⟩
    · simp
    · rw [List.getElem?_eq_none (by simp; omega), List.getElem?_eq_none (by omega)]
      simp [Nat.ne_of_gt hgt]

/-- A freed object is not owned any more. -/
theorem Owns.free (howns : h.Owns (p :: ps)) :
    h.free p = some (h.set p false) ∧ Owns (h.set p false) ps := by
  obtain ⟨hp, hnodup⟩ := List.nodup_cons.mp howns.nodup
  have hlive := (howns.live_iff p).mpr List.mem_cons_self
  refine ⟨if_pos hlive, hnodup, fun q => ?_⟩
  show (h.set p false)[q]? = some true ↔ q ∈ ps
  by_cases hq : p = q
  · subst hq
    have hlt : p < h.length := (List.getElem?_eq_some_iff.mp hlive).1
    simp [List.getElem?_set_self hlt, hp]
  · rw [List.getElem?_set_ne hq]
    have hothers := howns.live_iff q
    rw [List.mem_cons] at hothers
    exact hothers.trans (or_iff_right (Ne.symm hq))

/-- A pointer that may be null is freed. -/
theorem Owns.freePtr {ptr : Option Nat} (howns : h.Owns (ptr.toList ++ ps)) :
    ∃ h', h.freePtr ptr = some h' ∧ h'.Owns ps := by
  cases ptr with
  | none => exact ⟨h, rfl, howns⟩
  | some p => exact ⟨_, howns.free.1, howns.free.2⟩

end Owns

end Heap

end CLang
