import Mathlib.Tactic.TypeStar

/-!
# Accesses to arrays

An access reads or writes some elements of an array, one after the other. It is inside if
the array has all of them, which is a question of its size alone. `AllInside` says so of
every access that a piece of code makes.
-/

namespace CLang

/-- An access to `count` elements of an array, from the element `off` on. -/
structure Access (β : Type*) where
  object : β
  off : Nat
  count : Nat
  deriving DecidableEq

variable {β : Type*} (size : β → Nat)

/-- The array has the elements. -/
def Access.Inside (a : Access β) : Prop :=
  a.off + a.count ≤ size a.object

/-- All accesses are inside. -/
def AllInside (as : List (Access β)) : Prop :=
  ∀ a ∈ as, a.Inside size

instance (a : Access β) : Decidable (a.Inside size) :=
  inferInstanceAs (Decidable (_ ≤ _))

instance (as : List (Access β)) : Decidable (AllInside size as) :=
  inferInstanceAs (Decidable (∀ a ∈ as, a.Inside size))

variable {size}

@[simp] theorem allInside_nil : AllInside size [] :=
  fun _ ha => absurd ha List.not_mem_nil

@[simp] theorem allInside_cons {a : Access β} {as : List (Access β)} :
    AllInside size (a :: as) ↔ a.off + a.count ≤ size a.object ∧ AllInside size as :=
  List.forall_mem_cons

@[simp] theorem allInside_append {as bs : List (Access β)} :
    AllInside size (as ++ bs) ↔ AllInside size as ∧ AllInside size bs :=
  List.forall_mem_append

end CLang
