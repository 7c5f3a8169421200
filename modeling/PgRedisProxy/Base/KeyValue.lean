import Mathlib.Data.Finset.Card
import Mathlib.Data.List.Induction
import Mathlib.Logic.Function.Basic

/-!
# Key/value maps, overlays, and replayed logs

A write stores or deletes one key. `replay` applies a log of writes in order, and
`lastWrite` is what a log last says about each key; `replay_eq_overlay` relates
the two. `overlay cache m` reads a key from `cache` when it has an entry there,
live or deleted, and from `m` otherwise. `overlay_replay` is the reason a cache in
front of a map hides a log being replayed behind it.
-/

namespace KeyValue

variable {K V : Type*} [DecidableEq K]

/-- A key/value map. -/
abbrev Map (K V : Type*) := K → Option V

/-- A write of one key: `some v` stores `v`, `none` deletes the key. -/
abbrev Write (K V : Type*) := K × Option V

/-- Partial knowledge of a map: an entry is the value of a key or the mark that it is deleted. -/
abbrev Entries (K V : Type*) := K → Option (Option V)

/-- `m` after one write. -/
def applyWrite (m : Map K V) (w : Write K V) : Map K V :=
  Function.update m w.1 w.2

/-- `m` after the writes of a log, first to last. -/
def replay (m : Map K V) (log : List (Write K V)) : Map K V :=
  log.foldl applyWrite m

/-- What a log last writes to each key. -/
def lastWrite (log : List (Write K V)) : Entries K V :=
  log.foldl (fun entries w => Function.update entries w.1 (some w.2)) fun _ => none

/-- The map that reads entries first and the underlying map where there is none. -/
def overlay (entries : Entries K V) (m : Map K V) : Map K V :=
  fun k => (entries k).getD (m k)

omit [DecidableEq K] in
theorem overlay_of_some {entries : Entries K V} {m : Map K V} {k : K} {w : Option V}
    (h : entries k = some w) : overlay entries m k = w := by
  simp [overlay, h]

omit [DecidableEq K] in
theorem overlay_of_none {entries : Entries K V} {m : Map K V} {k : K}
    (h : entries k = none) : overlay entries m k = m k := by
  simp [overlay, h]

/-- A new entry is a write to the overlaid map. -/
theorem overlay_update_entries (entries : Entries K V) (m : Map K V) (k : K) (w : Option V) :
    overlay (Function.update entries k (some w)) m = applyWrite (overlay entries m) (k, w) := by
  funext j
  by_cases hj : j = k
  · subst hj
    simp [overlay, applyWrite]
  · simp [overlay, applyWrite, hj]

/-- A write below a key without an entry shows through. -/
theorem overlay_applyWrite {entries : Entries K V} {m : Map K V} {w : Write K V}
    (h : entries w.1 = none) :
    overlay entries (applyWrite m w) = applyWrite (overlay entries m) w := by
  funext j
  by_cases hj : j = w.1
  · subst hj
    simp [overlay, applyWrite, h]
  · simp [overlay, applyWrite, hj]

/-- A write below a key with an entry does not show through. -/
theorem overlay_applyWrite_of_isSome {entries : Entries K V} {m : Map K V} {w : Write K V}
    (h : (entries w.1).isSome) : overlay entries (applyWrite m w) = overlay entries m := by
  obtain ⟨value, hvalue⟩ := Option.isSome_iff_exists.mp h
  funext j
  by_cases hj : j = w.1
  · subst hj
    simp [overlay, hvalue]
  · simp [overlay, applyWrite, hj]

/-! ## Logs -/

@[simp] theorem replay_nil (m : Map K V) : replay m [] = m := rfl

@[simp] theorem replay_cons (m : Map K V) (w : Write K V) (log : List (Write K V)) :
    replay m (w :: log) = replay (applyWrite m w) log := rfl

@[simp] theorem replay_concat (m : Map K V) (log : List (Write K V)) (w : Write K V) :
    replay m (log ++ [w]) = applyWrite (replay m log) w := by
  simp [replay]

@[simp] theorem lastWrite_nil : lastWrite ([] : List (Write K V)) = fun _ => none := rfl

@[simp] theorem lastWrite_concat (log : List (Write K V)) (w : Write K V) :
    lastWrite (log ++ [w]) = Function.update (lastWrite log) w.1 (some w.2) := by
  simp [lastWrite]

/-- A log says something about exactly the keys it writes. -/
theorem lastWrite_isSome_iff {log : List (Write K V)} {k : K} :
    (lastWrite log k).isSome ↔ ∃ w ∈ log, w.1 = k := by
  induction log using List.reverseRecOn with
  | nil => simp
  | append_singleton log w ih =>
      rw [lastWrite_concat]
      by_cases hk : k = w.1
      · subst hk
        simp
      · rw [Function.update_of_ne hk, ih]
        constructor
        · rintro ⟨u, hu, rfl⟩
          exact ⟨u, List.mem_append_left _ hu, rfl⟩
        · rintro ⟨u, hu, rfl⟩
          rcases List.mem_append.mp hu with hu | hu
          · exact ⟨u, hu, rfl⟩
          · exact absurd (congrArg Prod.fst (List.mem_singleton.mp hu)) hk

/-- Replaying a log overlays what it last writes to each key. -/
theorem replay_eq_overlay (m : Map K V) (log : List (Write K V)) :
    replay m log = overlay (lastWrite log) m := by
  induction log using List.reverseRecOn with
  | nil => rfl
  | append_singleton log w ih =>
      rw [replay_concat, lastWrite_concat, overlay_update_entries, ih]

/-- Replaying does not touch a key the log does not write. -/
theorem replay_of_notMem {m : Map K V} {log : List (Write K V)} {k : K}
    (h : ∀ w ∈ log, w.1 ≠ k) : replay m log k = m k := by
  rw [replay_eq_overlay, overlay_of_none]
  rw [← Option.not_isSome_iff_eq_none, lastWrite_isSome_iff]
  rintro ⟨w, hw, hk⟩
  exact h w hw hk

/-- A write before a log that does not write its key can be made after it. -/
theorem replay_applyWrite_of_notMem {log : List (Write K V)} {w : Write K V}
    (h : ∀ u ∈ log, u.1 ≠ w.1) (m : Map K V) :
    replay (applyWrite m w) log = applyWrite (replay m log) w := by
  have hnone : lastWrite log w.1 = none := by
    rw [← Option.not_isSome_iff_eq_none, lastWrite_isSome_iff]
    rintro ⟨u, hu, hk⟩
    exact h u hu hk
  rw [replay_eq_overlay, replay_eq_overlay, overlay_applyWrite hnone]

/-- A write before a log that writes its key is lost. -/
theorem replay_applyWrite_of_mem {log : List (Write K V)} {w : Write K V}
    (h : ∃ u ∈ log, u.1 = w.1) (m : Map K V) : replay (applyWrite m w) log = replay m log := by
  rw [replay_eq_overlay, replay_eq_overlay,
    overlay_applyWrite_of_isSome (lastWrite_isSome_iff.mpr h)]

/-- What a replayed log leaves in a key it writes is what some write of it stores there. -/
theorem exists_mem_of_replay {log : List (Write K V)} {k : K} (h : ∃ w ∈ log, w.1 = k)
    (m : Map K V) : ∃ w ∈ log, w.1 = k ∧ replay m log k = w.2 := by
  induction log using List.reverseRecOn with
  | nil => simp at h
  | append_singleton log w ih =>
      by_cases hk : w.1 = k
      · exact ⟨w, by simp, hk, by simp [applyWrite, ← hk]⟩
      · obtain ⟨u, hu, huk⟩ := h
        have hmem : u ∈ log := by
          rcases List.mem_append.mp hu with hu | hu
          · exact hu
          · exact absurd huk (List.mem_singleton.mp hu ▸ hk)
        obtain ⟨w', hw', hk', hvalue⟩ := ih ⟨u, hmem, huk⟩
        refine ⟨w', List.mem_append_left _ hw', hk', ?_⟩
        rw [replay_concat, applyWrite, Function.update_of_ne (Ne.symm hk), hvalue]

/-- A log whose keys all have entries can be replayed below them without showing through. -/
theorem overlay_replay {entries : Entries K V} {log : List (Write K V)}
    (h : ∀ w ∈ log, (entries w.1).isSome) (m : Map K V) :
    overlay entries (replay m log) = overlay entries m := by
  induction log generalizing m with
  | nil => rfl
  | cons w log ih =>
      rw [replay_cons, ih (fun u hu => h u (List.mem_cons_of_mem _ hu)),
        overlay_applyWrite_of_isSome (h w List.mem_cons_self)]

/-! ## The writes of one key -/

/-- What a log writes to a key, first to last. -/
def valuesOf (k : K) (log : List (Write K V)) : List (Option V) :=
  log.filterMap fun w => if w.1 = k then some w.2 else none

/-- The last of some values of a key, or the one before them. -/
def lastValue (v : Option V) (values : List (Option V)) : Option V :=
  values.getLast?.getD v

@[simp] theorem valuesOf_nil (k : K) : valuesOf k ([] : List (Write K V)) = [] := rfl

@[simp] theorem valuesOf_append (k : K) (first second : List (Write K V)) :
    valuesOf k (first ++ second) = valuesOf k first ++ valuesOf k second := by
  simp [valuesOf]

@[simp] theorem valuesOf_self (k : K) (v : Option V) : valuesOf k [(k, v)] = [v] := by
  simp [valuesOf]

theorem valuesOf_of_ne {k : K} {w : Write K V} (h : w.1 ≠ k) : valuesOf k [w] = [] := by
  simp [valuesOf, h]

theorem length_valuesOf_le (k : K) (log : List (Write K V)) :
    (valuesOf k log).length ≤ log.length :=
  List.length_filterMap_le _ _

/-- A log without writes of a key. -/
theorem valuesOf_eq_nil {k : K} {log : List (Write K V)} (h : ∀ w ∈ log, w.1 ≠ k) :
    valuesOf k log = [] := by
  rw [valuesOf, List.filterMap_eq_nil_iff]
  intro w hw
  rw [if_neg (h w hw)]

omit [DecidableEq K] in
@[simp] theorem lastValue_concat (v w : Option V) (values : List (Option V)) :
    lastValue v (values ++ [w]) = w := by
  simp [lastValue]

omit [DecidableEq K] in
theorem lastValue_append (v : Option V) (first second : List (Option V)) :
    lastValue v (first ++ second) = lastValue (lastValue v first) second := by
  rcases List.eq_nil_or_concat' second with rfl | ⟨second, last, rfl⟩
  · simp [lastValue]
  · rw [← List.append_assoc, lastValue_concat, lastValue_concat]

omit [DecidableEq K] in
/-- The last value of a list is that of each suffix that is not empty. -/
theorem lastValue_of_suffix {v v' : Option V} {values rest : List (Option V)}
    (hsuffix : rest <:+ values) (hne : rest ≠ []) : lastValue v rest = lastValue v' values := by
  obtain ⟨before, rfl⟩ := hsuffix
  simp [lastValue, List.getLast?_append, List.getLast?_eq_some_getLast hne]

/-- What a replayed log leaves in a key is the last value it writes there. -/
theorem replay_eq_lastValue (m : Map K V) (log : List (Write K V)) (k : K) :
    replay m log k = lastValue (m k) (valuesOf k log) := by
  induction log using List.reverseRecOn with
  | nil => rfl
  | append_singleton log w ih =>
      rw [replay_concat, valuesOf_append]
      by_cases hk : w.1 = k
      · obtain ⟨key, value⟩ := w
        obtain rfl : key = k := hk
        simp [applyWrite]
      · rw [valuesOf_of_ne hk, List.append_nil, applyWrite, Function.update_of_ne (Ne.symm hk), ih]

/-! ## Deleting several keys -/

/-- `m` without the listed keys. -/
def eraseAll (m : Map K V) (keys : List K) : Map K V :=
  keys.foldl (fun m k => applyWrite m (k, none)) m

/-- The number of distinct listed keys that are present in `m`. -/
def countPresent (m : Map K V) (keys : List K) : Nat :=
  (keys.toFinset.filter fun k => (m k).isSome).card

/-- Deleting the keys one after the other counts each key that is present once. -/
theorem countPresent_cons (m : Map K V) (k : K) (keys : List K) :
    countPresent m (k :: keys) =
      (if (m k).isSome then 1 else 0) + countPresent (applyWrite m (k, none)) keys := by
  have herase : (keys.toFinset.filter fun j => (applyWrite m (k, none) j).isSome) =
      (keys.toFinset.filter fun j => (m j).isSome).erase k := by
    ext j
    rw [Finset.mem_filter, Finset.mem_erase, Finset.mem_filter]
    by_cases hj : j = k
    · simp [applyWrite, hj]
    · simp [applyWrite, hj]
  unfold countPresent
  rw [herase, List.toFinset_cons, Finset.filter_insert]
  by_cases hk : (m k).isSome = true
  · rw [if_pos hk, if_pos hk, ← Finset.card_erase_add_one (Finset.mem_insert_self k _),
      Finset.erase_insert_eq_erase, Nat.add_comm]
  · have hmem : k ∉ keys.toFinset.filter fun j => (m j).isSome := by simp [hk]
    rw [if_neg hk, if_neg hk, Finset.erase_eq_of_notMem hmem, Nat.zero_add]

end KeyValue
