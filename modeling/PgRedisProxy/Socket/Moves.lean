import PgRedisProxy.Base.Runs
import PgRedisProxy.Socket.Decoding

/-!
# Read events as a run

`Handler.move` is one thing that happens to the locals and the host of a connection:
`on_read_cb` is called, or it hands a request over. `decodes_iff_runFrom` says that
requests are decoded exactly if the worker comes back from all of them but the last, in
a run on the requests that the read events complete.
-/

namespace PgRedisProxy

open Resp

/-- What happens to the locals and the host: `on_read_cb` is called, with fresh locals, or a request
is handed over. -/
inductive Move where
  | event
  | request (d : Delivery)

/-- The calls of `on_read_cb` and the requests of some read events. -/
def movesOf (events : List (List Delivery)) : List Move :=
  events.flatMap fun ds => .event :: ds.map .request

/-- The read events without the last of all their requests. -/
def butLast {α : Type*} : List (List α) → List (List α)
  | [] => []
  | ds :: events => if events.flatten = [] then ds.dropLast :: events else ds :: butLast events

section Moves

variable {L H : Type*} {h : Handler L H}

/-- One move, unless the worker does not come back. -/
def Handler.move (h : Handler L H) (s : L × H) : Move → Option (L × H)
  | .event => some (h.fresh, s.2)
  | .request d => h.serve s.1 s.2 d

theorem Handler.attempt_eq_runFrom (l : L) (host : H) (ds : List Delivery) :
    (h.attempt l host ds).2 = Machine.runFrom h.move (l, host) (ds.map .request) := by
  induction ds generalizing l host with
  | nil => rfl
  | cons d ds ih =>
      simp only [Handler.attempt, List.map_cons, Machine.runFrom, Handler.move]
      cases h.serve l host d with
      | none => rfl
      | some next => exact ih next.1 next.2

theorem Handler.attemptAll_eq_runFrom (l : L) (host : H) (events : List (List Delivery)) :
    (h.attemptAll host events).2 =
      (Machine.runFrom h.move (l, host) (movesOf events)).map Prod.snd := by
  induction events generalizing l host with
  | nil => rfl
  | cons ds events ih =>
      have hds := attempt_eq_runFrom h.fresh host ds (h := h)
      have hmoves : movesOf (ds :: events) = .event :: (ds.map .request ++ movesOf events) := rfl
      rw [hmoves, Machine.runFrom, Handler.move, Option.bind_some, Machine.runFrom_append, ← hds]
      simp only [Handler.attemptAll]
      cases h.attempt h.fresh host ds with
      | mk made next =>
          cases next with
          | none => rfl
          | some next => exact ih next.1 next.2

/-- All requests are handed over exactly if the worker comes back from all but the last. -/
theorem Handler.attempt_eq_iff (l : L) (host : H) (ds : List Delivery) :
    (h.attempt l host ds).1 = ds ↔ (h.attempt l host ds.dropLast).2.isSome := by
  induction ds generalizing l host with
  | nil => simp [Handler.attempt]
  | cons d ds ih =>
      cases ds with
      | nil =>
          have hmade : (h.attempt l host [d]).1 = [d] := by
            simp only [Handler.attempt]
            cases h.serve l host d <;> rfl
          exact iff_of_true hmade rfl
      | cons d' ds =>
          rw [List.dropLast_cons_cons, Handler.attempt.eq_2, Handler.attempt.eq_2]
          cases h.serve l host d with
          | none => simp
          | some next => simpa using ih next.1 next.2

theorem Handler.attemptAll_of_flatten_eq_nil (host : H) {events : List (List Delivery)}
    (hevents : events.flatten = []) : h.attemptAll host events = ([], some host) := by
  induction events generalizing host with
  | nil => rfl
  | cons ds events ih =>
      obtain ⟨rfl, hrest⟩ := List.append_eq_nil_iff.mp hevents
      simp [Handler.attemptAll, Handler.attempt, ih host hrest]

/-- The same for the requests of several read events. -/
theorem Handler.attemptAll_eq_iff (host : H) (events : List (List Delivery)) :
    (h.attemptAll host events).1 = events.flatten ↔
      (h.attemptAll host (butLast events)).2.isSome := by
  induction events generalizing host with
  | nil => simp [Handler.attemptAll, butLast]
  | cons ds events ih =>
      by_cases hlast : events.flatten = []
      · have hmade : (h.attemptAll host (ds :: events)).1 = (h.attempt h.fresh host ds).1 := by
          rw [Handler.attemptAll]
          rcases h.attempt h.fresh host ds with ⟨made, _ | next⟩
          · rfl
          · simp [attemptAll_of_flatten_eq_nil next.2 hlast]
        have hnext : (h.attemptAll host (ds.dropLast :: events)).2.isSome =
            (h.attempt h.fresh host ds.dropLast).2.isSome := by
          rw [Handler.attemptAll]
          rcases h.attempt h.fresh host ds.dropLast with ⟨made, _ | next⟩
          · rfl
          · simp [attemptAll_of_flatten_eq_nil next.2 hlast]
        rw [butLast, if_pos hlast, List.flatten_cons, hlast, List.append_nil, hmade, hnext]
        exact attempt_eq_iff h.fresh host ds
      · rw [butLast, if_neg hlast, Handler.attemptAll, Handler.attemptAll]
        cases hattempt : h.attempt h.fresh host ds with
        | mk made next =>
            cases next with
            | none =>
                -- the requests of the later events are missing
                refine iff_of_false (fun heq => ?_) (by simp)
                have hprefix := h.attempt_prefix h.fresh host ds
                rw [hattempt] at hprefix
                have hle : made.length ≤ ds.length := hprefix.length_le
                have hlength := congrArg List.length heq
                have hpos := List.length_pos_of_ne_nil hlast
                simp only [List.flatten_cons, List.length_append] at hlength
                omega
            | some next =>
                rw [h.attempt_eq_of_some hattempt]
                simpa using ih next.2

theorem butLast_map {α β : Type*} (f : α → β) (events : List (List α)) :
    butLast (events.map (List.map f)) = (butLast events).map (List.map f) := by
  induction events with
  | nil => rfl
  | cons ds events ih =>
      simp only [List.map_cons, butLast, ← List.map_flatten, List.map_eq_nil_iff]
      split
      · simp
      · simp [ih]

/-- The requests of a stream all arrive. -/
theorem arrivals_flatten_eq {requests : List Request} {events : List (List UInt8)}
    (hstream : events.flatten = requests.flatMap encodeRequest) :
    (arrivals requests 0 events).flatten = requests := by
  have hremaining : Remaining requests (events.flatten ++ []) := by
    rw [List.append_nil, hstream]
    exact remaining_all requests
  have hlength : 0 + (events.flatten ++ []).length = (requests.flatMap encodeRequest).length := by
    rw [List.append_nil, hstream, Nat.zero_add]
  have hflatten := arrivals_flatten (List.nil_append requests).symm hremaining hlength
  have hall : completed (requests ++ []) (0 + events.flatten.length) = requests :=
    Remaining.done.completed_eq (by simp [hstream])
  rw [List.append_nil] at hall
  rwa [List.nil_append, hall] at hflatten

/-- The calls of `on_read_cb` for a stream, and the requests it hands over in them, but the last. -/
def movesOfStream (requests : List Request) (events : List (List UInt8)) : List Move :=
  movesOf ((butLast (arrivals requests 0 events)).map (List.map deliver))

/-- Decoding undoes encoding exactly if the worker comes back from all requests but the last. -/
theorem decodes_iff_runFrom {c : Conn UInt8 H} (hc : c.Accepted) {requests : List Request}
    (hrequests : ∀ request ∈ requests, WellFormed request) {events : List (List UInt8)}
    (hreads : Reads events) (hstream : events.flatten = requests.flatMap encodeRequest) :
    Decodes h c requests events ↔
      (Machine.runFrom h.move (h.fresh, c.host) (movesOfStream requests events)).isSome := by
  have hflatten : ((arrivals requests 0 events).map (List.map deliver)).flatten =
      requests.map deliver := by
    rw [← List.map_flatten, arrivals_flatten_eq hstream]
  rw [decodes_iff hc hrequests hreads hstream, ← hflatten, Handler.attemptAll_eq_iff, butLast_map,
    Handler.attemptAll_eq_runFrom h.fresh, Option.isSome_map]
  rfl

end Moves

end PgRedisProxy
