import PgRedisProxy.Cache.CellMap
import PgRedisProxy.Store.Failures

/-!
# The calls that the requests make

A request leaves the hash table as it is or makes one `SetCall`, whatever fails on the way.
`hashes_eq_setAll` is the run: the hash table of a worker that has served any requests, none
of them for the empty key, is that of some calls.
-/

namespace PgRedisProxy

open CLang

/-- The key of an event, if it has one, is not empty. -/
def Event.HasKey : Event → Prop
  | .get key => key ≠ CString.empty
  | .set key _ => key ≠ CString.empty
  | .del key => key ≠ CString.empty
  | .sync => True

/-- At most one call was made. -/
def CalledOnce (t t' : Htab) : Prop :=
  t' = t ∨ ∃ call : SetCall, t' = call.apply t

section Calls

variable {flt : Faults} {p p' : Proxy} {key : CString}

/-- A value that fits is stored by a call. -/
theorem calledOnce_live (hkey : key ≠ CString.empty) {value : CString}
    (hfits : (keyFits key && valueFits value) = true) (t : Htab) :
    CalledOnce t (setHashTable t key (some value) 0) := by
  rw [Bool.and_eq_true, keyFits, valueFits, decide_eq_true_eq, decide_eq_true_eq] at hfits
  refine .inr ⟨⟨⟨key, hkey, hfits.1⟩, some ⟨value, hfits.2⟩, .fresh key,
    Cell.key_fresh hfits.1⟩, ?_⟩
  exact setHashTable_eq t (some value) 0

/-- A key that fits is marked deleted by a call. -/
theorem calledOnce_deleted (hkey : key ≠ CString.empty) (hfits : keyFits key = true) (t : Htab) :
    CalledOnce t (setHashTable t key none 1) := by
  rw [keyFits, decide_eq_true_eq] at hfits
  refine .inr ⟨⟨⟨key, hkey, hfits⟩, none, .fresh key, Cell.key_fresh hfits⟩, ?_⟩
  exact setHashTable_eq t none 1

/-- A synchronization makes no call. -/
theorem syncWithDb_hashes {rc : Int} (hsync : syncWithDb flt p = some (rc, p')) :
    p'.hashes = p.hashes := by
  unfold syncWithDb at hsync
  cases hlg : p.logger with
  | none =>
      rw [hlg] at hsync
      cases hsync
      rfl
  | some lg =>
      rw [hlg] at hsync
      simp only at hsync
      split_ifs at hsync <;> cases hsync <;> rfl

/-- Neither does the log. -/
theorem addLog_hashes {opName : OperationName} {value : Option CString} {rc : Int}
    (hlog : addLog flt p opName key value = some (rc, p')) : p'.hashes = p.hashes := by
  unfold addLog at hlog
  cases hlg : p.logger with
  | none =>
      rw [hlg] at hlog
      cases hlog
      rfl
  | some lg =>
      rw [hlg] at hlog
      simp only at hlog
      cases happend : lg.append flt.alloc opName key value with
      | noMemory =>
          rw [happend] at hlog
          cases hlog
          rfl
      | nullPointer =>
          rw [happend] at hlog
          cases hlog
      | added lg' =>
          rw [happend] at hlog
          simp only at hlog
          split_ifs at hlog
          · have hsame := syncWithDb_hashes hlog
            exact hsame
          · cases hlog
            rfl

theorem afterLog_hashes {opName : OperationName} {value : Option CString} {res : ReqResult}
    {next : ReqResult × Proxy}
    (hlog : (addLog flt p opName key value).map (afterLog res) = some next) :
    next.2.hashes = p.hashes := by
  obtain ⟨⟨rc, p₁⟩, hadd, hnext⟩ := Option.map_eq_some_iff.mp hlog
  have hsame := addLog_hashes hadd
  rw [← hnext]
  simp only [afterLog]
  split_ifs <;> exact hsame

theorem reqGet_calledOnce (hkey : key ≠ CString.empty) :
    CalledOnce p.hashes (reqGet flt p key).2.hashes := by
  rcases reqGet_cases flt p key with ⟨-, heq⟩ | ⟨⟨-, hfits⟩, ⟨value, -, heq⟩ | ⟨-, heq⟩ |
    ⟨-, ⟨-, heq⟩ | ⟨value, -, hvalue, heq⟩ | ⟨-, heq⟩⟩⟩
  · rw [heq]
    exact .inl rfl
  · rw [heq]
    exact .inl rfl
  · rw [heq]
    exact .inl rfl
  · rw [heq]
    exact calledOnce_deleted hkey hfits p.hashes
  · rw [heq]
    exact calledOnce_live hkey (by rw [hfits, hvalue]; rfl) p.hashes
  · rw [heq]
    exact .inl rfl

theorem reqSet_calledOnce (hkey : key ≠ CString.empty) {value : CString}
    {next : ReqResult × Proxy} (hset : reqSet flt p key value = some next) :
    CalledOnce p.hashes next.2.hashes := by
  rcases reqSet_cases flt p key value with ⟨-, heq⟩ |
    ⟨hfits, ⟨-, ⟨-, heq⟩ | ⟨-, heq⟩⟩ | ⟨-, heq⟩ | ⟨-, heq⟩⟩
  · rw [heq] at hset
    cases hset
    exact .inl rfl
  · rw [heq] at hset
    cases hset
    exact .inl rfl
  · rw [heq] at hset
    cases hset
    exact calledOnce_live hkey hfits p.hashes
  · rw [heq] at hset
    cases hset
    exact calledOnce_live hkey hfits p.hashes
  · rw [heq] at hset
    rw [afterLog_hashes hset]
    exact calledOnce_live hkey hfits p.hashes

theorem reqDel_calledOnce (hkey : key ≠ CString.empty) {next : ReqResult × Proxy}
    (hdel : reqDel flt p key = some next) : CalledOnce p.hashes next.2.hashes := by
  rcases reqDel_cases flt p key with ⟨-, heq⟩ |
    ⟨hfits, ⟨-, ⟨-, heq⟩ | ⟨-, heq⟩⟩ | ⟨-, heq⟩ | ⟨-, heq⟩⟩
  · rw [heq] at hdel
    cases hdel
    exact .inl rfl
  · rw [heq] at hdel
    cases hdel
    exact .inl rfl
  · rw [heq] at hdel
    cases hdel
    exact calledOnce_deleted hkey hfits p.hashes
  · rw [heq] at hdel
    cases hdel
    exact calledOnce_deleted hkey hfits p.hashes
  · rw [heq] at hdel
    rw [afterLog_hashes hdel]
    exact calledOnce_deleted hkey hfits p.hashes

/-- An event makes at most one call. -/
theorem stepWith_calledOnce {e : Event} (hkey : e.HasKey) {result : Result}
    (hstep : p.stepWith flt e = some (result, p')) : CalledOnce p.hashes p'.hashes := by
  cases e with
  | get key =>
      cases hstep
      exact reqGet_calledOnce hkey
  | set key value =>
      obtain ⟨⟨res, p₁⟩, hset, heq⟩ := Option.map_eq_some_iff.mp hstep
      cases heq
      exact reqSet_calledOnce hkey hset
  | del key =>
      obtain ⟨⟨res, p₁⟩, hdel, heq⟩ := Option.map_eq_some_iff.mp hstep
      cases heq
      exact reqDel_calledOnce hkey hdel
  | sync =>
      obtain ⟨⟨rc, p₁⟩, hsync, heq⟩ := Option.map_eq_some_iff.mp hstep
      cases heq
      exact .inl (syncWithDb_hashes hsync)

/-- A run makes calls behind those before it. -/
theorem runWith_setAll {events : List (Faults × Event)} {calls : List SetCall}
    (hkeys : ∀ event ∈ events, event.2.HasKey) (hbefore : p.hashes = setAll calls)
    (hrun : p.runWith events = some p') : ∃ calls', p'.hashes = setAll calls' := by
  induction events generalizing p calls with
  | nil =>
      cases hrun
      exact ⟨calls, hbefore⟩
  | cons event events ih =>
      simp only [Proxy.runWith, Option.bind_eq_bind, Option.bind_eq_some_iff] at hrun
      obtain ⟨⟨result, p₁⟩, hstep, hrest⟩ := hrun
      rw [List.forall_mem_cons] at hkeys
      rcases stepWith_calledOnce hkeys.1 hstep with hsame | ⟨call, hcall⟩
      · exact ih hkeys.2 (hsame.trans hbefore) hrest
      · have hnext : p₁.hashes = setAll (calls ++ [call]) := by
          rw [hcall, hbefore, setAll_concat]
        exact ih hkeys.2 hnext hrest

end Calls

/-- Whatever fails, the hash table of a worker that has served requests for keys that are not empty
is that of some calls of `set_hash_table` for keys and values that fit. -/
theorem hashes_eq_setAll {r : DumpStatus} {db : Hstore} {events : List (Faults × Event)} {p : Proxy}
    (hkeys : ∀ event ∈ events, event.2.HasKey)
    (hrun : (Proxy.start r db).runWith events = some p) :
    ∃ calls, p.hashes = setAll calls := by
  have hempty : (Proxy.start r db).hashes = setAll [] := rfl
  exact runWith_setAll hkeys hempty hrun

end PgRedisProxy
