import DistributedSoftmax.System.JobSafety

/-! The keys of a job that is submitted once: its metadata is written by its own
call, its final result by its own call or, under a nested identifier, by a worker
of another job; otherwise they change by expiry only. -/

set_option autoImplicit false

namespace DistributedSoftmax.System.Jobs
open Foundations.ByteString Foundations.KeyValue
open Gateway Worker

/-- Call `c`, if it was made, and no other call has the job identifier. -/
def Alone (c : Nat) (jobId : String) (s : State) : Prop :=
  ∀ c' call, s.calls[c']? = some call → (call.request.jobId = jobId ↔ c' = c)

variable {p : Platform} {s next : State} {action : Action} {c : Nat} {jobId : String}

theorem Alone.of_step (alone : Alone c jobId next) (applied : step p action s = some next) :
    Alone c jobId s := by
  intro c' call at_c'
  obtain ⟨later, at_later, same, -⟩ := step_calls applied at_c'
  rw [← same]
  exact alone c' later at_later

theorem Alone.of_run {actions : List Action} (alone : Alone c jobId next)
    (ran : Foundations.Transition.run (step p) actions s = some next) : Alone c jobId s := by
  induction actions generalizing s with
  | nil =>
    cases ran
    exact alone
  | cons action rest ih =>
    obtain ⟨middle, applied, ranRest⟩ := Foundations.Transition.run_cons_eq_some.mp ran
    exact (ih ranRest).of_step applied

/-- What happens to one key in one step. -/
theorem step_key (applied : step p action s = some next) (key : String) :
    next.shared.store key = s.shared.store key ∨
    (∃ seconds, action = .elapse seconds ∧
      next.shared.store key = expire seconds s.shared.store key) ∨
    ∃ fault command, Issues p s action fault command ∧ command.key = key ∧ fault ≠ .lost ∧
      next.shared.store key = (command.exec s.shared.store).1 key := by
  rcases step_store applied with same | ⟨seconds, rfl, same⟩ | ⟨fault, command, issued, same⟩
  · exact .inl (congrFun same key)
  · exact .inr (.inl ⟨seconds, rfl, congrFun same key⟩)
  · by_cases own : command.key = key
    · cases fault with
      | lost => exact .inl (congrFun same key)
      | none => exact .inr (.inr ⟨.none, command, issued, own, by decide, congrFun same key⟩)
      | unacknowledged =>
        exact .inr (.inr ⟨.unacknowledged, command, issued, own, by decide, congrFun same key⟩)
    · exact .inl ((congrFun same key).trans (attempt_frame fault _ (Ne.symm own)))

theorem exec_setEx_key (store : Store) (key : String) (value : Bytes) (seconds : Nat) :
    (Command.exec store (.setEx key value seconds)).1 key = store key ∨ seconds ≠ 0 ∧
      (Command.exec store (.setEx key value seconds)).1 key = some ⟨value, some seconds⟩ := by
  rcases Command.exec_setEx store key value seconds with same | ⟨positive, same⟩ <;> rw [same]
  · exact .inl rfl
  · exact .inr ⟨positive, Function.update_self _ _ _⟩

/-- The metadata of the job is written by its own call. -/
theorem step_metadataKey (alone : Alone c jobId s) (applied : step p action s = some next) :
    next.shared.store (RedisConfig.metadataKey jobId) =
        s.shared.store (RedisConfig.metadataKey jobId) ∨
    (∃ seconds, action = .elapse seconds ∧ next.shared.store (RedisConfig.metadataKey jobId) =
      expire seconds s.shared.store (RedisConfig.metadataKey jobId)) ∨
    ∃ fault call m, action = .call c (.store fault) ∧ s.calls[c]? = some call ∧
      call.phase = .storing m ∧ fault ≠ .lost := by
  rcases step_key applied (RedisConfig.metadataKey jobId) with same | elapsed |
    ⟨fault, command, issued, own, executed, -⟩
  · exact .inl same
  · exact .inr (.inl elapsed)
  · cases issued with
    | @metadata c' call m _ at_c' stands =>
      have same := RedisConfig.metadataKey_injective own
      obtain rfl := (alone c' call at_c').mp same
      exact .inr (.inr ⟨fault, call, m, rfl, at_c', stands, executed⟩)
    | result => exact absurd own (RedisConfig.resultKey_ne_metadataKey _ _)
    | progress => exact absurd own.symm (RedisConfig.metadataKey_ne_progressKey _ _)
    | slice => exact absurd own (RedisConfig.sliceKey_ne_metadataKey _ _ _)

/-- The final result of the job is written by its own call, or overwritten by
the slice of a job in whose identifier it is nested. -/
theorem step_resultKey (alone : Alone c jobId s) (applied : step p action s = some next) :
    next.shared.store (RedisConfig.resultKey jobId) =
        s.shared.store (RedisConfig.resultKey jobId) ∨
    (∃ seconds, action = .elapse seconds ∧ next.shared.store (RedisConfig.resultKey jobId) =
      expire seconds s.shared.store (RedisConfig.resultKey jobId)) ∨
    (∃ fault call values, action = .call c (.storeResult fault) ∧ s.calls[c]? = some call ∧
      call.phase = .storingResult values ∧ fault ≠ .lost ∧ RedisConfig.resultTtl p.env ≠ 0 ∧
      next.shared.store (RedisConfig.resultKey jobId) =
        some ⟨utf8 (resultStr p values), some (RedisConfig.resultTtl p.env)⟩) ∨
    ∃ t fault task, action = .work t fault ∧ s.tasks[t]? = some task ∧ task.written = false ∧
      fault ≠ .lost ∧ Worker.resultKey task.jobId task.sliceId = RedisConfig.resultKey jobId ∧
      next.shared.store (RedisConfig.resultKey jobId) = some ⟨task.payload, none⟩ := by
  rcases step_key applied (RedisConfig.resultKey jobId) with same | elapsed |
    ⟨fault, command, issued, own, executed, after⟩
  · exact .inl same
  · exact .inr (.inl elapsed)
  · -- Of the other writes only that of a slice can hit the final key.
    cases issued with
    | metadata => exact absurd own.symm (RedisConfig.resultKey_ne_metadataKey _ _)
    | @result c' call values _ at_c' stands =>
      obtain rfl := RedisConfig.resultKey_injective own
      obtain rfl := (alone c' call at_c').mp rfl
      rcases exec_setEx_key s.shared.store (RedisConfig.resultKey call.request.jobId)
        (utf8 (resultStr p values)) (RedisConfig.resultTtl p.env) with refused | ⟨positive, stored⟩
      · exact .inl (after.trans refused)
      · exact .inr (.inr (.inl ⟨fault, call, values, rfl, at_c', stands, executed, positive,
          after.trans stored⟩))
    | progress => exact absurd own.symm (RedisConfig.resultKey_ne_progressKey _ _)
    | @slice t task _ at_t unwritten =>
      have stored : (Command.exec s.shared.store
          (.set (Worker.resultKey task.jobId task.sliceId) task.payload)).1
            (RedisConfig.resultKey jobId) = some ⟨task.payload, none⟩ := by
        rw [← own]
        exact Function.update_self _ _ _
      exact .inr (.inr (.inr ⟨t, fault, task, rfl, at_t, unwritten, executed, own,
        after.trans stored⟩))

/-- A slice key is never deleted: it changes, or it expires. -/
theorem step_sliceKey (applied : step p action s = some next) (i : Nat)
    (present : (s.shared.store (RedisConfig.sliceKey jobId i)).isSome = true) :
    (next.shared.store (RedisConfig.sliceKey jobId i)).isSome = true ∨
    ∃ seconds, action = .elapse seconds ∧ next.shared.store (RedisConfig.sliceKey jobId i) =
      expire seconds s.shared.store (RedisConfig.sliceKey jobId i) := by
  rcases step_key applied (RedisConfig.sliceKey jobId i) with same | elapsed |
    ⟨fault, command, issued, own, executed, after⟩
  · exact .inl (same ▸ present)
  · exact .inr elapsed
  · left
    rw [after]
    rcases command.exec_cases s.shared.store with same | ⟨value, ttl, -, same⟩
    · rw [same]
      exact present
    · rw [same, own, Function.update_self]
      rfl

theorem expire_eq_none {store : Store} {key : String} (absent : store key = none)
    (seconds : Nat) : expire seconds store key = none := by
  unfold expire
  rw [absent]

/-- Metadata that is gone does not come back but by the call itself. -/
theorem metadata_stays_gone (alone : Alone c jobId s) (applied : step p action s = some next)
    (other : ∀ fault, action ≠ .call c (.store fault))
    (gone : s.shared.store (RedisConfig.metadataKey jobId) = none) :
    next.shared.store (RedisConfig.metadataKey jobId) = none := by
  rcases step_metadataKey alone applied with same | ⟨seconds, -, same⟩ | ⟨fault, _, _, acts, -⟩
  · exact same.trans gone
  · exact same.trans (expire_eq_none gone seconds)
  · exact absurd acts (other fault)

section reading
variable {store : Store} {key : String}

/-- What is found after some time was there before. -/
theorem found_of_expire {seconds : Nat} {value : Bytes}
    (later : found (expire seconds store) key = some value) : found store key = some value := by
  unfold found expire at later
  unfold found
  split at later
  · rename_i stored ttl present
    split at later
    · cases later
    · rw [present]
      exact later
  · exact later

theorem found_expire {seconds : Nat} (stays : expire seconds store key ≠ none) :
    found (expire seconds store) key = found store key := by
  obtain ⟨entry, present⟩ := Option.ne_none_iff_exists'.mp stays
  have later : found (expire seconds store) key = some entry.value := by
    rw [found, present, Option.map_some]
  rw [later, found_of_expire later]

theorem getStr_utf8 (raw : String) : RedisManager.getStr (some (utf8 raw)) = .ok (some raw) := by
  simp only [RedisManager.getStr, fromUtf8?_utf8]

theorem finalResponse_of_unreadable {total : Nat} {raw : String}
    (unreadable : resultFloats p.serde p.narrow raw = none) (ttl : Int) :
    (finalResponse p.serde p.narrow jobId total raw ttl).status = "failed" := by
  rw [finalResponse, unreadable]

end reading
end DistributedSoftmax.System.Jobs
