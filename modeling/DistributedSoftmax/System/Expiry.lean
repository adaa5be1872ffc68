import DistributedSoftmax.System.KeySpace
import DistributedSoftmax.System.FaultFree

/-! The lifetimes of the keys that jobs leave behind. The gateway writes with
SETEX and the lifetime of the kind of key; the workers write their slices with a
plain SET, so a slice has no expiry, and the configured lifetime of slices is
not used by anyone. -/

set_option autoImplicit false

namespace DistributedSoftmax.System
open Foundations.ByteString Foundations.KeyValue Foundations.Transition
open Gateway Worker

/-- The configured lifetime of each family of keys. -/
def KeyKind.lifetime (env : Env) : KeyKind → Nat
  | .result => RedisConfig.resultTtl env
  | .slice _ => RedisConfig.sliceTtl env
  | .metadata => RedisConfig.metadataTtl env
  | .progress => RedisConfig.progressTtl env

/-- The entry belongs to a job and expires within the lifetime of its kind. -/
def ExpiresInTime (env : Env) (key : String) (entry : Entry) : Prop :=
  ∃ (kind : KeyKind) (jobId : String) (ttl : Nat),
    key = kind.key jobId ∧ entry.ttl = some ttl ∧ ttl ≤ kind.lifetime env

/-- A store whose entries all expire is empty after the longest lifetime. -/
theorem expire_eq_empty {env : Env} {store : Store} (expires : store.Every (ExpiresInTime env))
    {seconds : Nat} (long : ∀ kind : KeyKind, kind.lifetime env ≤ seconds) :
    Jobs.expire seconds store = Store.empty := by
  funext key
  unfold Jobs.expire
  cases present : store key with
  | none => rfl
  | some entry =>
    obtain ⟨kind, _, ttl, -, lasts, bound⟩ := expires key entry present
    obtain ⟨value, remaining⟩ := entry
    cases lasts
    exact if_pos (bound.trans (long kind))

namespace Jobs
variable (p : Platform)

/-- Every key in Redis expires in time. -/
def EverythingExpires (s : State) : Prop := s.shared.store.Every (ExpiresInTime p.env)

/-- No worker gets a slice into Redis. -/
def StoresNoSlice (action : Action) (s : State) : Prop :=
  match action with
  | .work t fault => ∀ task, s.tasks[t]? = some task → task.written = false → fault = .lost
  | _ => True

variable {p} {s next : State} {action : Action}

theorem every_attempt_setEx {store : Store} (expires : store.Every (ExpiresInTime p.env))
    (fault : Fault) (kind : KeyKind) (jobId : String) (value : Bytes) :
    Store.Every (ExpiresInTime p.env)
      (attempt fault (.setEx (kind.key jobId) value (kind.lifetime p.env)) store).1 := by
  have written := Command.exec_setEx store (kind.key jobId) value (kind.lifetime p.env)
  cases fault with
  | lost => exact expires
  | none | unacknowledged =>
    rcases written with same | ⟨-, same⟩
    · simp only [attempt, same]
      exact expires
    · simp only [attempt, same]
      exact expires.update ⟨kind, jobId, _, rfl, rfl, le_rfl⟩

theorem every_expire {store : Store} (expires : store.Every (ExpiresInTime p.env))
    (seconds : Nat) : Store.Every (ExpiresInTime p.env) (expire seconds store) := by
  intro key entry present
  unfold expire at present
  split at present
  · rename_i value ttl stored
    split at present
    · cases present
    · cases present
      obtain ⟨kind, jobId, _, own, lasts, bound⟩ := expires key _ stored
      cases lasts
      exact ⟨kind, jobId, ttl - seconds, own, rfl, (Nat.sub_le _ _).trans bound⟩
  · exact expires key entry present

theorem step_expires (expires : EverythingExpires p s) (stores : StoresNoSlice action s)
    (applied : step p action s = some next) : EverythingExpires p next := by
  unfold EverythingExpires
  rcases step_store applied with same | ⟨seconds, rfl, same⟩ | ⟨fault, command, issued, same⟩ <;>
    rw [same]
  · exact expires
  · exact every_expire expires seconds
  · -- The gateway's commands are SETEX; what remains is the SET of a worker.
    cases issued with
    | metadata => exact every_attempt_setEx expires fault .metadata _ _
    | result => exact every_attempt_setEx expires fault .result _ _
    | progress => exact every_attempt_setEx expires fault .progress _ _
    | slice at_t unwritten =>
      rw [stores _ at_t unwritten]
      exact expires

theorem storesNoSlice_of_refused (refused : step p action s = none) : StoresNoSlice action s := by
  cases action with
  | work t fault =>
    intro task at_t
    simp only [step, at_t] at refused
    cases refused
  | _ => trivial

/-- A slice that is stored has no expiry. -/
theorem storesNoSlice_of_expires (applied : step p action s = some next)
    (expires : EverythingExpires p next) : StoresNoSlice action s := by
  cases action with
  | work t fault =>
    intro task at_t unwritten
    simp only [step, at_t, WorkerTask.step, unwritten, Bool.false_eq_true, if_false,
      Option.some.injEq] at applied
    subst applied
    have stored : fault ≠ .lost → (attempt fault (.set (resultKey task.jobId task.sliceId)
        task.payload) s.shared.store).1 (resultKey task.jobId task.sliceId) =
          some ⟨task.payload, none⟩ := by
      intro executed
      cases fault with
      | lost => exact absurd rfl executed
      | none | unacknowledged => exact Function.update_self _ _ _
    by_contra executed
    obtain ⟨_, _, _, -, lasts, -⟩ := expires _ _ (stored executed)
    cases lasts
  | _ => trivial

/-- Everything in Redis expires in time, in every state of a run, exactly when no
slice is ever stored. -/
theorem everythingExpires_iff (p : Platform) (actions : List Action) :
    Throughout (step p) (EverythingExpires p) actions .empty ↔
      Foundations.Transition.Admitted (step p) StoresNoSlice actions .empty := by
  apply throughout_iff_admitted (EverythingExpires p)
  · exact fun s expires => expires
  · exact fun action s next expires stores applied => step_expires expires stores applied
  · exact fun action s refused => storesNoSlice_of_refused refused
  · exact fun action s next _ applied expires => storesNoSlice_of_expires applied expires
  · intro key entry present
    cases present

/-- A job with one value, up to the SET of its worker. -/
def firstSliceRun : List Action :=
  [.submit ⟨"j", "softmax", zeros 1⟩ 0, .call 0 (.store .none), .call 0 (.publish false),
    .receive 0 false, .work 0 .none]

/-- The slice stays in Redis for ever. -/
theorem stored_slice_stays :
    ¬ ∀ (p : Platform) (actions : List Action) (s : State),
      run (step p) actions .empty = some s → EverythingExpires p s := by
  intro expires
  have stored : (run (step smallPlatform) firstSliceRun .empty).bind (fun s =>
      (s.shared.store (RedisConfig.sliceKey "j" 0)).map Entry.ttl) = some none := by
    decide +kernel
  obtain ⟨s, ran, present⟩ := Option.bind_eq_some_iff.mp stored
  obtain ⟨entry, found, lasts⟩ := Option.map_eq_some_iff.mp present
  obtain ⟨_, _, _, -, finite, -⟩ := expires smallPlatform firstSliceRun s ran _ entry found
  rw [lasts] at finite
  cases finite

end Jobs
end DistributedSoftmax.System
