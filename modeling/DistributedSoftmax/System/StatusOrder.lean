import DistributedSoftmax.System.FinalResult

/-! The order of the answers of `get_result`. The status is computed anew from
the keys that are there, so it goes backwards when a key disappears before the
metadata does, or when a read fails that would have found its key. As long as
neither happens, what the keys say about the job only moves forward, and so do
the answers. -/

set_option autoImplicit false

namespace DistributedSoftmax.System.Jobs
open Foundations.ByteString Foundations.KeyValue Foundations.Transition
open Gateway Worker

/-- What the final result and the slices say about a job with so many slices. -/
def readings (jobId : String) (total : Nat) (store : Store) : JobView :=
  match RedisManager.getStr (found store (RedisConfig.resultKey jobId)) with
  | .ok (some raw) => .final total raw
  | _ => .progress total fun i => (store (RedisConfig.sliceKey jobId i)).isSome

/-- No metadata has been stored for the call yet. -/
def notStored : Option Phase → Bool
  | none | some (.storing _) => true
  | _ => false

/-- The number of slices that a query has read, while it is in progress. -/
def QueryPhase.total? : QueryPhase → Option Nat
  | .result m | .lifetime m _ | .counting m _ _ => some m.totalSlices
  | .metadata | .answered _ => none

/-- The key is still there after the time, if it was there. -/
def Outlives (seconds : Nat) (store : Store) (key : String) : Prop :=
  expire seconds store key = none → store key = none
  deriving Decidable

variable (p : Platform)

/-- What a query sees that is asked now and is answered before anything changes. -/
def standing (c : Nat) (jobId : String) (s : State) : JobView :=
  match RedisManager.decodeJobMetadata p.serde
      (found s.shared.store (RedisConfig.metadataKey jobId)) with
  | .ok (some m) => readings jobId m.totalSlices s.shared.store
  | _ => if notStored (s.calls[c]?.map Call.phase) then .early else .late

/-- The numbers of slices that are known for the job, from its metadata or to a
query in progress. -/
def knownTotals (jobId : String) (store : Store) (queries : List Query) : List Nat :=
  (match RedisManager.decodeJobMetadata p.serde (found store (RedisConfig.metadataKey jobId)) with
    | .ok (some m) => [m.totalSlices]
    | _ => []) ++
  queries.filterMap fun query => if query.jobId = jobId then query.phase.total? else none

-- Reads that fail where their key is absent anyway, and expiry that nobody can
-- see any more, are not excluded: they change no answer.
/-- A step after which the keys of the job say no less than before: no read fails
that would have found its key, no slice of another job is written under the final
key, and while the metadata lives or a query knows it, neither the final result
nor a slice expires. The number of slices fits the field of the answer. -/
def keepsOrder (jobId : String) (action : Action) (s : State) : Bool :=
  match action with
  | .answer q failed => match s.queries[q]? with
      | none => true
      | some query => match query.phase with
          | .result m => decide (query.jobId = jobId → m.totalSlices < 2147483648 ∧
              (failed = true → found s.shared.store (RedisConfig.resultKey jobId) = none))
          | .counting m i _ => decide (query.jobId = jobId → i < m.totalSlices → failed = true →
              s.shared.store (RedisConfig.sliceKey jobId i) = none)
          | _ => true
  | .work t fault => match s.tasks[t]? with
      | none => true
      | some task => decide (task.written = false → fault ≠ .lost →
          Worker.resultKey task.jobId task.sliceId ≠ RedisConfig.resultKey jobId)
  | .elapse seconds =>
      decide (∀ total ∈ knownTotals p jobId (expire seconds s.shared.store) s.queries,
        Outlives seconds s.shared.store (RedisConfig.resultKey jobId) ∧
          ∀ i < total, Outlives seconds s.shared.store (RedisConfig.sliceKey jobId i))
  | _ => true

/-- A run of such steps. -/
def AlwaysKeepsOrder (jobId : String) (actions : List Action) (s : State) : Prop :=
  Foundations.Transition.Admitted (step p) (fun action s => keepsOrder p jobId action s = true)
    actions s
  deriving Decidable

/-- The keys of the job against the phase of its only call. -/
def KeysAwait (jobId : String) (s : State) : Option Phase → Prop
  | none | some (.storing _) => s.shared.store (RedisConfig.metadataKey jobId) = none ∧
      s.shared.store (RedisConfig.resultKey jobId) = none
  | some (.publishing _) | some (.waiting _) | some (.storingResult _) =>
      s.shared.store (RedisConfig.resultKey jobId) = none
  | _ => True

variable {p} {s next : State} {action : Action} {c : Nat} {jobId : String}

theorem found_expire_of_outlives {seconds : Nat} {store : Store} {key : String}
    (stays : Outlives seconds store key) : found (expire seconds store) key = found store key := by
  by_cases gone : expire seconds store key = none
  · rw [found, found, gone, stays gone]
  · exact found_expire gone

theorem readings_of_found {store : Store} {raw : String} (total : Nat)
    (stored : RedisManager.getStr (found store (RedisConfig.resultKey jobId)) = .ok (some raw)) :
    readings jobId total store = .final total raw := by
  rw [readings, stored]

theorem readings_of_absent {store : Store} (total : Nat)
    (absent : ∀ raw,
      RedisManager.getStr (found store (RedisConfig.resultKey jobId)) ≠ .ok (some raw)) :
    readings jobId total store =
      .progress total fun i => (store (RedisConfig.sliceKey jobId i)).isSome := by
  unfold readings
  split
  · rename_i raw stored
    exact absurd stored (absent raw)
  · rfl

theorem getStr_of_none (raw : String) : RedisManager.getStr none ≠ .ok (some raw) := by
  intro stored
  cases stored

/-- Nothing is read from the slices yet, of the right number. -/
theorem progress_before_readings (total : Nat) (store : Store) :
    (JobView.progress total fun _ => false).Before (readings jobId total store) := by
  unfold readings
  split
  · exact .finish _ _ _
  · exact .progress fun _ _ impossible => by cases impossible

/-- With the same final result and no fewer slices, the keys say no less. -/
theorem readings_before {total : Nat} {store store' : Store}
    (same : found store' (RedisConfig.resultKey jobId) =
      found store (RedisConfig.resultKey jobId))
    (grows : ∀ i < total, (store (RedisConfig.sliceKey jobId i)).isSome = true →
      (store' (RedisConfig.sliceKey jobId i)).isSome = true) :
    (readings jobId total store).Before (readings jobId total store') := by
  unfold readings
  rw [same]
  split
  · exact .final _ _
  · exact .progress grows

/-- The slices of a job stay while its number of slices is known. -/
theorem slices_stay (applied : step p action s = some next)
    (kept : keepsOrder p jobId action s = true) {total : Nat}
    (known : total ∈ knownTotals p jobId next.shared.store next.queries) {i : Nat}
    (inside : i < total)
    (present : (s.shared.store (RedisConfig.sliceKey jobId i)).isSome = true) :
    (next.shared.store (RedisConfig.sliceKey jobId i)).isSome = true := by
  rcases step_sliceKey applied i present with stays | ⟨seconds, rfl, same⟩
  · exact stays
  · cases applied
    simp only [keepsOrder, decide_eq_true_eq] at kept
    have outlives := (kept total known).2 i inside
    rw [Option.isSome_iff_ne_none] at present ⊢
    exact fun gone => present (outlives gone)

/-- The keys of a job whose number of slices is known say no less after a step. -/
theorem readings_mono (alone : Alone c jobId s) (applied : step p action s = some next)
    (kept : keepsOrder p jobId action s = true)
    (await : KeysAwait jobId s (s.calls[c]?.map Call.phase)) {total : Nat}
    (known : total ∈ knownTotals p jobId next.shared.store next.queries) :
    (readings jobId total s.shared.store).Before (readings jobId total next.shared.store) := by
  have grows := fun i inside => slices_stay (i := i) applied kept known inside
  -- The final key: unchanged, aged, written by the call, or overwritten by a slice.
  rcases step_resultKey alone applied with same | ⟨seconds, rfl, -⟩ |
    ⟨fault, call, values, -, at_c, stands, -, -, stored⟩ |
    ⟨t, fault, task, rfl, at_t, unwritten, executed, own, -⟩
  · exact readings_before (congrArg (Option.map Entry.value) same) grows
  · cases applied
    simp only [keepsOrder, decide_eq_true_eq] at kept
    exact readings_before (found_expire_of_outlives (kept total known).1) grows
  · -- The first write of the result: there was none before.
    rw [at_c, Option.map_some, stands] at await
    have absent : found s.shared.store (RedisConfig.resultKey jobId) = none := by
      rw [found, await, Option.map_none]
    have written : RedisManager.getStr (found next.shared.store (RedisConfig.resultKey jobId)) =
        .ok (some (resultStr p values)) := by
      rw [found, stored]
      exact getStr_utf8 _
    rw [readings_of_absent total (absent ▸ getStr_of_none), readings_of_found total written]
    exact .finish _ _ _
  · simp only [keepsOrder, at_t, decide_eq_true_eq] at kept
    exact absurd own (kept unwritten executed)

/-- The final key stays free until the call writes it. -/
theorem resultKey_stays_free (alone : Alone c jobId s) (applied : step p action s = some next)
    (kept : keepsOrder p jobId action s = true)
    (other : ∀ fault, action ≠ .call c (.storeResult fault))
    (free : s.shared.store (RedisConfig.resultKey jobId) = none) :
    next.shared.store (RedisConfig.resultKey jobId) = none := by
  rcases step_resultKey alone applied with same | ⟨seconds, -, same⟩ | ⟨fault, _, _, acts, -⟩ |
    ⟨t, fault, task, rfl, at_t, unwritten, executed, own, -⟩
  · exact same.trans free
  · exact same.trans (expire_eq_none free seconds)
  · exact absurd acts (other fault)
  · simp only [keepsOrder, at_t, decide_eq_true_eq] at kept
    exact absurd own (kept unwritten executed)

/-- A step of the call itself. -/
theorem keysAwait_of_call {call : Call} {input : CallInput} {phase : Phase} {shared : Shared}
    (stepped : call.step p s.shared input = some (phase, shared))
    (free : (∀ fault, input ≠ .storeResult fault) →
      s.shared.store (RedisConfig.resultKey jobId) = none →
        next.shared.store (RedisConfig.resultKey jobId) = none)
    (await : KeysAwait jobId s (some call.phase)) : KeysAwait jobId next (some phase) := by
  cases Call.step_effect stepped with
  | store before =>
    rw [before] at await
    split
    · exact free (fun _ same => by cases same) await.2
    · trivial
  | publish before | register before =>
    rw [before] at await
    exact free (fun _ same => by cases same) await
  | wait before event_of waited =>
    rw [before] at await
    have absent := free (by rintro _ rfl; cases event_of) await
    obtain ⟨_, _, ⟨outcome, _, rfl, _⟩ | ⟨_, rfl, _⟩⟩ := waitStep_cases waited
    · rcases afterWaiting_cases outcome with ⟨_, same⟩ | ⟨_, same⟩ <;> rw [same]
      · trivial
      · exact absent
    · exact absent
  | storeResult => split <;> trivial
  | storeProgress =>
    split
    · split <;> trivial
    · trivial
  | publishFailed | cancel => trivial

theorem step_keysAwait (alone : Alone c jobId next) (applied : step p action s = some next)
    (kept : keepsOrder p jobId action s = true)
    (await : KeysAwait jobId s (s.calls[c]?.map Call.phase)) :
    KeysAwait jobId next (next.calls[c]?.map Call.phase) := by
  have before := alone.of_step applied
  have free := resultKey_stays_free before applied kept
  apply step_phase (P := KeysAwait jobId) applied c _ _ _ await
  · intro other await
    have free := free fun _ => other _
    have gone := metadata_stays_gone before applied fun _ => other _
    cases at_c : s.calls[c]? with
    | none =>
      rw [at_c] at await
      exact ⟨gone await.1, free await.2⟩
    | some call =>
      rw [at_c, Option.map_some] at await
      rw [Option.map_some]
      cases phase : call.phase with
      | storing metadata =>
        rw [phase] at await
        exact ⟨gone await.1, free await.2⟩
      | publishing | waiting | storingResult =>
        rw [phase] at await
        exact free await
      | storingProgress | returned | dropped => trivial
  · rintro request now rfl absent
    unfold Call.start
    split
    · trivial
    · exact absent
  · rintro call input phase shared at_c rfl stepped rfl await
    apply keysAwait_of_call stepped _ await
    intro other
    apply free
    intro fault acts
    exact other fault (Action.call.inj acts).2

/-- Once the metadata has been stored, it is not stored again. -/
theorem stored_stays (applied : step p action s = some next)
    (stored : notStored (s.calls[c]?.map Call.phase) = false) :
    notStored (next.calls[c]?.map Call.phase) = false := by
  apply step_phase (P := fun _ phase => notStored phase = false) applied c _ _ _ stored
  · exact fun _ stored => stored
  · intro request now _ impossible
    cases impossible
  · intro call input phase shared _ _ stepped _ stored
    cases Call.step_effect stepped with
    | store before =>
      rw [before] at stored
      cases stored
    | wait _ _ waited =>
      obtain ⟨_, _, ⟨outcome, _, rfl, _⟩ | ⟨_, rfl, _⟩⟩ := waitStep_cases waited
      · rcases afterWaiting_cases outcome with ⟨_, same⟩ | ⟨_, same⟩ <;> rw [same] <;> rfl
      · rfl
    | storeResult => split <;> rfl
    | storeProgress =>
      split
      · split <;> rfl
      · rfl
    | publishFailed | publish | register | cancel => rfl

/-- Stored metadata stays as it is, or it expires. -/
theorem found_metadata (alone : Alone c jobId s) (applied : step p action s = some next)
    (stored : notStored (s.calls[c]?.map Call.phase) = false) :
    found next.shared.store (RedisConfig.metadataKey jobId) =
        found s.shared.store (RedisConfig.metadataKey jobId) ∨
      found next.shared.store (RedisConfig.metadataKey jobId) = none := by
  rcases step_metadataKey alone applied with same | ⟨seconds, rfl, same⟩ |
    ⟨fault, call, m, -, at_c, stands, -⟩
  · exact .inl (congrArg (Option.map Entry.value) same)
  · cases applied
    by_cases gone : expire seconds s.shared.store (RedisConfig.metadataKey jobId) = none
    · exact .inr (congrArg (Option.map Entry.value) gone)
    · exact .inl (found_expire gone)
  · rw [at_c, Option.map_some, stands] at stored
    cases stored

theorem standing_of_known {m : JobMetadata}
    (known : RedisManager.decodeJobMetadata p.serde
      (found s.shared.store (RedisConfig.metadataKey jobId)) = .ok (some m)) :
    standing p c jobId s = readings jobId m.totalSlices s.shared.store := by
  rw [standing, known]

theorem standing_of_unknown
    (unknown : ∀ m, RedisManager.decodeJobMetadata p.serde
      (found s.shared.store (RedisConfig.metadataKey jobId)) ≠ .ok (some m)) :
    standing p c jobId s = if notStored (s.calls[c]?.map Call.phase) then .early else .late := by
  unfold standing
  split
  · rename_i m known
    exact absurd known (unknown m)
  · rfl

theorem decodeJobMetadata_none (m : JobMetadata) :
    RedisManager.decodeJobMetadata p.serde none ≠ .ok (some m) := by
  intro decoded
  cases decoded

/-- What the keys say about the job moves forward with every step that keeps the order. -/
theorem standing_mono (alone : Alone c jobId s) (applied : step p action s = some next)
    (kept : keepsOrder p jobId action s = true)
    (await : KeysAwait jobId s (s.calls[c]?.map Call.phase)) :
    (standing p c jobId s).Before (standing p c jobId next) := by
  cases stored : notStored (s.calls[c]?.map Call.phase) with
  | true =>
    -- Before the metadata is stored nothing is known, and anything may follow.
    have absent : found s.shared.store (RedisConfig.metadataKey jobId) = none := by
      unfold notStored at stored
      split at stored
      · rename_i same
        rw [same] at await
        rw [found, await.1, Option.map_none]
      · rename_i m same
        rw [same] at await
        rw [found, await.1, Option.map_none]
      · cases stored
    rw [standing_of_unknown (absent ▸ decodeJobMetadata_none), if_pos stored]
    exact .early _
  | false =>
    -- Afterwards the metadata stays as it is, or it is gone for good.
    have later := stored_stays applied stored
    rcases found_metadata alone applied stored with same | gone
    · by_cases known : ∃ m, RedisManager.decodeJobMetadata p.serde
          (found s.shared.store (RedisConfig.metadataKey jobId)) = .ok (some m)
      · obtain ⟨m, known⟩ := known
        have known' := known
        rw [← same] at known'
        rw [standing_of_known known, standing_of_known known']
        apply readings_mono alone applied kept await
        rw [knownTotals, known']
        exact List.mem_append_left _ (List.mem_singleton_self _)
      · have unknown := not_exists.mp known
        rw [standing_of_unknown unknown, standing_of_unknown (same ▸ unknown), stored, later]
        exact .refl _
    · rw [standing_of_unknown (s := next) (gone ▸ decodeJobMetadata_none), later]
      exact .late _

-- Two bounds on what a query answers: it has seen nothing beyond the keys as they
-- are now (`UpTo`), and it will not fall behind the keys as they were when it was
-- asked (`Foretells`). Both are invariants, of the whole run and of its second part.
variable (p) in
/-- What a query of the job has seen so far. -/
inductive Seen (jobId : String) : QueryPhase → JobView → Prop where
  | metadata : Seen jobId .metadata .early
  | result (m : JobMetadata) :
      Seen jobId (.result m) (.progress m.totalSlices fun _ => false)
  | lifetime {m : JobMetadata} (raw : String) : m.totalSlices < 2147483648 →
      Seen jobId (.lifetime m raw) (.final m.totalSlices raw)
  | counting {m : JobMetadata} {i : Nat} (present : Nat → Bool) : m.totalSlices < 2147483648 →
      i ≤ m.totalSlices → Seen jobId (.counting m i (presentBelow present i))
        (.progress m.totalSlices fun j => decide (j < i) && present j)
  | answered {view : JobView} {response : ResultResponse} :
      view.Tells p.serde p.narrow jobId response → Seen jobId (.answered (.ok response)) view
  | error (status : Status) : Seen jobId (.answered (.error status)) .early

variable (p) in
/-- The query has seen nothing that goes beyond the view. -/
def UpTo (view : JobView) (jobId : String) (phase : QueryPhase) : Prop :=
  ∃ seen, Seen p jobId phase seen ∧ seen.Before view

/-- A job that is known cannot be unknown again: a view after some progress is of
the same job, or the job has ended. -/
theorem standing_of_progress {total : Nat} {present : Nat → Bool}
    (before : (JobView.progress total present).Before (standing p c jobId s)) :
    standing p c jobId s = readings jobId total s.shared.store ∨ standing p c jobId s = .late := by
  by_cases known : ∃ m, RedisManager.decodeJobMetadata p.serde
      (found s.shared.store (RedisConfig.metadataKey jobId)) = .ok (some m)
  · obtain ⟨m, known⟩ := known
    rw [standing_of_known known] at before ⊢
    left
    unfold readings at before ⊢
    split at before
    · cases before
      rfl
    · cases before
      rfl
  · have unknown := not_exists.mp known
    rw [standing_of_unknown unknown] at before ⊢
    split at before
    · cases before
    · rename_i stored
      exact .inr (if_neg stored)

/-- One read of a query, with what it has seen before. -/
theorem query_upTo {query : Query} {failed : Bool} {phase : QueryPhase}
    (applied : query.step p s.shared.store failed = some phase) (own : query.jobId = jobId)
    (small : ∀ m, query.phase = .result m → m.totalSlices < 2147483648)
    (upTo : UpTo p (standing p c jobId s) jobId query.phase) :
    UpTo p (standing p c jobId s) jobId phase := by
  subst own
  obtain ⟨seen, saw, before⟩ := upTo
  cases Query.step_effect applied with
  | error => exact ⟨.early, .error _, .early _⟩
  | unknown => exact ⟨.early, .answered .early, .early _⟩
  | @known m _ known =>
    refine ⟨_, .result m, ?_⟩
    rw [standing_of_known known]
    exact progress_before_readings _ _
  | @noResult m stands =>
    rw [stands] at saw
    cases saw
    refine ⟨_, .counting (fun _ => false) (small m stands) (Nat.zero_le _), ?_⟩
    simpa only [Bool.and_false] using before
  | @hasResult m raw stands stored =>
    rw [stands] at saw
    cases saw
    refine ⟨_, .lifetime raw (small m stands), ?_⟩
    rcases standing_of_progress before with same | same <;> rw [same]
    · rw [readings_of_found _ stored]
      exact .final _ _
    · exact .late _
  | final ttl stands =>
    rw [stands] at saw
    cases saw with
    | lifetime _ small => exact ⟨_, .answered (.final _ ttl small), before⟩
  | @count m i completed stands inside =>
    rw [stands] at saw
    cases saw with
    | counting present small bound =>
    rw [← presentBelow_update]
    refine ⟨_, .counting _ small inside, ?_⟩
    -- What was counted is there: the slices below `i` by what was seen before, and
    -- slice `i` as it was found just now.
    rcases standing_of_progress before with same | same <;> rw [same] at before ⊢
    · unfold readings at before ⊢
      split at before
      · exact .finish _ _ _
      · cases before with
        | progress grows =>
        apply JobView.Before.progress
        intro j within there
        by_cases here : j = i
        · subst here
          simp only [Function.update_self, Bool.and_eq_true] at there
          exact there.2.2
        · rw [Function.update_of_ne here] at there
          apply grows j within
          simp only [Bool.and_eq_true, decide_eq_true_eq] at there ⊢
          exact ⟨by omega, there.2⟩
    · exact .late _
  | @progress m i completed stands past =>
    rw [stands] at saw
    cases saw with
    | counting present small bound =>
    obtain rfl := Nat.le_antisymm bound past
    refine ⟨_, .answered (.progress present small), JobView.Before.trans (.progress ?_) before⟩
    intro j inside there
    simp [inside, there]

variable (p) in
/-- The query will not fall behind the view: so far it has not, and the keys that
it has not read yet do not either. -/
def Foretells (view : JobView) (jobId : String) (store : Store) : QueryPhase → Prop
  | .metadata | .answered (.error _) => True
  | .result m => view.Before (readings jobId m.totalSlices store)
  | .lifetime m raw => m.totalSlices < 2147483648 ∧ view.Before (.final m.totalSlices raw)
  | .counting m i completed => m.totalSlices < 2147483648 ∧ i ≤ m.totalSlices ∧
      ∃ present, presentBelow present i = completed ∧ view.Before (.progress m.totalSlices fun j =>
        if j < i then present j else (store (RedisConfig.sliceKey jobId j)).isSome)
  | .answered (.ok response) =>
      ∃ told, told.Tells p.serde p.narrow jobId response ∧ view.Before told

/-- One read of a query that does not fall behind. -/
theorem query_foretells {view : JobView} {query : Query} {failed : Bool} {phase : QueryPhase}
    (applied : query.step p s.shared.store failed = some phase) (own : query.jobId = jobId)
    (reads : ∀ m, query.phase = .result m → m.totalSlices < 2147483648 ∧
      (failed = true → found s.shared.store (RedisConfig.resultKey jobId) = none))
    (counts : ∀ m i completed, query.phase = .counting m i completed → i < m.totalSlices →
      failed = true → s.shared.store (RedisConfig.sliceKey jobId i) = none)
    (reached : view.Before (standing p c jobId s))
    (foretells : Foretells p view jobId s.shared.store query.phase) :
    Foretells p view jobId s.shared.store phase := by
  subst own
  cases Query.step_effect applied with
  | error => trivial
  | unknown => exact ⟨.late, .late, .late _⟩
  | known _ known =>
    rw [standing_of_known known] at reached
    exact reached
  | @noResult m stands lost =>
    rw [stands] at foretells
    obtain ⟨small, fails⟩ := reads m stands
    have absent : ∀ raw, RedisManager.getStr
        (found s.shared.store (RedisConfig.resultKey query.jobId)) ≠ .ok (some raw) := by
      rcases lost with failed | absent
      · rw [fails failed]
        exact getStr_of_none
      · exact absent
    refine ⟨small, Nat.zero_le _, fun _ => false, rfl, ?_⟩
    rw [Foretells, readings_of_absent _ absent] at foretells
    simpa only [Nat.not_lt_zero, if_false] using foretells
  | @hasResult m raw stands stored =>
    rw [stands, Foretells, readings_of_found _ stored] at foretells
    exact ⟨(reads m stands).1, foretells⟩
  | final ttl stands =>
    rw [stands] at foretells
    exact ⟨_, .final _ ttl foretells.1, foretells.2⟩
  | @count m i completed stands inside =>
    rw [stands] at foretells
    obtain ⟨small, bound, present, rfl, before⟩ := foretells
    rw [← presentBelow_update]
    refine ⟨small, inside, _, rfl, before.trans (.progress ?_)⟩
    intro j within there
    -- A slice that is there now was read now, or it is still to be read.
    by_cases here : j = i
    · subst here
      rw [if_neg (Nat.lt_irrefl j)] at there
      rw [if_pos (Nat.lt_succ_self j), Function.update_self, there, Bool.and_true]
      cases failed with
      | false => rfl
      | true =>
        rw [counts m j _ stands inside rfl] at there
        cases there
    · rw [Function.update_of_ne here]
      by_cases below : j < i
      · rw [if_pos below] at there
        rwa [if_pos (Nat.lt_succ_of_lt below)]
      · rw [if_neg below] at there
        rwa [if_neg (by omega)]
  | @progress m i completed stands past =>
    rw [stands] at foretells
    obtain ⟨small, bound, present, rfl, before⟩ := foretells
    obtain rfl := Nat.le_antisymm bound past
    refine ⟨_, .progress present small, before.trans (.progress ?_)⟩
    intro j inside there
    rwa [if_pos inside] at there

theorem mem_knownTotals {q : Nat} {query : Query} {store : Store} {queries : List Query}
    {total : Nat} (at_q : queries[q]? = some query) (own : query.jobId = jobId)
    (knows : query.phase.total? = some total) : total ∈ knownTotals p jobId store queries := by
  apply List.mem_append_right
  apply List.mem_filterMap.mpr
  exact ⟨query, List.mem_of_getElem? at_q, (if_pos own).trans knows⟩

/-- A query that does nothing while the keys move forward does not fall behind. -/
theorem foretells_mono {view : JobView} {q : Nat} {query : Query} (alone : Alone c jobId s)
    (applied : step p action s = some next) (kept : keepsOrder p jobId action s = true)
    (await : KeysAwait jobId s (s.calls[c]?.map Call.phase))
    (at_q : next.queries[q]? = some query) (own : query.jobId = jobId)
    (foretells : Foretells p view jobId s.shared.store query.phase) :
    Foretells p view jobId next.shared.store query.phase := by
  have known : ∀ total, query.phase.total? = some total →
      total ∈ knownTotals p jobId next.shared.store next.queries :=
    fun _ knows => mem_knownTotals at_q own knows
  cases phase : query.phase with
  | metadata => trivial
  | result m =>
    rw [phase] at foretells known
    exact foretells.trans (readings_mono alone applied kept await (known _ rfl))
  | lifetime =>
    rw [phase] at foretells
    exact foretells
  | counting m i completed =>
    rw [phase] at foretells known
    obtain ⟨small, bound, present, counted, before⟩ := foretells
    refine ⟨small, bound, present, counted, before.trans (.progress ?_)⟩
    intro j inside there
    by_cases below : j < i
    · rwa [if_pos below] at there ⊢
    · rw [if_neg below] at there ⊢
      exact slices_stay applied kept (known _ rfl) inside there
  | answered outcome =>
    rw [phase] at foretells
    cases outcome <;> exact foretells

/-- What holds before anything was answered that counts: the keys await the call,
and no query of the job is ahead of them. -/
structure Ordered (p : Platform) (c : Nat) (jobId : String) (s : State) : Prop where
  keys : KeysAwait jobId s (s.calls[c]?.map Call.phase)
  queries : ∀ query ∈ s.queries, query.jobId = jobId →
    UpTo p (standing p c jobId s) jobId query.phase

/-- The job has reached the view, and no query from number `n` on falls behind it. -/
structure Following (p : Platform) (view : JobView) (n c : Nat) (jobId : String) (s : State) :
    Prop where
  keys : KeysAwait jobId s (s.calls[c]?.map Call.phase)
  reached : view.Before (standing p c jobId s)
  queries : ∀ q query, n ≤ q → s.queries[q]? = some query → query.jobId = jobId →
    Foretells p view jobId s.shared.store query.phase

/-- The reads that keep the order, one by one. -/
theorem keepsOrder_reads {q : Nat} {failed : Bool} {query : Query}
    (kept : keepsOrder p jobId (.answer q failed) s = true) (at_q : s.queries[q]? = some query)
    (own : query.jobId = jobId) :
    (∀ m, query.phase = .result m → m.totalSlices < 2147483648 ∧
      (failed = true → found s.shared.store (RedisConfig.resultKey jobId) = none)) ∧
    ∀ m i completed, query.phase = .counting m i completed → i < m.totalSlices →
      failed = true → s.shared.store (RedisConfig.sliceKey jobId i) = none := by
  simp only [keepsOrder, at_q] at kept
  constructor
  · intro m stands
    simp only [stands, decide_eq_true_eq] at kept
    exact kept own
  · intro m i completed stands
    simp only [stands, decide_eq_true_eq] at kept
    exact kept own

theorem UpTo.mono {view later : JobView} {phase : QueryPhase} (before : view.Before later)
    (upTo : UpTo p view jobId phase) : UpTo p later jobId phase := by
  obtain ⟨seen, saw, reached⟩ := upTo
  exact ⟨seen, saw, reached.trans before⟩

theorem step_ordered (alone : Alone c jobId next) (applied : step p action s = some next)
    (kept : keepsOrder p jobId action s = true) (ordered : Ordered p c jobId s) :
    Ordered p c jobId next := by
  have before := alone.of_step applied
  have forward := standing_mono before applied kept ordered.keys
  refine ⟨step_keysAwait alone applied kept ordered.keys, ?_⟩
  intro query member own
  rcases step_queries applied with same | ⟨asked, -, rfl⟩ |
    ⟨q, asked, failed, phase, rfl, at_q, stepped, rfl⟩
  · rw [same] at member
    exact (ordered.queries query member own).mono forward
  · rcases List.mem_append.mp member with earlier | new
    · exact (ordered.queries query earlier own).mono forward
    · cases List.mem_singleton.mp new
      exact ⟨.early, .metadata, .early _⟩
  · rcases List.mem_or_eq_of_mem_set member with other | rfl
    · exact (ordered.queries query other own).mono forward
    · have reads := (keepsOrder_reads kept at_q own).1
      have upTo := ordered.queries asked (List.mem_of_getElem? at_q) own
      exact (query_upTo stepped own (fun m stands => (reads m stands).1) upTo).mono forward

theorem step_following {view : JobView} {n : Nat} (alone : Alone c jobId next)
    (applied : step p action s = some next) (kept : keepsOrder p jobId action s = true)
    (following : Following p view n c jobId s) : Following p view n c jobId next := by
  have before := alone.of_step applied
  have keys := following.keys
  have reached := following.reached.trans (standing_mono before applied kept keys)
  refine ⟨step_keysAwait alone applied kept keys, reached, ?_⟩
  intro q query above at_q own
  -- A query that was there and did not change.
  have stays : s.queries[q]? = some query →
      Foretells p view jobId next.shared.store query.phase := by
    intro earlier
    apply foretells_mono before applied kept keys at_q own
    exact following.queries q query above earlier own
  rcases step_queries applied with same | ⟨asked, -, rfl⟩ |
    ⟨k, asked, failed, phase, rfl, at_k, stepped, rfl⟩
  · rw [same] at at_q
    exact stays at_q
  · rw [List.getElem?_append] at at_q
    split at at_q
    · exact stays at_q
    · cases List.mem_singleton.mp (List.mem_of_getElem? at_q)
      trivial
  · rw [List.getElem?_set] at at_q
    split at at_q
    · rename_i same
      subst same
      split at at_q
      · cases at_q
        obtain ⟨reads, counts⟩ := keepsOrder_reads kept at_k own
        apply query_foretells stepped own reads counts following.reached
        exact following.queries k asked above at_k own
      · cases at_q
    · exact stays at_q

theorem empty_ordered : Ordered p c jobId .empty :=
  ⟨⟨rfl, rfl⟩, fun _ member => (List.not_mem_nil member).elim⟩

/-- The answers of `get_result` for a job that is submitted once, in a run that
keeps the order: an answer that is asked for after another one was given takes
back nothing that the other one said. -/
theorem answers_ordered {earlier later : List Action} {middle final : State}
    (ranEarlier : run (step p) earlier .empty = some middle)
    (ranLater : run (step p) later middle = some final)
    (kept : AlwaysKeepsOrder p jobId (earlier ++ later) .empty) (alone : Alone c jobId final)
    {first second : Nat} {answer answer' : ResultResponse}
    (given : middle.queries[first]? = some ⟨jobId, .answered (.ok answer)⟩)
    (asked : middle.queries.length ≤ second)
    (given' : final.queries[second]? = some ⟨jobId, .answered (.ok answer')⟩) :
    FollowsUp answer answer' := by
  obtain ⟨keptEarlier, keptLater⟩ := Admitted.of_append kept ranEarlier
  have ordered : Alone c jobId middle → Ordered p c jobId middle := by
    apply run_invariant_of_admitted _ (fun _ => empty_ordered) keptEarlier ranEarlier
    intro action s next ordered kept applied alone
    exact step_ordered alone applied kept (ordered (alone.of_step applied))
  have known := ordered (alone.of_run ranLater)
  -- From the first answer on, the view of that moment is what nobody falls behind.
  have start : Following p (standing p c jobId middle) middle.queries.length c jobId middle := by
    refine ⟨known.keys, .refl _, fun q query above at_q _ => ?_⟩
    have inside := (List.getElem?_eq_some_iff.mp at_q).1
    omega
  have following : Alone c jobId final →
      Following p (standing p c jobId middle) middle.queries.length c jobId final := by
    apply run_invariant_of_admitted _ (fun _ => start) keptLater ranLater
    intro action s next following kept applied alone
    exact step_following alone applied kept (following (alone.of_step applied))
  -- The first answer tells no more than the keys at that time, the second no less.
  obtain ⟨told, saw, before⟩ := known.queries _ (List.mem_of_getElem? given) rfl
  obtain ⟨told', tells', after⟩ := (following alone).queries second _ asked given' rfl
  cases saw with
  | answered tells => exact (before.trans after).followsUp tells tells'

/-- Two runs, one after the other: the queries after the first, the calls and
the queries after the second. -/
def shownAlong (p : Platform) (earlier later : List Action) :
    Option (List Query × List Call × List Query) :=
  (run (step p) earlier .empty).bind fun middle =>
    (run (step p) later middle).map fun final => (middle.queries, final.calls, final.queries)

theorem ran_of_shownAlong {earlier later : List Action} {calls : List Call}
    {queries queries' : List Query}
    (shown : shownAlong p earlier later = some (queries, calls, queries')) :
    ∃ middle final, run (step p) earlier .empty = some middle ∧
      run (step p) later middle = some final ∧ middle.queries = queries ∧
        final.calls = calls ∧ final.queries = queries' := by
  obtain ⟨middle, ranEarlier, shown⟩ := Option.bind_eq_some_iff.mp shown
  obtain ⟨final, ranLater, same⟩ := Option.map_eq_some_iff.mp shown
  cases same
  exact ⟨middle, final, ranEarlier, ranLater, rfl, rfl, rfl⟩

/-- The reads of one query, for a job with one slice and no result. -/
def readsOfQuery (q : Nat) : List Action := List.replicate 4 (.answer q false)

/-- A published job is queried, -/
def pendingRun : List Action :=
  [.submit ⟨"j", "softmax", zeros 1⟩ 0, .call 0 (.store .none), .call 0 (.publish false),
    .ask "j"] ++ readsOfQuery 0

/-- and queried again when a worker has written its slice. -/
def runningRun : List Action :=
  [.receive 0 false, .work 0 .none, .ask "j"] ++ readsOfQuery 1

theorem answers_ordered_running :
    FollowsUp (progressResponse "j" 1 0) (progressResponse "j" 1 1) := by
  have shown : shownAlong readingPlatform pendingRun runningRun = some
      ([⟨"j", .answered (.ok (progressResponse "j" 1 0))⟩],
        [⟨⟨"j", "softmax", zeros 1⟩, .publishing 1⟩],
        [⟨"j", .answered (.ok (progressResponse "j" 1 0))⟩,
          ⟨"j", .answered (.ok (progressResponse "j" 1 1))⟩]) := by
    decide +kernel
  obtain ⟨middle, final, ranEarlier, ranLater, shown, calls, shown'⟩ := ran_of_shownAlong shown
  have kept : AlwaysKeepsOrder readingPlatform "j" (pendingRun ++ runningRun) .empty := by
    decide +kernel
  have given : middle.queries[0]? = some ⟨"j", .answered (.ok (progressResponse "j" 1 0))⟩ :=
    congrArg (fun queries => queries[0]?) shown
  have given' : final.queries[1]? = some ⟨"j", .answered (.ok (progressResponse "j" 1 1))⟩ :=
    congrArg (fun queries => queries[1]?) shown'
  exact answers_ordered ranEarlier ranLater kept (alone_of_singleton calls) given
    (congrArg List.length shown).le given'

/-- A job is finished, and its result is reported. -/
def finishedRun : List Action :=
  halfStoredRun ++ [.call 0 (.storeProgress .none 0), .ask "j"] ++ List.replicate 3 (.answer 0 false)

/-- An hour later it is queried again. -/
def expiredRun : List Action := [.elapse 3600, .ask "j"] ++ readsOfQuery 1

def finishedCall : Call := ⟨⟨"j", "softmax", zeros 1⟩, .returned (.ok [Single.one])⟩

/-- A job that was reported as ready is running again, with default settings and
without any failure. -/
theorem ready_then_running :
    ¬ ∀ (p : Platform), p.serde.Documented → p.env = (fun _ => none) →
      ∀ (earlier later : List Action) (middle final : State),
        run (step p) earlier .empty = some middle → run (step p) later middle = some final →
        ∀ (c : Nat) (jobId : String), Alone c jobId final →
          ∀ (first second : Nat) (answer answer' : ResultResponse),
            middle.queries[first]? = some ⟨jobId, .answered (.ok answer)⟩ →
            middle.queries.length ≤ second →
            final.queries[second]? = some ⟨jobId, .answered (.ok answer')⟩ →
              FollowsUp answer answer' := by
  intro ordered
  have shown : shownAlong readingPlatform finishedRun expiredRun = some
      ([⟨"j", .answered (.ok tornAnswer)⟩], [finishedCall],
        [⟨"j", .answered (.ok tornAnswer)⟩,
          ⟨"j", .answered (.ok (progressResponse "j" 1 1))⟩]) := by
    decide +kernel
  obtain ⟨middle, final, ranEarlier, ranLater, shown, calls, shown'⟩ := ran_of_shownAlong shown
  have given : middle.queries[0]? = some ⟨"j", .answered (.ok tornAnswer)⟩ :=
    congrArg (fun queries => queries[0]?) shown
  have given' : final.queries[1]? = some ⟨"j", .answered (.ok (progressResponse "j" 1 1))⟩ :=
    congrArg (fun queries => queries[1]?) shown'
  have follows := ordered readingPlatform JsonText.objectSerde_documented rfl _ _ middle final
    ranEarlier ranLater 0 "j" (alone_of_singleton calls) 0 1 tornAnswer _ given
    (congrArg List.length shown).le given'
  rcases follows.ready rfl with ⟨impossible, -⟩ | impossible <;> exact absurd impossible (by decide)

end DistributedSoftmax.System.Jobs
