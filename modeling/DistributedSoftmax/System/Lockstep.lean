import DistributedSoftmax.Foundations.Order
import DistributedSoftmax.Foundations.Transition
import DistributedSoftmax.Gateway.Slicing
import DistributedSoftmax.JsonText
import DistributedSoftmax.System.Messages

/-! The receive loops of the ranks with TRANSPORT=zmq_nccl. The jobs are
published one at a time, so the k-th message of every rank is its slice of the
k-th job. Every rank decides on its own whether it joins the collective of a
job or skips the message. -/

set_option autoImplicit false

namespace DistributedSoftmax.System.Lockstep
open Foundations.Order Foundations.Transition
open Gateway Worker

/-- Where the loop of `run_nccl` stands. The two collectives of
`all_reduce_softmax` block until every rank has called them. -/
inductive RankPhase where
  | receiving
  | reducingMax
  | reducingSum
  | writing
  /-- Left through an error of ZMQ, of the collective or of Redis, or a panic. -/
  | exited
  deriving DecidableEq, Repr

structure Rank where
  /-- Messages taken off the socket. -/
  received : Nat
  /-- The jobs for which `all_reduce_softmax` was entered, in order. -/
  entered : List Nat
  /-- Collectives called so far. -/
  collectives : Nat
  phase : RankPhase
  deriving DecidableEq, Repr

structure Job where
  request : TaskRequest
  slices : List (List Double)
  deriving DecidableEq, Repr

/-- The published jobs in their order, and the ranks. -/
structure State where
  jobs : List Job
  ranks : List Rank
  deriving DecidableEq, Repr

def State.initial (worldSize : Nat) : State :=
  ⟨[], List.replicate worldSize ⟨0, [], 0, .receiving⟩⟩

inductive Action where
  /-- One `submit_task` call checks the request and publishes it to all ranks. -/
  | publish (request : TaskRequest)
  | receive (rank : Nat)
  /-- The collective that a rank waits in is complete. -/
  | reduced (rank : Nat)
  | write (rank : Nat)
  | exit (rank : Nat)
  deriving DecidableEq, Repr

/-- `run_nccl` joins the collective when the message is read and asks for softmax. -/
def joins (serde : SerdeJson) (message : Json Double) : Bool :=
  match TaskMessage.ofJson serde (serde.wire message) with
  | some msg => msg.task == "softmax"
  | none => false

def Job.message (job : Job) (rank : Nat) : Option (Json Double) :=
  job.slices[rank]?.map (taskMessage job.request rank)

variable (serde : SerdeJson) (env : Env) (widen : Single → Double) (worldSize : Nat)

/-- The checks and the slices of `submit_task`. -/
def admitted (request : TaskRequest) : Except Status (List (List Double)) :=
  requestSlices ⟨true, worldSize⟩ env widen request

def Rank.receive (rank : Rank) (joined : Bool) : Rank :=
  if joined then ⟨rank.received + 1, rank.entered ++ [rank.received], rank.collectives + 1, .reducingMax⟩
  else { rank with received := rank.received + 1 }

def step : Action → State → Option State
  | .publish request, s => match admitted env widen worldSize request with
      | .ok slices => some { s with jobs := s.jobs ++ [⟨request, slices⟩] }
      | .error _ => some s
  | .receive r, s => match s.ranks[r]? with
      | none => none
      | some rank => match rank.phase, s.jobs[rank.received]?.bind (Job.message · r) with
          | .receiving, some message =>
              some { s with ranks := s.ranks.set r (rank.receive (joins serde message)) }
          | _, _ => none
  | .reduced r, s => match s.ranks[r]? with
      | none => none
      | some rank =>
          if s.ranks.all (fun other => rank.collectives ≤ other.collectives) then
            match rank.phase with
            | .reducingMax => some { s with ranks := s.ranks.set r { rank with
                collectives := rank.collectives + 1
                phase := .reducingSum } }
            | .reducingSum => some { s with ranks := s.ranks.set r { rank with phase := .writing } }
            | _ => none
          else none
  | .write r, s => match s.ranks[r]? with
      | none => none
      | some rank => match rank.phase with
          | .writing => some { s with ranks := s.ranks.set r { rank with phase := .receiving } }
          | _ => none
  | .exit r, s => match s.ranks[r]? with
      | none => none
      | some rank => some { s with ranks := s.ranks.set r { rank with phase := .exited } }

/-- No rank has skipped a job that another rank has entered. -/
def InLockstep (s : State) : Prop :=
  ∀ rank ∈ s.ranks, ∀ other ∈ s.ranks, Comparable rank.entered other.entered

/-- All values are finite, or every slice has a value that is not. -/
def Uniform (slices : List (List Double)) : Prop :=
  (∀ slice ∈ slices, slice.all Double.isFinite = true) ∨
    ∀ slice ∈ slices, slice.any (fun x => !x.isFinite) = true

instance (slices : List (List Double)) : Decidable (Uniform slices) :=
  inferInstanceAs (Decidable (_ ∨ _))

/-- Only requests are published whose slices are readable on all ranks or on none. -/
def PublishesUniform : Action → State → Prop
  | .publish request, _ => match admitted env widen worldSize request with
      | .ok slices => Uniform slices
      | .error _ => True
  | _, _ => True

/-- The ranks join a job together or not at all. -/
def Job.Agreed (job : Job) : Prop :=
  ∀ r r' message message', job.message r = some message → job.message r' = some message' →
    joins serde message = joins serde message'

theorem joins_taskMessage {request : TaskRequest} (softmax : request.task = "softmax") {r : Nat}
    (bound : r < 2 ^ 64) (slice : List Double) :
    joins serde (taskMessage request r slice) = (System.received serde slice).isSome := by
  rw [joins, ofJson_taskMessage, if_pos bound]
  cases System.received serde slice with
  | none => rfl
  | some values => simp [softmax]

variable {serde env widen worldSize}

theorem agreed_of_uniform (usize : worldSize ≤ 2 ^ 64) {request : TaskRequest}
    {slices : List (List Double)} (passed : admitted env widen worldSize request = .ok slices)
    (uniform : Uniform slices) : Job.Agreed serde ⟨request, slices⟩ := by
  obtain ⟨softmax, -, cut⟩ := requestSlices_eq_ok.mp passed
  have count := length_cutSlices_nccl cut
  have decision : ∀ r message, Job.message ⟨request, slices⟩ r = some message →
      ∃ slice ∈ slices, joins serde message = (System.received serde slice).isSome := by
    intro r message found
    obtain ⟨slice, at_r, rfl⟩ := Option.map_eq_some_iff.mp found
    have index := (List.getElem?_eq_some_iff.mp at_r).1
    exact ⟨slice, List.mem_of_getElem? at_r,
      joins_taskMessage serde softmax (by simp only at index; omega) slice⟩
  intro r r' message message' found found'
  obtain ⟨slice, member, same⟩ := decision r message found
  obtain ⟨slice', member', same'⟩ := decision r' message' found'
  rw [same, same']
  rcases uniform with finite | infinite
  · rw [received_of_finite serde (List.all_eq_true.mp (finite slice member)),
      received_of_finite serde (List.all_eq_true.mp (finite slice' member'))]
    rfl
  · obtain ⟨x, in_slice, bad⟩ := List.any_eq_true.mp (infinite slice member)
    obtain ⟨x', in_slice', bad'⟩ := List.any_eq_true.mp (infinite slice' member')
    rw [received_eq_none serde in_slice (by simpa using bad),
      received_eq_none serde in_slice' (by simpa using bad')]

/-- The decision about a job, as rank 0 makes it. -/
def Job.joined (serde : SerdeJson) (job : Job) : Bool :=
  (job.message 0).any (joins serde)

def State.joined (serde : SerdeJson) (s : State) (k : Nat) : Bool :=
  s.jobs[k]?.any (Job.joined serde)

theorem Job.Agreed.joins_eq {job : Job} (agreed : job.Agreed serde) {r : Nat}
    {message : Json Double} (found : job.message r = some message) :
    joins serde message = job.joined serde := by
  obtain ⟨slice, at_r, -⟩ := Option.map_eq_some_iff.mp found
  have index := (List.getElem?_eq_some_iff.mp at_r).1
  have first : job.message 0 = some (taskMessage job.request 0 job.slices[0]) := by
    rw [Job.message, List.getElem?_eq_getElem (by omega)]
    rfl
  rw [Job.joined, first, Option.any_some]
  exact agreed r 0 _ _ found first

/-- The ranks agree on every job, and a rank has entered, of the jobs it
received, those that all ranks join. -/
structure Inv (serde : SerdeJson) (s : State) : Prop where
  agreed : ∀ job ∈ s.jobs, job.Agreed serde
  received : ∀ rank ∈ s.ranks, rank.received ≤ s.jobs.length
  entered : ∀ rank ∈ s.ranks, rank.entered = (List.range rank.received).filter (s.joined serde)

theorem initial_inv : Inv serde (.initial worldSize) := by
  refine ⟨fun _ member => absurd member List.not_mem_nil, ?_, ?_⟩
  · intro rank member
    rw [List.eq_of_mem_replicate member]
    exact Nat.zero_le _
  · intro rank member
    rw [List.eq_of_mem_replicate member]
    rfl

/-- A step that changes one rank's phase only keeps the invariant. -/
theorem Inv.set {s : State} (inv : Inv serde s) {r : Nat} {rank changed : Rank}
    (at_r : s.ranks[r]? = some rank) (received : changed.received = rank.received)
    (entered : changed.entered = rank.entered) :
    Inv serde { s with ranks := s.ranks.set r changed } := by
  have member := List.mem_of_getElem? at_r
  refine ⟨inv.agreed, ?_, ?_⟩
  · intro other later
    rcases List.mem_or_eq_of_mem_set later with before | rfl
    · exact inv.received other before
    · rw [received]
      exact inv.received rank member
  · intro other later
    rcases List.mem_or_eq_of_mem_set later with before | rfl
    · exact inv.entered other before
    · rw [received, entered]
      exact inv.entered rank member

theorem publish_inv {s : State} (inv : Inv serde s) {job : Job} (agreed : job.Agreed serde) :
    Inv serde { s with jobs := s.jobs ++ [job] } := by
  refine ⟨?_, ?_, ?_⟩
  · intro other member
    rcases List.mem_append.mp member with before | new
    · exact inv.agreed other before
    · rw [List.mem_singleton.mp new]
      exact agreed
  · intro rank member
    rw [List.length_append]
    exact Nat.le_add_right_of_le (inv.received rank member)
  · intro rank member
    rw [inv.entered rank member]
    apply List.filter_congr
    intro k below
    have old : k < s.jobs.length :=
      Nat.lt_of_lt_of_le (List.mem_range.mp below) (inv.received rank member)
    simp only [State.joined, List.getElem?_append_left old]

theorem receive_inv {s : State} (inv : Inv serde s) {r : Nat} {rank : Rank}
    {message : Json Double} (at_r : s.ranks[r]? = some rank)
    (found : s.jobs[rank.received]?.bind (Job.message · r) = some message) :
    Inv serde { s with ranks := s.ranks.set r (rank.receive (joins serde message)) } := by
  have member := List.mem_of_getElem? at_r
  obtain ⟨job, at_k, own⟩ := Option.bind_eq_some_iff.mp found
  have index := (List.getElem?_eq_some_iff.mp at_k).1
  have decision : joins serde message = s.joined serde rank.received := by
    rw [(inv.agreed job (List.mem_of_getElem? at_k)).joins_eq own, State.joined, at_k,
      Option.any_some]
  have count : (rank.receive (joins serde message)).received = rank.received + 1 := by
    unfold Rank.receive
    split <;> rfl
  refine ⟨inv.agreed, ?_, ?_⟩
  · intro other later
    rcases List.mem_or_eq_of_mem_set later with before | rfl
    · exact inv.received other before
    · rw [count]
      exact index
  · intro other later
    rcases List.mem_or_eq_of_mem_set later with before | rfl
    · exact inv.entered other before
    · change (rank.receive (joins serde message)).entered =
        (List.range (rank.receive (joins serde message)).received).filter (s.joined serde)
      rw [count, List.range_succ, List.filter_append, ← inv.entered rank member,
        List.filter_singleton, ← decision]
      cases joins serde message with
      | true => rfl
      | false => exact (List.append_nil _).symm

theorem step_inv (usize : worldSize ≤ 2 ^ 64) (action : Action) (s next : State)
    (inv : Inv serde s) (uniform : PublishesUniform env widen worldSize action s)
    (applied : step serde env widen worldSize action s = some next) : Inv serde next := by
  cases action with
  | publish request =>
    simp only [step] at applied
    simp only [PublishesUniform] at uniform
    split at applied
    · rename_i slices passed
      rw [passed] at uniform
      cases applied
      exact publish_inv inv (agreed_of_uniform usize passed uniform)
    · cases applied
      exact inv
  | receive r =>
    simp only [step] at applied
    split at applied
    · cases applied
    rename_i rank at_r
    split at applied
    · rename_i message _ found
      cases applied
      exact receive_inv inv at_r found
    · cases applied
  | reduced r =>
    simp only [step] at applied
    split at applied
    · cases applied
    rename_i rank at_r
    split at applied
    · split at applied
      · cases applied
        exact inv.set at_r rfl rfl
      · cases applied
        exact inv.set at_r rfl rfl
      · cases applied
    · cases applied
  | write r =>
    simp only [step] at applied
    split at applied
    · cases applied
    rename_i rank at_r
    split at applied
    · cases applied
      exact inv.set at_r rfl rfl
    · cases applied
  | exit r =>
    simp only [step] at applied
    split at applied
    · cases applied
    rename_i rank at_r
    cases applied
    exact inv.set at_r rfl rfl

theorem range_initial {m n : Nat} (le : m ≤ n) : List.range m <+: List.range n := by
  obtain ⟨k, rfl⟩ := Nat.exists_eq_add_of_le le
  rw [List.range_add]
  exact List.prefix_append _ _

theorem Inv.inLockstep {s : State} (inv : Inv serde s) : InLockstep s := by
  intro rank member other otherMember
  rw [inv.entered rank member, inv.entered other otherMember]
  rcases Nat.le_total rank.received other.received with le | le
  · exact .inl ((range_initial le).filter _)
  · exact .inr ((range_initial le).filter _)

/-- In every run in which each published request is finite throughout or has a
value that is not finite in every slice, no rank ever skips a job that another
rank reduces. -/
theorem lockstep_of_uniform (usize : worldSize ≤ 2 ^ 64) {actions : List Action} {s : State}
    (ran : run (step serde env widen worldSize) actions (.initial worldSize) = some s)
    (uniform : Foundations.Transition.Admitted (step serde env widen worldSize)
      (PublishesUniform env widen worldSize) actions (.initial worldSize)) :
    InLockstep s :=
  (run_invariant_of_admitted (step_inv usize) initial_inv uniform ran).inLockstep

instance : (action : Action) → (s : State) → Decidable (PublishesUniform env widen worldSize action s)
  | .publish request, _ => match passed : admitted env widen worldSize request with
      | .ok slices => decidable_of_iff (Uniform slices) (by simp only [PublishesUniform, passed])
      | .error _ => isTrue (by simp only [PublishesUniform, passed])
  | .receive _, _ | .reduced _, _ | .write _, _ | .exit _, _ => isTrue trivial

/-- Two ranks enter one job; nobody can read the next one. -/
def finiteRun : List Action :=
  [.publish ⟨"first", "softmax", [Single.zero, Single.one]⟩,
    .publish ⟨"second", "softmax", [Single.nan, Single.nan]⟩,
    .receive 0, .receive 1]

theorem lockstep_of_uniform_finite :
    ∃ s, run (step JsonText.serde (fun _ => none) SmallFloats.widen 2) finiteRun (.initial 2) =
      some s ∧ InLockstep s := by
  have ran : (run (step JsonText.serde (fun _ => none) SmallFloats.widen 2) finiteRun
      (.initial 2)).isSome := by
    decide +kernel
  have uniform : Foundations.Transition.Admitted
      (step JsonText.serde (fun _ => none) SmallFloats.widen 2)
      (PublishesUniform (fun _ => none) SmallFloats.widen 2) finiteRun (.initial 2) := by
    decide +kernel
  obtain ⟨s, final⟩ := Option.isSome_iff_exists.mp ran
  have usize : 2 ≤ 2 ^ 64 := by decide
  exact ⟨s, final, lockstep_of_uniform usize final uniform⟩

/-- The first job has NaN in the slice of rank 0 only: rank 0 skips it and
enters the second job while rank 1 waits in the collective of the first. -/
def skippingRun : List Action :=
  [.publish ⟨"first", "softmax", [Single.nan, Single.zero]⟩,
    .publish ⟨"second", "softmax", [Single.zero, Single.zero]⟩,
    .receive 0, .receive 1, .receive 0]

theorem nan_breaks_lockstep :
    ¬ ∀ (serde : SerdeJson) (env : Env) (widen : Single → Double) (worldSize : Nat) (s : State),
      Reachable (step serde env widen worldSize) (.initial worldSize) s → InLockstep s := by
  intro lockstep
  have ran : (run (step JsonText.serde (fun _ => none) SmallFloats.widen 2) skippingRun
      (.initial 2)).map State.ranks = some
        [⟨2, [1], 1, .reducingMax⟩, ⟨1, [0], 1, .reducingMax⟩] := by
    decide +kernel
  obtain ⟨s, final, ranks⟩ := Option.map_eq_some_iff.mp ran
  have same := lockstep JsonText.serde _ _ 2 s ⟨skippingRun, final⟩ ⟨2, [1], 1, .reducingMax⟩
    (by rw [ranks]; simp) ⟨1, [0], 1, .reducingMax⟩ (by rw [ranks]; simp)
  rcases same with starts | starts <;> simp [List.cons_prefix_cons] at starts

end DistributedSoftmax.System.Lockstep
