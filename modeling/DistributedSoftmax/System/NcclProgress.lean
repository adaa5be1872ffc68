import Mathlib.Data.List.MinMax
import DistributedSoftmax.Foundations.Folds
import DistributedSoftmax.System.Lockstep

/-! The collectives of the ranks over whole runs: what is reduced together, what
a rank that has left does to the others, and that the ranks get to the end of
the published jobs whatever the order of their steps. -/

set_option autoImplicit false

namespace DistributedSoftmax.System.Lockstep
open Foundations.Order Foundations.Transition
open Gateway Worker

/-- What one step of rank `r` does to it. -/
inductive Moves (serde : SerdeJson) (s : State) (r : Nat) (rank : Rank) : Action → Rank → Prop where
  | receive {message : Json Double} : rank.phase = .receiving →
      s.jobs[rank.received]?.bind (Job.message · r) = some message →
      Moves serde s r rank (.receive r) (rank.receive (joins serde message))
  | reducedMax : rank.phase = .reducingMax →
      (∀ other ∈ s.ranks, rank.collectives ≤ other.collectives) →
      Moves serde s r rank (.reduced r)
        { rank with collectives := rank.collectives + 1, phase := .reducingSum }
  | reducedSum : rank.phase = .reducingSum →
      (∀ other ∈ s.ranks, rank.collectives ≤ other.collectives) →
      Moves serde s r rank (.reduced r) { rank with phase := .writing }
  | write : rank.phase = .writing → Moves serde s r rank (.write r) { rank with phase := .receiving }
  | exit : Moves serde s r rank (.exit r) { rank with phase := .exited }

variable {serde : SerdeJson} {env : Env} {widen : Single → Double} {worldSize : Nat}
  {action : Action} {s next : State}

/-- A step adds a job, or moves one rank. -/
theorem step_cases (applied : step serde env widen worldSize action s = some next) :
    (∃ request, action = .publish request ∧ (next = s ∨ ∃ slices,
      admitted env widen worldSize request = .ok slices ∧
        next = { s with jobs := s.jobs ++ [⟨request, slices⟩] })) ∨
    ∃ r rank changed, s.ranks[r]? = some rank ∧ Moves serde s r rank action changed ∧
      next = { s with ranks := s.ranks.set r changed } := by
  cases action with
  | publish request =>
    simp only [step] at applied
    refine .inl ⟨request, rfl, ?_⟩
    split at applied
    · rename_i slices passed
      cases applied
      exact .inr ⟨slices, passed, rfl⟩
    · cases applied
      exact .inl rfl
  | receive r =>
    simp only [step] at applied
    split at applied
    · cases applied
    rename_i rank at_r
    split at applied
    · rename_i message receiving found
      cases applied
      exact .inr ⟨r, rank, _, at_r, .receive receiving found, rfl⟩
    · cases applied
  | reduced r =>
    simp only [step] at applied
    split at applied
    · cases applied
    rename_i rank at_r
    split at applied
    · rename_i called
      have everybody : ∀ other ∈ s.ranks, rank.collectives ≤ other.collectives :=
        fun other member => of_decide_eq_true (List.all_eq_true.mp called other member)
      split at applied
      · rename_i reducing
        cases applied
        exact .inr ⟨r, rank, _, at_r, .reducedMax reducing everybody, rfl⟩
      · rename_i reducing
        cases applied
        exact .inr ⟨r, rank, _, at_r, .reducedSum reducing everybody, rfl⟩
      · cases applied
    · cases applied
  | write r =>
    simp only [step] at applied
    split at applied
    · cases applied
    rename_i rank at_r
    split at applied
    · rename_i writing
      cases applied
      exact .inr ⟨r, rank, _, at_r, .write writing, rfl⟩
    · cases applied
  | exit r =>
    simp only [step] at applied
    split at applied
    · cases applied
    rename_i rank at_r
    cases applied
    exact .inr ⟨r, rank, _, at_r, .exit, rfl⟩

/-- And every such move is a step. -/
theorem step_of_moves {r : Nat} {rank changed : Rank} (at_r : s.ranks[r]? = some rank)
    (moves : Moves serde s r rank action changed) :
    step serde env widen worldSize action s = some { s with ranks := s.ranks.set r changed } := by
  cases moves with
  | receive receiving found => simp only [step, at_r, receiving, found]
  | reducedMax reducing called =>
    have everybody : (s.ranks.all fun other => rank.collectives ≤ other.collectives) = true :=
      List.all_eq_true.mpr fun other member => decide_eq_true (called other member)
    simp only [step, at_r, everybody, if_true, reducing]
  | reducedSum reducing called =>
    have everybody : (s.ranks.all fun other => rank.collectives ≤ other.collectives) = true :=
      List.all_eq_true.mpr fun other member => decide_eq_true (called other member)
    simp only [step, at_r, everybody, if_true, reducing]
  | write writing => simp only [step, at_r, writing]
  | exit => simp only [step, at_r]

/-- Two collectives for every job, of which a rank in the first has called one. -/
def Rank.Tallied (rank : Rank) : Prop :=
  match rank.phase with
  | .receiving | .writing => rank.collectives = 2 * rank.entered.length
  | .reducingMax => rank.collectives + 1 = 2 * rank.entered.length
  | .reducingSum => rank.collectives = 2 * rank.entered.length ∧ 0 < rank.collectives
  | .exited => rank.collectives ≤ 2 * rank.entered.length ∧
      2 * rank.entered.length ≤ rank.collectives + 1

/-- The collectives of the ranks: nobody is more than one ahead of anybody, and
a rank outside of a collective is ahead of nobody. -/
structure Paced (s : State) : Prop where
  tallied : ∀ rank ∈ s.ranks, rank.Tallied
  near : ∀ rank ∈ s.ranks, ∀ other ∈ s.ranks, rank.collectives ≤ other.collectives + 1
  passed : ∀ rank ∈ s.ranks, rank.phase = .receiving ∨ rank.phase = .writing →
    ∀ other ∈ s.ranks, rank.collectives ≤ other.collectives

theorem Rank.Tallied.called_le {rank : Rank} (tallied : rank.Tallied) :
    rank.collectives ≤ 2 * rank.entered.length := by
  unfold Rank.Tallied at tallied
  split at tallied <;> omega

theorem Rank.Tallied.le_called {rank : Rank} (tallied : rank.Tallied) :
    2 * rank.entered.length ≤ rank.collectives + 1 := by
  unfold Rank.Tallied at tallied
  split at tallied <;> omega

theorem initial_paced : Paced (.initial worldSize) where
  tallied rank member := by
    rw [List.eq_of_mem_replicate member]
    exact rfl
  near rank member other otherMember := by
    rw [List.eq_of_mem_replicate member]
    exact Nat.zero_le _
  passed rank member _ other otherMember := by
    rw [List.eq_of_mem_replicate member]
    exact Nat.zero_le _

/-- A rank that called at most one collective more, and only when all others
had called as many as it. -/
theorem Paced.set (paced : Paced s) {r : Nat} {rank changed : Rank} (at_r : s.ranks[r]? = some rank)
    (grows : rank.collectives ≤ changed.collectives) (tallied : changed.Tallied)
    (near : ∀ other ∈ s.ranks, changed.collectives ≤ other.collectives + 1)
    (passed : changed.phase = .receiving ∨ changed.phase = .writing →
      ∀ other ∈ s.ranks, changed.collectives ≤ other.collectives) :
    Paced { s with ranks := s.ranks.set r changed } := by
  have member := List.mem_of_getElem? at_r
  refine ⟨?_, ?_, ?_⟩
  · intro one later
    rcases List.mem_or_eq_of_mem_set later with before | rfl
    · exact paced.tallied one before
    · exact tallied
  · intro one later other otherLater
    rcases List.mem_or_eq_of_mem_set later with before | rfl
    · rcases List.mem_or_eq_of_mem_set otherLater with otherBefore | rfl
      · exact paced.near one before other otherBefore
      · exact (paced.near one before rank member).trans (Nat.add_le_add_right grows 1)
    · rcases List.mem_or_eq_of_mem_set otherLater with otherBefore | rfl
      · exact near other otherBefore
      · exact Nat.le_succ _
  · intro one later between other otherLater
    rcases List.mem_or_eq_of_mem_set later with before | rfl
    · rcases List.mem_or_eq_of_mem_set otherLater with otherBefore | rfl
      · exact paced.passed one before between other otherBefore
      · exact (paced.passed one before between rank member).trans grows
    · rcases List.mem_or_eq_of_mem_set otherLater with otherBefore | rfl
      · exact passed between other otherBefore
      · exact Nat.le_refl _

theorem moves_paced (paced : Paced s) {r : Nat} {rank changed : Rank}
    (at_r : s.ranks[r]? = some rank) (moves : Moves serde s r rank action changed) :
    Paced { s with ranks := s.ranks.set r changed } := by
  have member := List.mem_of_getElem? at_r
  have tallied := paced.tallied rank member
  cases moves with
  | @receive message receiving found =>
    have behind := paced.passed rank member (.inl receiving)
    have count : rank.collectives = 2 * rank.entered.length := by
      simpa only [Rank.Tallied, receiving] using tallied
    unfold Rank.receive
    split
    · apply paced.set at_r
      · exact Nat.le_succ _
      · simp only [Rank.Tallied, List.length_append, List.length_singleton]
        omega
      · exact fun other inside => Nat.succ_le_succ (behind other inside)
      · simp
    · apply paced.set at_r
      · exact Nat.le_refl _
      · simpa only [Rank.Tallied, receiving] using count
      · exact fun other inside => (behind other inside).trans (Nat.le_succ _)
      · exact fun _ => behind
  | reducedMax reducing called =>
    simp only [Rank.Tallied, reducing] at tallied
    apply paced.set at_r
    · exact Nat.le_succ _
    · exact ⟨tallied, Nat.succ_pos _⟩
    · exact fun other inside => Nat.succ_le_succ (called other inside)
    · simp
  | reducedSum reducing called =>
    simp only [Rank.Tallied, reducing] at tallied
    apply paced.set at_r
    · exact Nat.le_refl _
    · exact tallied.1
    · exact fun other inside => (called other inside).trans (Nat.le_succ _)
    · exact fun _ => called
  | write writing =>
    simp only [Rank.Tallied, writing] at tallied
    apply paced.set at_r
    · exact Nat.le_refl _
    · exact tallied
    · exact paced.near rank member
    · exact fun _ => paced.passed rank member (.inr writing)
  | exit =>
    apply paced.set at_r
    · exact Nat.le_refl _
    · exact ⟨tallied.called_le, tallied.le_called⟩
    · exact paced.near rank member
    · simp

theorem step_paced (paced : Paced s) (applied : step serde env widen worldSize action s = some next) :
    Paced next := by
  rcases step_cases applied with ⟨_, -, rfl | ⟨_, -, rfl⟩⟩ | ⟨r, rank, changed, at_r, moves, rfl⟩
  · exact paced
  · exact ⟨paced.tallied, paced.near, paced.passed⟩
  · exact moves_paced paced at_r moves

theorem run_paced {actions : List Action}
    (ran : run (step serde env widen worldSize) actions (.initial worldSize) = some s) : Paced s :=
  run_invariant (fun _ _ _ paced applied => step_paced paced applied) initial_paced ran

/-- The job whose values a rank puts into collective number `c`. -/
def Rank.job (rank : Rank) (c : Nat) : Option Nat := rank.entered[(c - 1) / 2]?

theorem Rank.Tallied.job_eq {rank : Rank} (tallied : rank.Tallied)
    (reducing : rank.phase = .reducingMax ∨ rank.phase = .reducingSum) :
    rank.job rank.collectives = rank.entered.getLast? ∧ 0 < rank.collectives := by
  rw [Rank.job, List.getLast?_eq_getElem?]
  rcases reducing with phase | phase <;> simp only [Rank.Tallied, phase] at tallied
  · exact ⟨congrArg (rank.entered[·]?) (by omega), by omega⟩
  · exact ⟨congrArg (rank.entered[·]?) (by omega), tallied.2⟩

/-- What a reduction combines: from every rank its values for one job, which is
the one that the rank was waiting for; and where another rank waits in the same
collective it is for the same reduction. -/
def ReducesOneJob (r : Nat) (s : State) : Prop :=
  ∃ rank job, s.ranks[r]? = some rank ∧ rank.entered.getLast? = some job ∧
    ∀ other ∈ s.ranks, other.job rank.collectives = some job ∧
      (other.phase = .reducingMax ∨ other.phase = .reducingSum →
        other.collectives = rank.collectives → other.phase = rank.phase)

theorem Paced.reducesOneJob (paced : Paced s) (inLockstep : InLockstep s) {r : Nat} {rank : Rank}
    (at_r : s.ranks[r]? = some rank)
    (reducing : rank.phase = .reducingMax ∨ rank.phase = .reducingSum)
    (called : ∀ other ∈ s.ranks, rank.collectives ≤ other.collectives) : ReducesOneJob r s := by
  have member := List.mem_of_getElem? at_r
  have tallied := paced.tallied rank member
  obtain ⟨last, positive⟩ := tallied.job_eq reducing
  have within : ∀ other ∈ s.ranks, (rank.collectives - 1) / 2 < other.entered.length := by
    intro other inside
    have bound := (paced.tallied other inside).called_le
    have le := called other inside
    omega
  have own := List.getElem?_eq_getElem (within rank member)
  refine ⟨rank, _, at_r, last.symm.trans own, ?_⟩
  intro other inside
  constructor
  · exact ((inLockstep other inside rank member).getElem?_eq (within other inside)
      (within rank member)).trans own
  · -- The number of a collective says which of the two it is.
    intro waits same
    have otherTallied := paced.tallied other inside
    rcases reducing with phase | phase <;> rcases waits with phase' | phase' <;>
      simp only [Rank.Tallied, phase, phase'] at tallied otherTallied ⊢ <;> omega

/-- No collective mixes two jobs: in a run in which every published request is
readable on all ranks or on none, each reduction that completes combines what
all ranks contribute for one and the same job. -/
theorem reductions_unmixed (usize : worldSize ≤ 2 ^ 64) {actions : List Action} {r : Nat}
    (ran : run (step serde env widen worldSize) actions (.initial worldSize) = some s)
    (uniform : Foundations.Transition.Admitted (step serde env widen worldSize)
      (PublishesUniform env widen worldSize) actions (.initial worldSize))
    (reduced : step serde env widen worldSize (.reduced r) s = some next) : ReducesOneJob r s := by
  have inLockstep := lockstep_of_uniform usize ran uniform
  rcases step_cases reduced with ⟨_, impossible, -⟩ | ⟨r', rank, changed, at_r, moves, -⟩
  · cases impossible
  · cases moves with
    | reducedMax phase called =>
      exact (run_paced ran).reducesOneJob inLockstep at_r (.inl phase) called
    | reducedSum phase called =>
      exact (run_paced ran).reducesOneJob inLockstep at_r (.inr phase) called

theorem reductions_unmixed_finite :
    ∃ s, run (step JsonText.serde (fun _ => none) SmallFloats.widen 2) finiteRun (.initial 2) =
      some s ∧ ReducesOneJob 0 s := by
  have ran : ((run (step JsonText.serde (fun _ => none) SmallFloats.widen 2) finiteRun
      (.initial 2)).bind fun s => (step JsonText.serde (fun _ => none) SmallFloats.widen 2
        (.reduced 0) s).map fun next => (s, next)).isSome := by
    decide +kernel
  have uniform : Foundations.Transition.Admitted
      (step JsonText.serde (fun _ => none) SmallFloats.widen 2)
      (PublishesUniform (fun _ => none) SmallFloats.widen 2) finiteRun (.initial 2) := by
    decide +kernel
  obtain ⟨⟨s, next⟩, both⟩ := Option.isSome_iff_exists.mp ran
  obtain ⟨s', final, both⟩ := Option.bind_eq_some_iff.mp both
  obtain ⟨next', reduced, -⟩ := Option.map_eq_some_iff.mp both
  exact ⟨s', final, reductions_unmixed (by decide) final uniform reduced⟩

/-- A rank that has left stays as it was. -/
theorem step_exited {r : Nat} {rank : Rank} (at_r : s.ranks[r]? = some rank)
    (exited : rank.phase = .exited) (applied : step serde env widen worldSize action s = some next) :
    next.ranks[r]? = some rank := by
  rcases step_cases applied with ⟨_, -, rfl | ⟨_, -, rfl⟩⟩ | ⟨r', moved, changed, at_r', moves, rfl⟩
  · exact at_r
  · exact at_r
  · by_cases same : r' = r
    · subst same
      cases at_r.symm.trans at_r'
      have unchanged : changed = rank := by
        cases moves with
        | receive phase | reducedMax phase | reducedSum phase | write phase =>
          cases exited.symm.trans phase
        | exit =>
          rw [← exited]
      rw [unchanged, List.getElem?_set_self (List.getElem?_eq_some_iff.mp at_r).1]
    · exact (List.getElem?_set_ne same).trans at_r

/-- A step of the group itself. -/
def Action.Own : Action → Prop
  | .receive _ | .reduced _ | .write _ => True
  | .publish _ | .exit _ => False

/-- Every published job has a slice for each rank, and all ranks are in their loops. -/
structure Shaped (worldSize : Nat) (s : State) : Prop where
  ranks : s.ranks.length = worldSize
  slices : ∀ job ∈ s.jobs, job.slices.length = worldSize
  inside : ∀ rank ∈ s.ranks, rank.phase ≠ .exited

theorem initial_shaped : Shaped worldSize (.initial worldSize) where
  ranks := List.length_replicate
  slices _ member := absurd member List.not_mem_nil
  inside rank member := by
    rw [List.eq_of_mem_replicate member]
    exact fun same => RankPhase.noConfusion same

theorem step_shaped (shaped : Shaped worldSize s) (stays : ∀ r, action ≠ .exit r)
    (applied : step serde env widen worldSize action s = some next) : Shaped worldSize next := by
  rcases step_cases applied with ⟨_, -, rfl | ⟨slices, passed, rfl⟩⟩ |
    ⟨r, rank, changed, at_r, moves, rfl⟩
  · exact shaped
  · refine ⟨shaped.ranks, ?_, shaped.inside⟩
    intro job member
    rcases List.mem_append.mp member with before | new
    · exact shaped.slices job before
    · rw [List.mem_singleton.mp new]
      exact length_cutSlices_nccl (requestSlices_eq_ok.mp passed).2.2
  · refine ⟨(List.length_set).trans shaped.ranks, shaped.slices, ?_⟩
    intro other later
    rcases List.mem_or_eq_of_mem_set later with before | rfl
    · exact shaped.inside other before
    · cases moves with
      | receive phase =>
        unfold Rank.receive
        split
        · exact fun same => RankPhase.noConfusion same
        · rw [phase]
          exact fun same => RankPhase.noConfusion same
      | reducedMax | reducedSum | write => exact fun same => RankPhase.noConfusion same
      | exit => exact absurd rfl (stays r)

/-- How far a rank is from the end of its current job. -/
def RankPhase.left : RankPhase → Nat
  | .receiving | .exited => 0
  | .writing => 1
  | .reducingSum => 2
  | .reducingMax => 3

def Rank.left (jobs : Nat) (rank : Rank) : Nat := 4 * (jobs - rank.received) + rank.phase.left

/-- At most this many steps are left to the ranks. -/
def State.left (s : State) : Nat := (s.ranks.map (Rank.left s.jobs.length)).sum

theorem Action.Own.left_lt (own : action.Own)
    (applied : step serde env widen worldSize action s = some next) : next.left < s.left := by
  rcases step_cases applied with ⟨_, rfl, -⟩ | ⟨r, rank, changed, at_r, moves, rfl⟩
  · exact own.elim
  · apply Foundations.Folds.sum_map_set_lt at_r
    cases moves with
    | receive phase found =>
      obtain ⟨job, at_k, -⟩ := Option.bind_eq_some_iff.mp found
      have index := (List.getElem?_eq_some_iff.mp at_k).1
      unfold Rank.receive
      split <;> simp only [Rank.left, phase, RankPhase.left] <;> omega
    | reducedMax phase | reducedSum phase | write phase =>
      simp only [Rank.left, phase, RankPhase.left]
      omega
    | exit => exact own.elim

/-- Every rank waits for a new job, and has entered the same of the published ones. -/
def AllReduced (serde : SerdeJson) (s : State) : Prop :=
  ∀ rank ∈ s.ranks, rank.phase = .receiving ∧ rank.received = s.jobs.length ∧
    rank.entered = (List.range s.jobs.length).filter (s.joined serde)

/-- Ranks that are not at the end can go on: one of them receives or writes, or
the one that called the fewest collectives is waited for by nobody. -/
theorem exists_own (inv : Inv serde s) (paced : Paced s) (shaped : Shaped worldSize s)
    (unfinished : ¬ AllReduced serde s) : ∃ action next, action.Own ∧
      step serde env widen worldSize action s = some next := by
  -- Nobody can receive or write, so everybody is in a collective or has received all jobs.
  by_contra stuck
  have cannot : ∀ {r rank action changed}, s.ranks[r]? = some rank → action.Own →
      ¬ Moves serde s r rank action changed :=
    fun at_r own moves => stuck ⟨_, _, own, step_of_moves at_r moves⟩
  have waits : ∀ rank ∈ s.ranks, (rank.phase = .receiving ∧ rank.received = s.jobs.length) ∨
      rank.phase = .reducingMax ∨ rank.phase = .reducingSum := by
    intro rank member
    obtain ⟨r, at_r⟩ := List.getElem?_of_mem member
    cases phase : rank.phase with
    | receiving =>
      refine .inl ⟨rfl, (Nat.lt_or_eq_of_le (inv.received rank member)).resolve_left ?_⟩
      intro more
      have slices := shaped.slices _ (List.getElem_mem more)
      have index := (List.getElem?_eq_some_iff.mp at_r).1
      rw [shaped.ranks, ← slices] at index
      have found : s.jobs[rank.received]?.bind (Job.message · r) =
          some (taskMessage s.jobs[rank.received].request r s.jobs[rank.received].slices[r]) := by
        rw [List.getElem?_eq_getElem more, Option.bind_some, Job.message,
          List.getElem?_eq_getElem index, Option.map_some]
      exact cannot at_r (show (Action.receive r).Own from trivial) (.receive phase found)
    | reducingMax => exact .inr (.inl rfl)
    | reducingSum => exact .inr (.inr rfl)
    | writing => exact absurd (.write phase) (cannot at_r (show (Action.write r).Own from trivial))
    | exited => exact absurd phase (shaped.inside rank member)
  obtain ⟨rank, member, reducing⟩ : ∃ rank ∈ s.ranks,
      rank.phase = .reducingMax ∨ rank.phase = .reducingSum := by
    by_contra nobody
    apply unfinished
    intro rank member
    rcases waits rank member with ⟨phase, all⟩ | reducing
    · exact ⟨phase, all, all ▸ inv.entered rank member⟩
    · exact absurd ⟨rank, member, reducing⟩ nobody
  let waiting := s.ranks.filter fun rank => rank.phase = .reducingMax ∨ rank.phase = .reducingSum
  have among : rank ∈ waiting := List.mem_filter.mpr ⟨member, decide_eq_true reducing⟩
  obtain ⟨first, least⟩ := Option.ne_none_iff_exists'.mp
    (mt List.argmin_eq_none.mp (List.ne_nil_of_mem among) : waiting.argmin Rank.collectives ≠ none)
  obtain ⟨inside, itself⟩ := List.mem_filter.mp (List.argmin_mem least)
  have itself := of_decide_eq_true itself
  have tallied := (paced.tallied first inside).called_le
  have called : ∀ other ∈ s.ranks, first.collectives ≤ other.collectives := by
    intro other otherInside
    rcases waits other otherInside with ⟨phase, all⟩ | otherReducing
    · -- It has entered every job that the first one has.
      have more : first.entered.length ≤ other.entered.length := by
        rw [inv.entered first inside, inv.entered other otherInside, all]
        exact ((range_initial (inv.received first inside)).filter _).length_le
      have count := paced.tallied other otherInside
      simp only [Rank.Tallied, phase] at count
      omega
    · exact List.le_of_mem_argmin (List.mem_filter.mpr ⟨otherInside, decide_eq_true otherReducing⟩) least
  obtain ⟨r, at_r⟩ := List.getElem?_of_mem inside
  rcases itself with phase | phase
  · exact cannot at_r (show (Action.reduced r).Own from trivial) (.reducedMax phase called)
  · exact cannot at_r (show (Action.reduced r).Own from trivial) (.reducedSum phase called)

/-- All that a state without failures keeps. -/
structure Sound (serde : SerdeJson) (worldSize : Nat) (s : State) : Prop where
  inv : Inv serde s
  paced : Paced s
  shaped : Shaped worldSize s

theorem completes (usize : worldSize ≤ 2 ^ 64) :
    Completes (step serde env widen worldSize) Action.Own (Sound serde worldSize) (AllReduced serde)
      State.left where
  preserved action s next sound own applied := by
    have uniform : PublishesUniform env widen worldSize action s := by
      cases action with
      | publish | exit => exact own.elim
      | receive | reduced | write => trivial
    have stays : ∀ r, action ≠ .exit r := by
      rintro r rfl
      exact own.elim
    exact ⟨step_inv usize action s next sound.inv uniform applied, step_paced sound.paced applied,
      step_shaped sound.shaped stays applied⟩
  closer _ _ _ _ own applied := own.left_lt applied
  enabled _ sound := exists_own sound.inv sound.paced sound.shaped

/-- What the group does with the jobs published so far: it can reduce all of
them, it does so in a bounded number of steps, and whenever it comes to rest it
has done so. -/
def GroupCompletes (serde : SerdeJson) (env : Env) (widen : Single → Double) (worldSize : Nat)
    (s : State) : Prop :=
  (∃ later final, (∀ action ∈ later, action.Own) ∧
    run (step serde env widen worldSize) later s = some final ∧ AllReduced serde final) ∧
  ∀ later final, (∀ action ∈ later, action.Own) →
    run (step serde env widen worldSize) later s = some final →
      later.length ≤ s.left ∧
        ((∀ action : Action, action.Own → step serde env widen worldSize action final = none) →
          AllReduced serde final)

/-- The group never gets stuck: as long as no rank leaves, and every published
request is readable on all ranks or on none. -/
theorem group_completes (usize : worldSize ≤ 2 ^ 64) {actions : List Action}
    (ran : run (step serde env widen worldSize) actions (.initial worldSize) = some s)
    (uniform : Foundations.Transition.Admitted (step serde env widen worldSize)
      (PublishesUniform env widen worldSize) actions (.initial worldSize))
    (stay : ∀ r, .exit r ∉ actions) : GroupCompletes serde env widen worldSize s := by
  have shaped : Shaped worldSize s := by
    have each : ∀ action ∈ actions, ∀ r, action ≠ .exit r := by
      rintro action member r rfl
      exact stay r member
    exact run_invariant_of_admitted
      (fun _ _ _ shaped fine applied => step_shaped shaped fine.2 applied) initial_shaped
      (uniform.and_forall each) ran
  have sound : Sound serde worldSize s :=
    ⟨run_invariant_of_admitted (step_inv usize) initial_inv uniform ran, run_paced ran, shaped⟩
  refine ⟨(completes usize).reaches sound, ?_⟩
  intro later final each ranLater
  obtain ⟨soundFinal, bound⟩ := (completes usize).bounded sound each ranLater
  exact ⟨by omega, (completes usize).of_stuck soundFinal⟩

theorem group_completes_finite :
    ∃ s, run (step JsonText.serde (fun _ => none) SmallFloats.widen 2) finiteRun (.initial 2) =
      some s ∧ GroupCompletes JsonText.serde (fun _ => none) SmallFloats.widen 2 s := by
  have ran : (run (step JsonText.serde (fun _ => none) SmallFloats.widen 2) finiteRun
      (.initial 2)).isSome := by
    decide +kernel
  have uniform : Foundations.Transition.Admitted
      (step JsonText.serde (fun _ => none) SmallFloats.widen 2)
      (PublishesUniform (fun _ => none) SmallFloats.widen 2) finiteRun (.initial 2) := by
    decide +kernel
  obtain ⟨s, final⟩ := Option.isSome_iff_exists.mp ran
  have stay : ∀ r, Action.exit r ∉ finiteRun := by
    intro r
    simp [finiteRun]
  exact ⟨s, final, group_completes (by decide) final uniform stay⟩

end DistributedSoftmax.System.Lockstep
