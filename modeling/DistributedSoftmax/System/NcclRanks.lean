import DistributedSoftmax.Foundations.Folds
import DistributedSoftmax.System.JobResults
import DistributedSoftmax.System.Lockstep
import DistributedSoftmax.System.NcclJobs

/-! What the ranks compute when the jobs reach all of them in one order: every
collective combines what the ranks have for one job, so what a rank writes for
a job is its share of the reduction of that job. -/

set_option autoImplicit false

namespace DistributedSoftmax.System.NcclJobs
open Foundations.Folds
open Gateway Worker
open Jobs (WorkerTask)

variable (p : Platform)

section job
variable (request : TaskRequest)

/-- The values that a rank reads. -/
def inputOf (r : Nat) : Option (List Single) := do
  let slice ← (slicesOf p request)[r]?
  let values ← received p.gateway.serde slice
  return values.map p.gateway.narrow

/-- A rank at the first collective of the job. -/
def atMax (r : Nat) : Option (Contribution Single (Contribution Single (List Single))) :=
  (inputOf p request r).bind (allReduceSoftmax p.f32 (p.launches r))

def allAtMax : Option (List (Contribution Single (Contribution Single (List Single)))) :=
  (List.range p.worldSize).mapM (atMax p request)

/-- A rank at the second collective, once all have been at the first. -/
def atSum (r : Nat) : Option (Contribution Single (List Single)) := do
  let rank ← atMax p request r
  let all ← allAtMax p request
  rank.resume (p.f32.foldMax (all.map Contribution.value))

def allAtSum : Option (List (Contribution Single (List Single))) :=
  (List.range p.worldSize).mapM (atSum p request)

/-- The probabilities of a rank. -/
def probsOf (r : Nat) : Option (List Single) := do
  let rank ← atSum p request r
  let all ← allAtSum p request
  rank.resume (p.f32.sum (all.map Contribution.value))

/-- The message for a rank. -/
def messageOf (r : Nat) : Json Double :=
  taskMessage request r ((slicesOf p request)[r]?.getD [])

/-- The gateway accepts the request. -/
def Admitted : Prop :=
  requestSlices (dispatch p) p.gateway.env p.gateway.widen request = .ok (slicesOf p request)

/-- All its values are finite: the ranks join its collectives. -/
def finite : Bool := (slicesOf p request).all fun slice => slice.all Double.isFinite

end job

/-- The jobs whose collectives the ranks join. -/
def reducedJobs (jobs : List TaskRequest) : List TaskRequest := jobs.filter (finite p)

/-- Where a rank stands that has entered `e` of the jobs. -/
def Stands (jobs : List TaskRequest) (r e : Nat) (rank : Rank) : Prop :=
  match rank.phase with
  | .receiving => rank.contributed.length = 2 * e
  | .reducingMax msg resume => ∃ j request c, e = j + 1 ∧ rank.contributed.length = 2 * j + 1 ∧
      (reducedJobs p jobs)[j]? = some request ∧ msg.jobId = request.jobId ∧ msg.sliceId = r ∧
      atMax p request r = some c ∧ resume = c.resume
  | .reducingSum msg resume => ∃ j request c, e = j + 1 ∧ rank.contributed.length = 2 * j + 2 ∧
      (reducedJobs p jobs)[j]? = some request ∧ msg.jobId = request.jobId ∧ msg.sliceId = r ∧
      atSum p request r = some c ∧ resume = c.resume
  | .writing task => rank.contributed.length = 2 * e ∧ ∃ request ∈ jobs, ∃ probs,
      probsOf p request r = some probs ∧ task.jobId = request.jobId ∧ task.sliceId = r ∧
      task.payload = encodeNormalized probs
  | .exited => True

/-- What a rank has given to the collectives belongs to the jobs in their order. -/
structure RankOk (jobs : List TaskRequest) (r : Nat) (rank : Rank) : Prop where
  bound : rank.received ≤ jobs.length
  contributed : ∀ (k : Nat) v, rank.contributed[k]? = some v →
    ∃ request, (reducedJobs p jobs)[k / 2]? = some request ∧
      if k % 2 = 0 then (atMax p request r).map Contribution.value = some v
      else (atSum p request r).map Contribution.value = some v
  stands : Stands p jobs r (reducedJobs p (jobs.take rank.received)).length rank

variable {p} {jobs : List TaskRequest} {r : Nat} {rank : Rank}

theorem initial_rankOk : RankOk p [] r ⟨0, [], .receiving⟩ where
  bound := Nat.zero_le _
  contributed _ _ given := by cases given
  stands := rfl

theorem reducedJobs_append (jobs more : List TaskRequest) :
    reducedJobs p (jobs ++ more) = reducedJobs p jobs ++ reducedJobs p more :=
  List.filter_append jobs more

/-- A job that comes later changes nothing for a rank. -/
theorem RankOk.later (ok : RankOk p jobs r rank) (request : TaskRequest) :
    RankOk p (jobs ++ [request]) r rank := by
  have grows : ∀ (j : Nat) other, (reducedJobs p jobs)[j]? = some other →
      (reducedJobs p (jobs ++ [request]))[j]? = some other := by
    intro j other at_j
    rw [reducedJobs_append, List.getElem?_append_left (List.getElem?_eq_some_iff.mp at_j).1]
    exact at_j
  refine ⟨?_, ?_, ?_⟩
  · rw [List.length_append]
    exact Nat.le_add_right_of_le ok.bound
  · intro k v given
    obtain ⟨other, at_k, value⟩ := ok.contributed k v given
    exact ⟨other, grows _ _ at_k, value⟩
  · have stands := ok.stands
    rw [List.take_append_of_le_length ok.bound]
    unfold Stands at stands ⊢
    split at stands
    · exact stands
    · obtain ⟨j, other, c, entered, length, at_j, rest⟩ := stands
      exact ⟨j, other, c, entered, length, grows j other at_j, rest⟩
    · obtain ⟨j, other, c, entered, length, at_j, rest⟩ := stands
      exact ⟨j, other, c, entered, length, grows j other at_j, rest⟩
    · obtain ⟨length, other, member, rest⟩ := stands
      exact ⟨length, other, List.mem_append_left _ member, rest⟩
    · trivial

/-- What the collective `k` combines, when every rank that has called it gave
what `f` says. -/
theorem collected_eq {R : Type} {ranks : List Rank} {k : Nat} {values : List Single}
    (complete : collected ranks k = some values) {f : Nat → Option (Contribution Single R)}
    (each : ∀ (i : Nat) rank v, ranks[i]? = some rank → rank.contributed[k]? = some v →
      (f i).map Contribution.value = some v) :
    ∃ all, (List.range ranks.length).mapM f = some all ∧ all.map Contribution.value = values := by
  obtain ⟨lengths, given⟩ := getElem?_of_mapM complete
  have entries : ∀ (i : Nat) v, values[i]? = some v → ∃ x c,
      (List.range ranks.length)[i]? = some x ∧ f x = some c ∧ v = Contribution.value c := by
    intro i v at_i
    obtain ⟨rank, at_rank, gave⟩ := given i v at_i
    obtain ⟨c, computed, value⟩ := Option.map_eq_some_iff.mp (each i rank v at_rank gave)
    have inside : i < ranks.length := (List.getElem?_eq_some_iff.mp at_rank).1
    exact ⟨i, c, List.getElem?_range inside, computed, value.symm⟩
  obtain ⟨all, mapped, same⟩ :=
    Jobs.mapM_of_getElem? (lengths.trans List.length_range.symm) entries
  exact ⟨all, mapped, same.symm⟩

section receiving
variable {request : TaskRequest} (admitted : Admitted p request)
include admitted

theorem Admitted.softmax : request.task = "softmax" := (requestSlices_eq_ok.mp admitted).1

theorem Admitted.length : (slicesOf p request).length = p.worldSize :=
  length_cutSlices_nccl (requestSlices_eq_ok.mp admitted).2.2

/-- The ranks join the collectives of a job together or not at all. -/
theorem joined_messageOf (inside : r < p.worldSize) (uniform : Lockstep.Uniform (slicesOf p request)) :
    joined p (messageOf p request r) = none ∧ finite p request = false ∨
    ∃ msg input, joined p (messageOf p request r) = some msg ∧ finite p request = true ∧
      msg.jobId = request.jobId ∧ msg.sliceId = r ∧ inputOf p request r = some input ∧
      msg.data.map p.gateway.narrow = input := by
  have bound : r < 2 ^ 64 := Nat.lt_trans inside p.usize
  obtain ⟨slice, at_r⟩ : ∃ slice, (slicesOf p request)[r]? = some slice :=
    ⟨_, List.getElem?_eq_getElem (admitted.length.symm ▸ inside)⟩
  have member : slice ∈ slicesOf p request := List.mem_of_getElem? at_r
  have message : messageOf p request r = taskMessage request r slice := by
    rw [messageOf, at_r, Option.getD_some]
  rw [joined, message, ofJson_taskMessage, if_pos bound]
  rcases uniform with allFinite | noneFinite
  · right
    have values := received_of_finite p.gateway.serde (List.all_eq_true.mp (allFinite slice member))
    refine ⟨⟨request.jobId, r, request.task, slice.map p.gateway.serde.reread⟩,
      (slice.map p.gateway.serde.reread).map p.gateway.narrow, ?_, ?_, rfl, rfl, ?_, rfl⟩
    · rw [values, Option.map_some, Option.filter_some, admitted.softmax]
      rfl
    · exact List.all_eq_true.mpr allFinite
    · rw [inputOf, at_r, Option.bind_eq_bind, Option.bind_some, values]
      rfl
  · left
    obtain ⟨x, in_slice, bad⟩ := List.any_eq_true.mp (noneFinite slice member)
    have infinite : x.isFinite = false := by simpa using bad
    refine ⟨?_, ?_⟩
    · rw [received_eq_none p.gateway.serde in_slice infinite]
      rfl
    · refine Bool.eq_false_iff.mpr fun all => ?_
      have inSlice := List.all_eq_true.mp (List.all_eq_true.mp all slice member) x in_slice
      rw [infinite] at inSlice
      cases inSlice

end receiving

/-- What holds at each place of a list and at the next one. -/
theorem each_concat {α : Type} {P : Nat → α → Prop} {xs : List α} {x : α}
    (each : ∀ (i : Nat) y, xs[i]? = some y → P i y) (next : P xs.length x) :
    ∀ (i : Nat) y, (xs ++ [x])[i]? = some y → P i y := by
  intro i y at_i
  rcases Nat.lt_or_ge i xs.length with before | behind
  · rw [List.getElem?_append_left before] at at_i
    exact each i y at_i
  · rw [List.getElem?_append_right behind] at at_i
    have last : i - xs.length = 0 := by
      have inside := (List.getElem?_eq_some_iff.mp at_i).1
      rw [List.length_singleton] at inside
      omega
    rw [last] at at_i
    cases at_i
    rwa [Nat.le_antisymm (Nat.sub_eq_zero_iff_le.mp last) behind]

/-- The jobs before position `n` and the one at it. -/
theorem take_succ_eq {request : TaskRequest} {n : Nat} (at_n : jobs[n]? = some request) :
    jobs.take (n + 1) = jobs.take n ++ [request] := by
  rw [List.take_add_one, at_n]
  rfl

theorem RankOk.receive {request : TaskRequest} (ok : RankOk p jobs r rank)
    (waits : rank.phase = .receiving) (next : jobs[rank.received]? = some request)
    (inside : r < p.worldSize) (admitted : Admitted p request)
    (uniform : Lockstep.Uniform (slicesOf p request)) :
    RankOk p jobs r (rank.receive p r (messageOf p request r)) := by
  have bound : rank.received + 1 ≤ jobs.length := (List.getElem?_eq_some_iff.mp next).1
  have length : rank.contributed.length =
      2 * (reducedJobs p (jobs.take rank.received)).length := by
    have stands := ok.stands
    rw [Stands, waits] at stands
    exact stands
  have prefixes : reducedJobs p (jobs.take (rank.received + 1)) =
      reducedJobs p (jobs.take rank.received) ++ reducedJobs p [request] := by
    rw [take_succ_eq next, reducedJobs_append]
  rcases joined_messageOf admitted inside uniform with ⟨skipped, infinite⟩ |
    ⟨msg, input, joins, isFinite, jobId, sliceId, read, data⟩
  · rw [Rank.receive, skipped]
    refine ⟨bound, ok.contributed, ?_⟩
    have none_more : reducedJobs p [request] = [] := by
      rw [reducedJobs, List.filter_singleton, infinite]
      rfl
    simp only [Stands, waits]
    rw [prefixes, none_more, List.append_nil]
    exact length
  · -- The job is the next of those that the ranks reduce.
    have one_more : reducedJobs p [request] = [request] := by
      rw [reducedJobs, List.filter_singleton, isFinite]
      rfl
    have entered : (reducedJobs p (jobs.take (rank.received + 1))).length =
        (reducedJobs p (jobs.take rank.received)).length + 1 := by
      rw [prefixes, one_more, List.length_append, List.length_singleton]
    have here : (reducedJobs p jobs)[(reducedJobs p (jobs.take rank.received)).length]? =
        some request := by
      have whole : jobs = jobs.take (rank.received + 1) ++ jobs.drop (rank.received + 1) :=
        (List.take_append_drop _ _).symm
      have split : reducedJobs p jobs = reducedJobs p (jobs.take rank.received) ++ [request] ++
          reducedJobs p (jobs.drop (rank.received + 1)) := by
        rw [← one_more, ← prefixes, ← reducedJobs_append, ← whole]
      rw [split, List.append_assoc, List.getElem?_append_right (Nat.le_refl _), Nat.sub_self]
      rfl
    have begins : atMax p request r =
        allReduceSoftmax p.f32 (p.launches r) (msg.data.map p.gateway.narrow) := by
      rw [atMax, read, Option.bind_some, data]
    rw [Rank.receive, joins]
    simp only
    split
    · exact ⟨bound, ok.contributed, trivial⟩
    · rename_i c started
      rw [started] at begins
      refine ⟨bound, ?_, ?_⟩
      · refine each_concat ok.contributed ⟨request, ?_, ?_⟩
        · rw [length, Nat.mul_div_cancel_left _ (by decide)]
          exact here
        · rw [length, Nat.mul_mod_right, if_pos rfl, begins]
          rfl
      · refine ⟨(reducedJobs p (jobs.take rank.received)).length, request, c, entered, ?_, here,
          jobId, sliceId, begins, rfl⟩
        rw [List.length_append, length, List.length_singleton]

section collectives
variable {ranks : List Rank} (size : ranks.length = p.worldSize)
  (all : ∀ (i : Nat) rank, ranks[i]? = some rank → RankOk p jobs i rank)
include size all

/-- The first collective of a job combines the maxima of all ranks for it. -/
theorem collected_max {j : Nat} {request : TaskRequest} {values : List Single}
    (at_j : (reducedJobs p jobs)[j]? = some request) (complete : collected ranks (2 * j) = some values) :
    ∃ first, allAtMax p request = some first ∧ first.map Contribution.value = values := by
  have given := collected_eq complete (f := atMax p request) <| by
    intro i rank v at_i gave
    obtain ⟨other, same, value⟩ := (all i rank at_i).contributed (2 * j) v gave
    rw [Nat.mul_div_cancel_left _ (by decide), at_j] at same
    obtain rfl := Option.some.inj same
    rwa [Nat.mul_mod_right, if_pos rfl] at value
  rwa [size] at given

/-- The second one combines their sums. -/
theorem collected_sum {j : Nat} {request : TaskRequest} {values : List Single}
    (at_j : (reducedJobs p jobs)[j]? = some request)
    (complete : collected ranks (2 * j + 1) = some values) :
    ∃ second, allAtSum p request = some second ∧ second.map Contribution.value = values := by
  have given := collected_eq complete (f := atSum p request) <| by
    intro i rank v at_i gave
    obtain ⟨other, same, value⟩ := (all i rank at_i).contributed (2 * j + 1) v gave
    rw [show (2 * j + 1) / 2 = j by omega, at_j] at same
    obtain rfl := Option.some.inj same
    rwa [show (2 * j + 1) % 2 = 1 by omega, if_neg (by decide)] at value
  rwa [size] at given

theorem RankOk.reduced {after : Rank} (ok : RankOk p jobs r rank)
    (stepped : rank.reduced p ranks = some after) : RankOk p jobs r after := by
  have stands := ok.stands
  unfold Rank.reduced at stepped
  split at stepped
  · rename_i msg resume waits
    rw [Stands, waits] at stands
    obtain ⟨j, request, c, entered, length, at_j, jobId, sliceId, begins, rfl⟩ := stands
    obtain ⟨values, complete, rfl⟩ := Option.map_eq_some_iff.mp stepped
    rw [length, Nat.add_sub_cancel] at complete
    obtain ⟨first, together, rfl⟩ := collected_max size all at_j complete
    split
    · exact ⟨ok.bound, ok.contributed, trivial⟩
    · rename_i next resumed
      have sums : atSum p request r = some next := by
        rw [atSum, begins, together]
        exact resumed
      refine ⟨ok.bound, each_concat ok.contributed ⟨request, ?_, ?_⟩, ?_⟩
      · rw [length, show (2 * j + 1) / 2 = j by omega]
        exact at_j
      · rw [length, show (2 * j + 1) % 2 = 1 by omega, if_neg (by decide), sums]
        rfl
      · refine ⟨j, request, next, entered, ?_, at_j, jobId, sliceId, sums, rfl⟩
        rw [List.length_append, length, List.length_singleton]
  · rename_i msg resume waits
    rw [Stands, waits] at stands
    obtain ⟨j, request, c, entered, length, at_j, jobId, sliceId, sums, rfl⟩ := stands
    obtain ⟨values, complete, rfl⟩ := Option.map_eq_some_iff.mp stepped
    rw [length, show 2 * j + 2 - 1 = 2 * j + 1 by omega] at complete
    obtain ⟨second, together, rfl⟩ := collected_sum size all at_j complete
    split
    · exact ⟨ok.bound, ok.contributed, trivial⟩
    · rename_i probs resumed
      have done : probsOf p request r = some probs := by
        rw [probsOf, sums, together]
        exact resumed
      have made : request ∈ jobs := List.mem_of_mem_filter (List.mem_of_getElem? at_j)
      refine ⟨ok.bound, ok.contributed, ?_, request, made, probs, done, jobId, sliceId, rfl⟩
      rw [entered, length]
      omega
  · cases stepped

end collectives

end DistributedSoftmax.System.NcclJobs
