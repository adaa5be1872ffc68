import DistributedSoftmax.Foundations.Order
import DistributedSoftmax.Foundations.Transition
import DistributedSoftmax.Gateway.Publisher
import DistributedSoftmax.Gateway.Service

/-! The publish loops of concurrent `submit_task` calls with TRANSPORT=zmq_nccl.
Every loop sends slice `i` to the channel of rank `i`, in ascending order, and
other loops can run between two of its sends. -/

set_option autoImplicit false

namespace DistributedSoftmax.System.RankQueues
open Foundations.Order Foundations.Transition
open Gateway

inductive LoopStatus where
  | running
  | finished
  /-- A publish failed and `submit_task` returned an error. -/
  | failed
  deriving DecidableEq, Repr

/-- The publish loop of one call: its slices and the next one to send. -/
structure Loop where
  request : TaskRequest
  slices : List (List Double)
  next : Nat
  status : LoopStatus
  deriving DecidableEq, Repr

/-- A message in a channel, and the call whose loop sent it. -/
structure Sent where
  call : Nat
  message : Json Double

/-- Everything that was ever sent on the channel of each rank, and the loops. -/
structure State where
  channels : List (List Sent)
  loops : List Loop

def State.initial (worldSize : Nat) : State := ⟨List.replicate worldSize [], []⟩

inductive Action where
  | submit (request : TaskRequest)
  /-- The next send of a loop. -/
  | send (call : Nat)
  /-- The next send of a loop, on a channel whose thread is gone. -/
  | sendFails (call : Nat)
  deriving DecidableEq, Repr

variable (worldSize : Nat) (env : Env) (widen : Single → Double)

def dispatch : Dispatch := ⟨true, worldSize⟩

def step : Action → State → Option State
  | .submit request, s => match requestSlices (dispatch worldSize) env widen request with
      | .ok slices => some { s with loops := s.loops ++ [⟨request, slices, 0, .running⟩] }
      | .error _ => some s
  | .send call, s => match s.loops[call]? with
      | none => none
      | some loop => match loop.status, loop.slices[loop.next]? with
          | .running, some data =>
              match ZmqMultiPublisher.publish s.channels
                  (publishSubject (dispatch worldSize) loop.next)
                  ⟨call, taskMessage loop.request loop.next data⟩ with
              | .ok channels => some ⟨channels, s.loops.set call { loop with
                  next := loop.next + 1
                  status := if loop.next + 1 = loop.slices.length then .finished else .running }⟩
              | .error _ => some { s with loops := s.loops.set call { loop with status := .failed } }
          | _, _ => none
  | .sendFails call, s => match s.loops[call]? with
      | none => none
      | some loop => match loop.status with
          | .running => some { s with loops := s.loops.set call { loop with status := .failed } }
          | _ => none

/-- The calls whose messages were enqueued for a rank, in order. -/
def State.sent (s : State) (rank : Nat) : List Nat := (s.channels[rank]?.getD []).map Sent.call

def State.status (s : State) (call : Nat) : Option LoopStatus := s.loops[call]?.map Loop.status

def State.finished (s : State) (call : Nat) : Bool := s.status call == some .finished

/-- Not failed. -/
def State.alive (s : State) (call : Nat) : Bool := s.status call != some .failed

/-- All ranks received the jobs whose loop has finished in one order. -/
def SameOrder (s : State) : Prop :=
  ∀ rank rank' : Nat, Comparable ((s.sent rank).filter s.finished) ((s.sent rank').filter s.finished)

/-- A send to a later rank waits for the jobs that are ahead on rank 0: each of
them was sent to that rank before, or its loop has failed. -/
def NoOvertaking : Action → State → Prop
  | .send call, s => ∀ loop ∈ s.loops[call]?, loop.next = 0 ∨
      ∀ other ∈ (s.sent 0).takeWhile (· ≠ call),
        s.status other = some .failed ∨ other ∈ s.sent loop.next
  | _, _ => True

instance : (action : Action) → (s : State) → Decidable (NoOvertaking action s)
  | .submit _, _ => isTrue trivial
  | .send call, s => inferInstanceAs (Decidable (∀ loop ∈ s.loops[call]?, loop.next = 0 ∨
      ∀ other ∈ (s.sent 0).takeWhile (· ≠ call),
        s.status other = some .failed ∨ other ∈ s.sent loop.next))
  | .sendFails _, _ => isTrue trivial

/-- Every loop has sent to the ranks below its counter, once, and all ranks
agree with rank 0 on the order of the jobs that have not failed. -/
structure Inv (s : State) : Prop where
  distinct : (s.sent 0).Nodup
  known : ∀ rank, ∀ call ∈ s.sent rank, call < s.loops.length
  position : ∀ (call : Nat) loop, s.loops[call]? = some loop →
    ∀ rank, call ∈ s.sent rank ↔ rank < loop.next
  agrees : ∀ rank, (s.sent rank).filter s.alive <+: (s.sent 0).filter s.alive

theorem sent_set {channels : List (List Sent)} {loops loops' : List Loop} {rank : Nat}
    {sent : List Sent} (at_rank : channels[rank]? = some sent) (entry : Sent) (other : Nat) :
    State.sent ⟨channels.set rank (sent ++ [entry]), loops⟩ other =
      if other = rank then State.sent ⟨channels, loops'⟩ rank ++ [entry.call]
      else State.sent ⟨channels, loops'⟩ other := by
  obtain ⟨index, -⟩ := List.getElem?_eq_some_iff.mp at_rank
  unfold State.sent
  split
  · rename_i same
    subst same
    simp only [List.getElem?_set_self index, at_rank, Option.getD_some, List.map_append,
      List.map_cons, List.map_nil]
  · rename_i different
    rw [List.getElem?_set_ne (Ne.symm different)]

theorem initial_inv : Inv (.initial worldSize) := by
  have nothing : ∀ rank, (State.initial worldSize).sent rank = [] := by
    intro rank
    unfold State.sent State.initial
    by_cases inside : rank < worldSize
    · rw [List.getElem?_replicate_of_lt inside]
      rfl
    · rw [List.getElem?_eq_none (by rw [List.length_replicate]; omega)]
      rfl
  refine ⟨?_, ?_, ?_, ?_⟩
  · rw [nothing]
    exact List.nodup_nil
  · intro rank call member
    rw [nothing] at member
    cases member
  · intro call loop found
    cases found
  · intro rank
    rw [nothing]
    exact List.nil_prefix

section steps
variable {worldSize env widen} {s next : State}

/-- What a step can do: a new loop, nothing, one more message, or a loop that fails. -/
theorem step_cases {action : Action} (applied : step worldSize env widen action s = some next) :
    (∃ request slices, next = { s with loops := s.loops ++ [⟨request, slices, 0, .running⟩] }) ∨
    next = s ∨
    (∃ call loop entry sent status, action = .send call ∧ s.loops[call]? = some loop ∧
      loop.status = .running ∧ status ≠ .failed ∧ s.channels[loop.next]? = some sent ∧
      entry.call = call ∧
      next = ⟨s.channels.set loop.next (sent ++ [entry]),
        s.loops.set call { loop with next := loop.next + 1, status := status }⟩) ∨
    (∃ call loop, s.loops[call]? = some loop ∧
      next = { s with loops := s.loops.set call { loop with status := .failed } }) := by
  cases action with
  | submit request =>
    simp only [step] at applied
    split at applied
    · rename_i slices _
      cases applied
      exact .inl ⟨request, slices, rfl⟩
    · cases applied
      exact .inr (.inl rfl)
  | send call =>
    simp only [step] at applied
    split at applied
    · cases applied
    rename_i loop at_call
    split at applied
    · rename_i data running at_next
      split at applied
      · rename_i channels published
        cases applied
        obtain ⟨sent, at_rank, rfl⟩ := publish_toString published
        refine .inr (.inr (.inl ⟨call, loop, ⟨call, taskMessage loop.request loop.next data⟩, sent, _,
          rfl, at_call, running, ?_, at_rank, rfl, rfl⟩))
        split <;> decide
      · cases applied
        exact .inr (.inr (.inr ⟨call, loop, at_call, rfl⟩))
    · cases applied
  | sendFails call =>
    simp only [step] at applied
    split at applied
    · cases applied
    rename_i loop at_call
    split at applied
    · cases applied
      exact .inr (.inr (.inr ⟨call, loop, at_call, rfl⟩))
    · cases applied

theorem getElem?_set_cases {loops : List Loop} {call other : Nat} {loop changed found : Loop}
    (at_call : loops[call]? = some loop) (at_other : (loops.set call changed)[other]? = some found) :
    (other = call ∧ found = changed) ∨ (other ≠ call ∧ loops[other]? = some found) := by
  by_cases same : call = other
  · subst same
    obtain ⟨index, -⟩ := List.getElem?_eq_some_iff.mp at_call
    rw [List.getElem?_set_self index] at at_other
    exact .inl ⟨rfl, (Option.some.inj at_other).symm⟩
  · rw [List.getElem?_set_ne same] at at_other
    exact .inr ⟨Ne.symm same, at_other⟩

theorem submit_inv (inv : Inv s) (request : TaskRequest) (slices : List (List Double)) :
    Inv { s with loops := s.loops ++ [⟨request, slices, 0, .running⟩] } := by
  have same_alive : ∀ rank, ∀ call ∈ s.sent rank,
      State.alive { s with loops := s.loops ++ [⟨request, slices, 0, .running⟩] } call =
        s.alive call := by
    intro rank call member
    unfold State.alive State.status
    rw [List.getElem?_append_left (inv.known rank call member)]
  refine ⟨inv.distinct, ?_, ?_, ?_⟩
  · intro rank call member
    rw [List.length_append]
    exact Nat.lt_add_right _ (inv.known rank call member)
  · intro call loop found rank
    rcases Nat.lt_or_ge call s.loops.length with old | new
    · rw [List.getElem?_append_left old] at found
      exact inv.position call loop found rank
    · constructor
      · intro member
        exact absurd (inv.known rank call member) (by omega)
      · intro below
        rw [List.getElem?_append_right new] at found
        rw [List.mem_singleton.mp (List.mem_of_getElem? found)] at below
        exact absurd below (Nat.not_lt_zero _)
  · intro rank
    have filters : ∀ rank, (s.sent rank).filter
        (State.alive { s with loops := s.loops ++ [⟨request, slices, 0, .running⟩] }) =
          (s.sent rank).filter s.alive := fun rank => List.filter_congr (same_alive rank)
    exact (filters rank).symm ▸ (filters 0).symm ▸ inv.agrees rank

theorem fail_inv (inv : Inv s) {call : Nat} {loop : Loop} (at_call : s.loops[call]? = some loop) :
    Inv { s with loops := s.loops.set call { loop with status := .failed } } := by
  refine ⟨inv.distinct, ?_, ?_, ?_⟩
  · intro rank other member
    rw [List.length_set]
    exact inv.known rank other member
  · intro other found at_other rank
    rcases getElem?_set_cases at_call at_other with ⟨rfl, rfl⟩ | ⟨-, before⟩
    · exact inv.position other loop at_call rank
    · exact inv.position other found before rank
  · intro rank
    refine filter_prefix_of_imp ?_ (inv.agrees rank)
    intro other alive
    unfold State.alive State.status at alive ⊢
    by_cases same : call = other
    · subst same
      obtain ⟨index, -⟩ := List.getElem?_eq_some_iff.mp at_call
      rw [List.getElem?_set_self index] at alive
      simp at alive
    · rwa [List.getElem?_set_ne same] at alive

theorem mem_takeWhile_ne {whole before after : List Nat} {call other : Nat}
    (split : whole = before ++ call :: after) (distinct : whole.Nodup) (ahead : other ∈ before) :
    other ∈ whole.takeWhile (· ≠ call) := by
  subst split
  have absent : ∀ x ∈ before, decide (x ≠ call) = true := by
    intro x member
    exact decide_eq_true ((List.nodup_append.mp distinct).2.2 x member call List.mem_cons_self)
  rw [List.takeWhile_append_of_pos absent]
  exact List.mem_append_left _ ahead

theorem Inv.unsent (inv : Inv s) {call : Nat} {loop : Loop} (at_call : s.loops[call]? = some loop) :
    call ∉ s.sent loop.next := by
  rw [inv.position call loop at_call]
  exact Nat.lt_irrefl _

/-- Who is alive does not change when a running call sends, unless it fails. -/
theorem alive_send {call : Nat} {loop : Loop} {status : LoopStatus}
    (at_call : s.loops[call]? = some loop) (running : loop.status = .running)
    (fine : status ≠ .failed) (channels : List (List Sent)) :
    State.alive ⟨channels, s.loops.set call { loop with next := loop.next + 1, status := status }⟩ =
      s.alive := by
  obtain ⟨index, -⟩ := List.getElem?_eq_some_iff.mp at_call
  funext other
  unfold State.alive State.status
  by_cases same : call = other
  · subst same
    simp only [List.getElem?_set_self index, at_call, Option.map_some, running]
    cases status with
    | failed => exact absurd rfl fine
    | running | finished => rfl
  · rw [List.getElem?_set_ne same]

/-- A call that is on rank 0 and overtakes nobody is the next of rank 0 on its rank. -/
theorem Inv.agrees_send (inv : Inv s) {call : Nat} {loop : Loop}
    (at_call : s.loops[call]? = some loop) (running : loop.status = .running) (later : 0 < loop.next)
    (waits : ∀ other ∈ (s.sent 0).takeWhile (· ≠ call),
      s.status other = some .failed ∨ other ∈ s.sent loop.next) :
    (s.sent loop.next ++ [call]).filter s.alive <+: (s.sent 0).filter s.alive := by
  have alive_call : s.alive call = true := by
    simp [State.alive, State.status, at_call, running]
  -- The call is on rank 0 already: split that queue there.
  have queued : call ∈ s.sent 0 := (inv.position call loop at_call 0).mpr later
  obtain ⟨before, after, split⟩ := List.append_of_mem queued
  have distinct := inv.distinct.filter s.alive
  have starts := inv.agrees loop.next
  rw [split, List.filter_append, List.filter_cons_of_pos alive_call] at distinct starts ⊢
  rw [List.filter_append, List.filter_cons_of_pos alive_call, List.filter_nil]
  refine prefix_append_singleton distinct starts ?_ ?_
  · exact fun member => inv.unsent at_call (List.mem_filter.mp member).1
  · intro other member
    obtain ⟨ahead, alive⟩ := List.mem_filter.mp member
    rcases waits other (mem_takeWhile_ne split inv.distinct ahead) with failed | sentBefore
    · simp [State.alive, failed] at alive
    · exact List.mem_filter.mpr ⟨sentBefore, alive⟩

/-- One more message keeps the invariant when it overtakes nobody. -/
theorem send_inv (inv : Inv s) {call : Nat} {loop : Loop} {entry : Sent} {sent : List Sent}
    {status : LoopStatus} (at_call : s.loops[call]? = some loop) (running : loop.status = .running)
    (fine : status ≠ .failed) (at_rank : s.channels[loop.next]? = some sent)
    (own : entry.call = call) (waits : NoOvertaking (.send call) s) :
    Inv ⟨s.channels.set loop.next (sent ++ [entry]),
      s.loops.set call { loop with next := loop.next + 1, status := status }⟩ := by
  generalize changed : s.loops.set call { loop with next := loop.next + 1, status := status } = loops
  obtain ⟨index, -⟩ := List.getElem?_eq_some_iff.mp at_call
  have sent_eq : ∀ rank, State.sent ⟨s.channels.set loop.next (sent ++ [entry]), loops⟩ rank =
      if rank = loop.next then s.sent loop.next ++ [call] else s.sent rank := by
    intro rank
    rw [← own]
    exact sent_set at_rank entry rank
  have alive_eq := alive_send at_call running fine (s.channels.set loop.next (sent ++ [entry]))
  rw [changed] at alive_eq
  refine ⟨?_, ?_, ?_, ?_⟩
  · rw [sent_eq]
    split
    · rename_i first
      have unsent := inv.unsent at_call
      rw [← first] at unsent ⊢
      exact List.nodup_append.mpr ⟨inv.distinct, by simp,
        fun x member y single same => unsent (List.mem_singleton.mp single ▸ same ▸ member)⟩
    · exact inv.distinct
  · intro rank other member
    subst changed
    rw [List.length_set]
    rw [sent_eq] at member
    split at member
    · rcases List.mem_append.mp member with before | new
      · exact inv.known loop.next other before
      · rw [List.mem_singleton.mp new]
        exact index
    · exact inv.known rank other member
  · intro other found at_other rank
    rw [sent_eq]
    subst changed
    rcases getElem?_set_cases at_call at_other with ⟨rfl, rfl⟩ | ⟨different, before⟩
    · split
      · rename_i same
        subst same
        simp
      · rename_i apart
        rw [inv.position other loop at_call rank]
        change rank < loop.next ↔ rank < loop.next + 1
        omega
    · split
      · rename_i same
        rw [same, List.mem_append, List.mem_singleton, or_iff_left different]
        exact inv.position other found before loop.next
      · exact inv.position other found before rank
  · intro rank
    rw [alive_eq, sent_eq, sent_eq]
    rcases Nat.eq_zero_or_pos loop.next with first | later
    · rw [first, if_pos rfl]
      split
      · exact List.prefix_rfl
      · rw [List.filter_append]
        exact (inv.agrees rank).trans (List.prefix_append _ _)
    · rw [if_neg (Nat.ne_of_lt later)]
      split
      · exact inv.agrees_send at_call running later
          ((waits loop at_call).resolve_left (Nat.ne_of_gt later))
      · exact inv.agrees rank

theorem step_inv (action : Action) (s next : State) (inv : Inv s) (waits : NoOvertaking action s)
    (applied : step worldSize env widen action s = some next) : Inv next := by
  rcases step_cases applied with ⟨request, slices, rfl⟩ | rfl |
    ⟨call, loop, entry, sent, status, rfl, at_call, running, fine, at_rank, own, rfl⟩ |
    ⟨call, loop, at_call, rfl⟩
  · exact submit_inv inv request slices
  · exact inv
  · exact send_inv inv at_call running fine at_rank own waits
  · exact fail_inv inv at_call

theorem Inv.sameOrder (inv : Inv s) : SameOrder s := by
  have finished_alive : ∀ call, s.finished call = true → s.alive call = true := by
    intro call finished
    have status : s.status call = some .finished := beq_iff_eq.mp finished
    simp [State.alive, status]
  intro rank rank'
  exact comparable_of_prefix (filter_prefix_of_imp finished_alive (inv.agrees rank))
    (filter_prefix_of_imp finished_alive (inv.agrees rank'))

end steps

variable {worldSize env widen}

/-- In every run in which no send overtakes a job that is ahead on rank 0, all
ranks receive the finished jobs in the same order. -/
theorem same_order_without_overtaking {actions : List Action} {s : State}
    (ran : run (step worldSize env widen) actions (.initial worldSize) = some s)
    (waits : Admitted (step worldSize env widen) NoOvertaking actions (.initial worldSize)) :
    SameOrder s :=
  (run_invariant_of_admitted step_inv (initial_inv worldSize) waits ran).sameOrder

/-- Two calls one after the other. -/
def sequentialRun : List Action :=
  [.submit ⟨"first", "softmax", [0, 0]⟩, .submit ⟨"second", "softmax", [0, 0]⟩,
    .send 0, .send 0, .send 1, .send 1]

theorem same_order_sequential :
    ∃ s, run (step 2 (fun _ => none) SmallFloats.widen) sequentialRun (.initial 2) = some s ∧
      SameOrder s := by
  have ran : (run (step 2 (fun _ => none) SmallFloats.widen) sequentialRun (.initial 2)).isSome := by
    decide +kernel
  obtain ⟨s, final⟩ := Option.isSome_iff_exists.mp ran
  exact ⟨s, final, same_order_without_overtaking final (by decide +kernel)⟩

/-- Two calls with two values each. Both send to rank 0 before the second one
sends to rank 1, and the first one does so last. -/
def overtakingRun : List Action :=
  [.submit ⟨"first", "softmax", [0, 0]⟩, .submit ⟨"second", "softmax", [0, 0]⟩,
    .send 0, .send 1, .send 1, .send 0]

/-- Dedicated queues alone do not order the jobs. -/
theorem overtaking_changes_order :
    ¬ ∀ (worldSize : Nat) (env : Env) (widen : Single → Double) (s : State),
      Reachable (step worldSize env widen) (.initial worldSize) s → SameOrder s := by
  intro ordered
  have ran : (run (step 2 (fun _ => none) SmallFloats.widen) overtakingRun (.initial 2)).map
      (fun s => ((s.sent 0).filter s.finished, (s.sent 1).filter s.finished)) =
        some ([0, 1], [1, 0]) := by
    decide +kernel
  obtain ⟨s, final, queues⟩ := Option.map_eq_some_iff.mp ran
  have same := ordered 2 _ _ s ⟨overtakingRun, final⟩ 0 1
  rw [(Prod.mk.inj queues).1, (Prod.mk.inj queues).2] at same
  rcases same with starts | starts <;> simp [List.cons_prefix_cons] at starts

end DistributedSoftmax.System.RankQueues
