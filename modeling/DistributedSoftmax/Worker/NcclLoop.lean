import DistributedSoftmax.Worker.Handler

/-! worker-rs/src/handler.rs and main.rs: `handle_task` to its end, and the loop
of `run_nccl`. Both end a slice with a log line that takes a prefix of the job
identifier. -/

set_option autoImplicit false

namespace DistributedSoftmax.Worker
open Foundations.ByteString

/-- `&job_id[..job_id.len().min(8)]`, or a panic. -/
def logJobId (jobId : String) : Option String := sliceTo? jobId (min (utf8 jobId).length 8)

/-- `info!` with that prefix: its fields are only computed when the level is enabled. -/
def logPanics (infoEnabled : Bool) (jobId : String) : Bool :=
  infoEnabled && (logJobId jobId).isNone

/-- `write_result` on a connection: its outcome for the job, the slice and the payload. -/
abbrev WriteResult := String → Nat → Bytes → Except String Unit

/-- How `handle_task` ends. -/
inductive TaskEnd where
  | done
  | failed (error : String)
  | panicked
  deriving DecidableEq, Repr

/-- `handle_task` with its write and its log line. -/
def runTask (infoEnabled : Bool) (serde : SerdeJson)
    (computePartial : List Double → Except String (PartialStats Double Single))
    (writeResult : WriteResult) (raw : Option (Json Double)) : TaskEnd :=
  match handleTask serde computePartial raw with
  | .error error => .failed error
  | .ok (msg, payload) => match writeResult msg.jobId msg.sliceId payload with
      | .error error => .failed error
      | .ok () => if logPanics infoEnabled msg.jobId then .panicked else .done

/-- What a round of the loop meets: what is received, the collective, and the write. -/
structure Round where
  received : Except String (Option (Json Double))
  allReduceSoftmax : List Single → Except String (List Single)
  writeResult : WriteResult

/-- Why the loop is left. -/
inductive LoopExit where
  | zmq (error : String)
  | allReduce (error : String)
  | redis (error : String)
  | panicked
  deriving DecidableEq, Repr

/-- One round. A message that cannot be read or has another task is skipped. -/
def Round.run (infoEnabled : Bool) (serde : SerdeJson) (narrow : Double → Single) (round : Round) :
    Option LoopExit :=
  match round.received with
  | .error error => some (.zmq error)
  | .ok raw => match raw.bind (TaskMessage.ofJson serde) with
      | none => none
      | some msg =>
          if msg.task ≠ "softmax" then none
          else match round.allReduceSoftmax (msg.data.map narrow) with
            | .error error => some (.allReduce error)
            | .ok probs =>
                match round.writeResult msg.jobId msg.sliceId (encodeNormalized probs) with
                | .error error => some (.redis error)
                | .ok () => if logPanics infoEnabled msg.jobId then some .panicked else none

/-- The loop of `run_nccl`: how it was left, if it was. -/
def runNccl (infoEnabled : Bool) (serde : SerdeJson) (narrow : Double → Single) :
    List Round → Option LoopExit
  | [] => none
  | round :: rest => match round.run infoEnabled serde narrow with
      | some exit => some exit
      | none => runNccl infoEnabled serde narrow rest

/-- The first eight bytes are whole characters, or there are not more. -/
def PrefixFits (jobId : String) : Prop :=
  (utf8 jobId).length ≤ 8 ∨ ∃ before after, jobId = before ++ after ∧ (utf8 before).length = 8

theorem logPanics_iff {jobId : String} : logPanics true jobId = true ↔ ¬ PrefixFits jobId := by
  rw [logPanics, Bool.true_and, Option.isNone_iff_eq_none, logJobId, sliceTo?_eq_none,
    ← Bool.not_eq_true, isCharBoundary_iff, PrefixFits]
  rcases Nat.lt_or_ge 8 (utf8 jobId).length with longer | short
  · rw [Nat.min_eq_right longer.le]
    simp only [Nat.not_le.mpr longer, false_or]
  · have whole : ∃ before after, jobId = before ++ after ∧
        (utf8 before).length = min (utf8 jobId).length 8 :=
      ⟨jobId, "", String.append_empty.symm, (Nat.min_eq_left short).symm⟩
    simp only [whole, short, true_or, not_true_eq_false]

section loop
variable {infoEnabled : Bool} {serde : SerdeJson} {narrow : Double → Single}

/-- A round panics only in the log line of a message whose write succeeded. -/
theorem Round.run_panicked {round : Round}
    (panics : round.run infoEnabled serde narrow = some .panicked) :
    ∃ raw msg, round.received = .ok raw ∧ raw.bind (TaskMessage.ofJson serde) = some msg ∧
      logPanics infoEnabled msg.jobId = true := by
  unfold Round.run at panics
  split at panics
  · cases panics
  · rename_i raw received
    split at panics
    · cases panics
    · rename_i msg parsed
      refine ⟨raw, msg, received, parsed, ?_⟩
      split at panics
      · cases panics
      · split at panics
        · cases panics
        · split at panics
          · cases panics
          · split at panics
            · assumption
            · cases panics

/-- A loop that panicked did so in one of its rounds. -/
theorem runNccl_panicked {rounds : List Round}
    (panics : runNccl infoEnabled serde narrow rounds = some .panicked) :
    ∃ round ∈ rounds, round.run infoEnabled serde narrow = some .panicked := by
  induction rounds with
  | nil => cases panics
  | cons round rest ih =>
    rw [runNccl] at panics
    split at panics
    · rename_i exit left
      cases panics
      exact ⟨round, List.mem_cons_self, left⟩
    · obtain ⟨later, member, left⟩ := ih panics
      exact ⟨later, List.mem_cons_of_mem round member, left⟩

/-- As long as the identifiers of its messages have a prefix of whole characters,
the loop is left because of ZMQ, the collective or Redis only. -/
theorem runNccl_ne_panicked {rounds : List Round} (fits : ∀ round ∈ rounds, ∀ raw msg,
    round.received = .ok raw → raw.bind (TaskMessage.ofJson serde) = some msg →
      PrefixFits msg.jobId) :
    runNccl true serde narrow rounds ≠ some .panicked := by
  intro panics
  obtain ⟨round, member, left⟩ := runNccl_panicked panics
  obtain ⟨raw, msg, received, parsed, log⟩ := Round.run_panicked left
  exact logPanics_iff.mp log (fits round member raw msg received parsed)

end loop
end DistributedSoftmax.Worker
