import DistributedSoftmax.Foundations.Decimal
import DistributedSoftmax.Foundations.KeyValue

/-! worker-rs/src/gpu_worker.rs: `nccl_rendezvous`, from one Redis command to the
next. Rank 0 publishes the NCCL identifier, the others poll for it; then every
rank announces itself and counts the announcements. -/

set_option autoImplicit false

namespace DistributedSoftmax.Worker
open Foundations.ByteString Foundations.KeyValue

/-- `cudarc::nccl::Id`, 128 bytes. -/
structure NcclId where
  bytes : Bytes
  size : bytes.length = 128
  deriving DecidableEq

def ncclUidKey : String := "nccl_uid"
def ncclUidTtl : Nat := 60
def ncclReadyKey (rank : Nat) : String := "nccl_ready:" ++ toString rank

theorem ncclReadyKey_injective : Function.Injective ncclReadyKey := by
  intro first second same
  apply Foundations.Decimal.toString_injective
  exact String.append_right_inj _ |>.mp same

theorem ncclReadyKey_ne_uidKey (rank : Nat) : ncclReadyKey rank ≠ ncclUidKey := by
  intro same
  have letters := congrArg (fun key : String => key.toList[5]?) same
  simp [ncclReadyKey, ncclUidKey, String.toList_append] at letters

/-- Where a rank stands in `nccl_rendezvous`. -/
inductive RankPhase where
  /-- Rank 0, before `Id::new`. -/
  | generating
  | storing (id : NcclId)
  | polling (attempt : Nat)
  | readying
  /-- In pass `attempt` over the announcements, before that of rank `r`. -/
  | counting (attempt r ready : Nat)
  | returned (outcome : Except String NcclId)
  deriving DecidableEq

/-- The local variables of a rank: the identifier, when it has one. -/
structure Rank where
  idBytes : Option Bytes
  phase : RankPhase

namespace Rank

def start (rank : Nat) : Rank :=
  ⟨none, if rank = 0 then .generating else .polling 0⟩

def fail (self : Rank) (message : String) : Rank :=
  { self with phase := .returned (.error message) }

/-- After `Id::new`. -/
def generated : Except String NcclId → Rank
  | .ok id => ⟨some id.bytes, .storing id⟩
  | .error error => ⟨none, .returned (.error ("NCCL Id::new: " ++ error))⟩

/-- The Redis command that the rank issues next. -/
def command (rank worldSize : Nat) (self : Rank) : Option Command :=
  match self.phase with
  | .storing id => some (.setEx ncclUidKey id.bytes ncclUidTtl)
  | .polling _ => some (.get ncclUidKey)
  | .readying => some (.setEx (ncclReadyKey rank) (utf8 "1") ncclUidTtl)
  | .counting _ r _ => if r < worldSize then some (.get (ncclReadyKey r)) else none
  | .generating | .returned _ => none

/-- After the reply to that command, or after an error without one. The log
messages and the pause between two attempts are left out. -/
def answered (rank : Nat) (self : Rank) (reply : Option Reply) : Rank :=
  match self.phase with
  | .storing _ => match reply with
      | some .ok => { self with phase := .readying }
      | _ => self.fail "Redis SET nccl_uid"
  | .polling attempt => match reply with
      | some (.bulk (some bytes)) => ⟨some bytes, .readying⟩
      | some (.bulk none) =>
          if attempt + 1 < 200 then { self with phase := .polling (attempt + 1) }
          else self.fail ("rank " ++ toString rank ++ ": timed out waiting for NCCL UID")
      | _ => self.fail "Redis GET nccl_uid"
  | .readying => match reply with
      | some .ok => { self with phase := .counting 0 0 0 }
      | _ => self.fail "Redis SET nccl_ready"
  | .counting attempt r ready => match reply with
      | some (.bulk (some value)) =>
          -- A flag is read as a string.
          if (fromUtf8? value).isSome then { self with phase := .counting attempt (r + 1) (ready + 1) }
          else self.fail "Redis GET nccl_ready"
      | some (.bulk none) => { self with phase := .counting attempt (r + 1) ready }
      | _ => self.fail "Redis GET nccl_ready"
  | .generating | .returned _ => self

/-- The identifier is returned if it has the right size. -/
def finish (self : Rank) : Rank :=
  let bytes := self.idBytes.getD []
  if size : bytes.length = 128 then { self with phase := .returned (.ok ⟨bytes, size⟩) }
  else self.fail "NCCL UID must be 128 bytes"

/-- The end of one pass over the announcements. -/
def endPass (rank worldSize : Nat) (self : Rank) : Option Rank :=
  match self.phase with
  | .counting attempt r ready =>
      if r < worldSize then none
      else if ready = worldSize then some self.finish
      else if attempt = 199 then
        some (self.fail ("rank " ++ toString rank ++ ": not all ranks ready in time"))
      else some { self with phase := .counting (attempt + 1) 0 0 }
  | _ => none

end Rank
end DistributedSoftmax.Worker
