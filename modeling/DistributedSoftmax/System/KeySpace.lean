import DistributedSoftmax.Gateway.RedisManager

/-! The key space that all jobs share. Slice keys and final-result keys have
the prefix `result:` in common, so a job whose identifier is another job's
identifier followed by a colon and an index stores its final result where the
other job expects a slice. -/

set_option autoImplicit false

namespace DistributedSoftmax.System
open Foundations.ByteString Foundations.Decimal Foundations.KeyValue
open Gateway RedisConfig

/-- The four families of keys. -/
inductive KeyKind where
  | result
  | slice (sliceId : Nat)
  | metadata
  | progress
  deriving DecidableEq, Repr

def KeyKind.key (jobId : String) : KeyKind → String
  | .result => resultKey jobId
  | .slice sliceId => sliceKey jobId sliceId
  | .metadata => metadataKey jobId
  | .progress => progressKey jobId

/-- The Redis operations of gateway and worker on behalf of one job. -/
inductive Operation where
  | setJobMetadata (m : JobMetadata)
  | getJobMetadata
  | storeFinalResult (resultJson : String)
  /-- The lookup of the final result and its lifetime in `get_result`. -/
  | getFinalResult
  | getCompletedSliceCount (totalSlices : Nat)
  | readSlice (idx : Nat)
  /-- The SET of the worker's `write_result`. -/
  | writeResult (sliceId : Nat) (payload : Bytes)

def Operation.commands (env : Env) (serde : SerdeJson) (now : Nat) (jobId : String) :
    Operation → List Command
  | .setJobMetadata m => [RedisManager.setJobMetadata env serde jobId m]
  | .getJobMetadata => [RedisManager.getJobMetadata jobId]
  | .storeFinalResult resultJson => RedisManager.storeFinalResult env serde now jobId resultJson
  | .getFinalResult => [.get (resultKey jobId), .ttl (resultKey jobId)]
  | .getCompletedSliceCount totalSlices => RedisManager.getCompletedSliceCount jobId totalSlices
  | .readSlice idx => [.get (sliceKey jobId idx)]
  | .writeResult sliceId payload => [.set (sliceKey jobId sliceId) payload]

theorem Operation.keys_own (env : Env) (serde : SerdeJson) (now : Nat) (jobId : String)
    (operation : Operation) :
    ∀ command ∈ operation.commands env serde now jobId,
      ∃ kind : KeyKind, command.key = kind.key jobId := by
  intro command member
  cases operation with
  | setJobMetadata m =>
    cases List.mem_singleton.mp member
    exact ⟨.metadata, rfl⟩
  | getJobMetadata =>
    cases List.mem_singleton.mp member
    exact ⟨.metadata, rfl⟩
  | storeFinalResult resultJson =>
    rcases List.mem_cons.mp member with rfl | later
    · exact ⟨.result, rfl⟩
    · cases List.mem_singleton.mp later
      exact ⟨.progress, rfl⟩
  | getFinalResult =>
    rcases List.mem_cons.mp member with rfl | later
    · exact ⟨.result, rfl⟩
    · cases List.mem_singleton.mp later
      exact ⟨.result, rfl⟩
  | getCompletedSliceCount totalSlices =>
    obtain ⟨i, -, rfl⟩ := List.mem_map.mp member
    exact ⟨.slice i, rfl⟩
  | readSlice idx =>
    cases List.mem_singleton.mp member
    exact ⟨.slice idx, rfl⟩
  | writeResult sliceId payload =>
    cases List.mem_singleton.mp member
    exact ⟨.slice sliceId, rfl⟩

/-- The second identifier is the first one with a slice index behind a colon. -/
def Nested (outer inner : String) : Prop := ∃ sliceId : Nat, inner = outer ++ ":" ++ toString sliceId

/-- Keys of the two jobs coincide only when kind, job and index do, and no
operation for the first job reads or changes a key of the second, if they differ. -/
structure KeysIsolated (jobId jobId' : String) : Prop where
  distinct : ∀ kind kind' : KeyKind, kind.key jobId = kind'.key jobId' → kind = kind' ∧ jobId = jobId'
  isolated : jobId ≠ jobId' → ∀ (env : Env) (serde : SerdeJson) (now : Nat) (operation : Operation)
    (kind' : KeyKind), Isolated (operation.commands env serde now jobId) (kind'.key jobId')

/-- The only keys of different kinds that can coincide are a final result and a slice. -/
theorem key_eq_cases {jobId jobId' : String} {kind kind' : KeyKind}
    (same : kind.key jobId = kind'.key jobId') :
    (kind = kind' ∧ jobId = jobId') ∨ Nested jobId jobId' ∨ Nested jobId' jobId := by
  cases kind with
  | result =>
    cases kind' with
    | result => exact .inl ⟨rfl, resultKey_injective same⟩
    | slice sliceId =>
      have inner : jobId = jobId' ++ ":" ++ toString sliceId :=
        resultKey_injective (same.trans (sliceKey_eq_resultKey jobId' sliceId))
      exact .inr (.inr ⟨sliceId, inner⟩)
    | metadata => exact absurd same (resultKey_ne_metadataKey _ _)
    | progress => exact absurd same (resultKey_ne_progressKey _ _)
  | slice sliceId =>
    cases kind' with
    | result =>
      have inner : jobId' = jobId ++ ":" ++ toString sliceId :=
        resultKey_injective (same.symm.trans (sliceKey_eq_resultKey jobId sliceId))
      exact .inr (.inl ⟨sliceId, inner⟩)
    | slice sliceId' =>
      obtain ⟨rfl, rfl⟩ := sliceKey_inj same
      exact .inl ⟨rfl, rfl⟩
    | metadata => exact absurd same (sliceKey_ne_metadataKey _ _ _)
    | progress => exact absurd same (sliceKey_ne_progressKey _ _ _)
  | metadata =>
    cases kind' with
    | result => exact absurd same.symm (resultKey_ne_metadataKey _ _)
    | slice sliceId => exact absurd same.symm (sliceKey_ne_metadataKey _ _ _)
    | metadata => exact .inl ⟨rfl, metadataKey_injective same⟩
    | progress => exact absurd same (metadataKey_ne_progressKey _ _)
  | progress =>
    cases kind' with
    | result => exact absurd same.symm (resultKey_ne_progressKey _ _)
    | slice sliceId => exact absurd same.symm (sliceKey_ne_progressKey _ _ _)
    | metadata => exact absurd same.symm (metadataKey_ne_progressKey _ _)
    | progress => exact .inl ⟨rfl, progressKey_injective same⟩

theorem Nested.key_eq {outer inner : String} (nested : Nested outer inner) :
    ∃ sliceId, KeyKind.result.key inner = (KeyKind.slice sliceId).key outer := by
  obtain ⟨sliceId, rfl⟩ := nested
  exact ⟨sliceId, (sliceKey_eq_resultKey outer sliceId).symm⟩

theorem isolated_of_distinct {jobId jobId' : String}
    (distinct : ∀ kind kind' : KeyKind, kind.key jobId = kind'.key jobId' →
      kind = kind' ∧ jobId = jobId')
    (different : jobId ≠ jobId') (env : Env) (serde : SerdeJson) (now : Nat)
    (operation : Operation) (kind' : KeyKind) :
    Isolated (operation.commands env serde now jobId) (kind'.key jobId') := by
  apply isolated_of_keys
  intro command member same
  obtain ⟨kind, own⟩ := operation.keys_own env serde now jobId command member
  exact different (distinct kind kind' (own.symm.trans same)).2

end DistributedSoftmax.System
