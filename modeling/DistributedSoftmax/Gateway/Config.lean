import DistributedSoftmax.Foundations.Decimal

/-! gateway-rs/src/config.rs: key names and lifetimes, and the worker's own
construction of the slice key in worker-rs/src/handler.rs. -/

set_option autoImplicit false

namespace DistributedSoftmax.Gateway
open Foundations.Decimal

/-- `std::env::var`. -/
abbrev Env := String → Option String

namespace RedisConfig

/-- A lifetime in hours from the environment. A release build wraps the product. -/
def ttlHours (env : Env) (variableName : String) (fallback : Nat) : Nat :=
  match (env variableName).bind (parseUnsigned 64) with
  | some hours => hours * 3600 % 2 ^ 64
  | none => fallback

def resultTtl (env : Env) : Nat := ttlHours env "REDIS_TTL_HOURS" 3600
def sliceTtl (env : Env) : Nat := ttlHours env "REDIS_TTL_SLICE_HOURS" 7200
def metadataTtl (env : Env) : Nat := ttlHours env "REDIS_TTL_METADATA_HOURS" 86400
def progressTtl (env : Env) : Nat := ttlHours env "REDIS_TTL_PROGRESS_HOURS" 3600

def resultKey (jobId : String) : String := "result:" ++ jobId
def sliceKey (jobId : String) (sliceId : Nat) : String :=
  "result:" ++ jobId ++ ":" ++ toString sliceId
def metadataKey (jobId : String) : String := "metadata:" ++ jobId
def progressKey (jobId : String) : String := "progress:" ++ jobId

theorem sliceKey_eq_resultKey (jobId : String) (sliceId : Nat) :
    sliceKey jobId sliceId = resultKey (jobId ++ ":" ++ toString sliceId) := by
  simp only [sliceKey, resultKey, String.append_assoc]

theorem resultKey_injective : Function.Injective resultKey :=
  fun _ _ same => String.append_right_inj _ |>.mp same

theorem metadataKey_injective : Function.Injective metadataKey :=
  fun _ _ same => String.append_right_inj _ |>.mp same

theorem progressKey_injective : Function.Injective progressKey :=
  fun _ _ same => String.append_right_inj _ |>.mp same

theorem resultKey_ne_metadataKey (jobId jobId' : String) :
    resultKey jobId ≠ metadataKey jobId' := by
  intro same
  have heads := congrArg (fun key : String => key.toList.head?) same
  simp [resultKey, metadataKey, String.toList_append] at heads

theorem resultKey_ne_progressKey (jobId jobId' : String) :
    resultKey jobId ≠ progressKey jobId' := by
  intro same
  have heads := congrArg (fun key : String => key.toList.head?) same
  simp [resultKey, progressKey, String.toList_append] at heads

theorem metadataKey_ne_progressKey (jobId jobId' : String) :
    metadataKey jobId ≠ progressKey jobId' := by
  intro same
  have heads := congrArg (fun key : String => key.toList.head?) same
  simp [metadataKey, progressKey, String.toList_append] at heads

theorem sliceKey_ne_metadataKey (jobId jobId' : String) (sliceId : Nat) :
    sliceKey jobId sliceId ≠ metadataKey jobId' :=
  sliceKey_eq_resultKey jobId sliceId ▸ resultKey_ne_metadataKey _ _

theorem sliceKey_ne_progressKey (jobId jobId' : String) (sliceId : Nat) :
    sliceKey jobId sliceId ≠ progressKey jobId' :=
  sliceKey_eq_resultKey jobId sliceId ▸ resultKey_ne_progressKey _ _

/-- Slice keys name one slice of one job, whatever the job identifiers contain. -/
theorem sliceKey_inj {jobId jobId' : String} {sliceId sliceId' : Nat}
    (same : sliceKey jobId sliceId = sliceKey jobId' sliceId') :
    jobId = jobId' ∧ sliceId = sliceId' := by
  rw [sliceKey_eq_resultKey, sliceKey_eq_resultKey] at same
  have colon : (':' : Char).isDigit = false := rfl
  exact separated_inj colon (resultKey_injective same)

end RedisConfig
end DistributedSoftmax.Gateway
