import DistributedSoftmax.Numbers

/-! worker-rs/src/softmax.rs: partial softmax of one slice. -/

set_option autoImplicit false

namespace DistributedSoftmax.Worker

structure PartialStats (D S : Type) where
  localMax : D
  partialSum : D
  expValues : List S
  deriving DecidableEq, Repr

variable {D S : Type}

def softmaxPartial (fl : Floats D S) (data : List D) : PartialStats D S :=
  if data.isEmpty then ⟨fl.f64.ofInt 0, fl.f64.ofInt 0, []⟩
  else
    let localMax := fl.f64.foldMax data
    let expValues := data.map fun x => fl.narrow (fl.f64.exp (fl.f64.sub x localMax))
    let partialSum := fl.f64.sum (expValues.map fl.widen)
    ⟨localMax, partialSum, expValues⟩

theorem length_softmaxPartial (fl : Floats D S) (data : List D) :
    (softmaxPartial fl data).expValues.length = data.length := by
  unfold softmaxPartial
  split
  · rename_i empty
    simp [List.isEmpty_iff.mp empty]
  · simp

end DistributedSoftmax.Worker
