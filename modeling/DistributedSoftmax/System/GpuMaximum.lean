import DistributedSoftmax.RoundedSoftmax
import DistributedSoftmax.Worker.GpuPasses

/-! The maximum that a worker finds on the GPU, in IEEE 754 arithmetic. The host
starts its fold from negative infinity; the kernel fills the last block with a
number that is not the smallest of single precision. -/

set_option autoImplicit false

namespace DistributedSoftmax.System
open Foundations.Folds Foundations.Rounding
open Worker

/-- The largest of the numbers that the values stand for. -/
def Largest (data : List Single) (m : ℝ) : Prop :=
  (∃ x ∈ data, Single.value x = some (m : EReal)) ∧
    ∀ x ∈ data, ∀ a : ℝ, Single.value x = some (a : EReal) → a ≤ m

theorem Largest.unique {data : List Single} {m m' : ℝ} (left : Largest data m)
    (right : Largest data m') : m = m' := by
  obtain ⟨⟨x, member, stands⟩, above⟩ := left
  obtain ⟨⟨y, member', stands'⟩, above'⟩ := right
  exact (above' x member m stands).antisymm (above y member' m' stands')

/-- The GPU reports the maximum, as the CPU does, and subtracts it: no exponent
is positive, one is zero, and one exponential is one. -/
structure MaximumFound (fl : Floats Double Single) (maxLaunch expLaunch : Launch Single)
    (data : List Single) (globalMax : Single) (stats : PartialStats Double Single) (m : ℝ) :
    Prop where
  largest : Largest data m
  device : maxPass fl.f32 maxLaunch data = some globalMax
  reports : GpuWorker.partialSoftmax fl maxLaunch expLaunch data = some stats
  shift : Single.value globalMax = some (m : EReal)
  localMax : Double.value stats.localMax = some (m : EReal)
  cpu : Double.value (softmaxPartial fl (data.map fl.widen)).localMax = some (m : EReal)
  exponents : ∀ x ∈ data, ∃ v, Single.value (fl.f32.sub x globalMax) = some v ∧ v ≤ ((0 : ℝ) : EReal)
  zero : ∃ x ∈ data, Single.value (fl.f32.sub x globalMax) = some ((0 : ℝ) : EReal)
  one : ∃ e ∈ stats.expValues, Single.value e = some ((1 : ℝ) : EReal)

def GpuMaximum (fl : Floats Double Single) (maxLaunch expLaunch : Launch Single)
    (data : List Single) : Prop :=
  ∃ globalMax stats m, MaximumFound fl maxLaunch expLaunch data globalMax stats m

/-- The last block is full, or some value is at least the filler. -/
def PaddingHidden (fl : Floats Double Single) (data : List Single) : Prop :=
  data.length % blockSize = 0 ∨ ∃ x ∈ data, ∃ a pad : ℝ, Single.value x = some (a : EReal) ∧
    Single.value (fl.f32.ofInt paddingValue) = some (pad : EReal) ∧ pad ≤ a

instance lawfulIdentity_max : Std.LawfulIdentity (max : EReal → EReal → EReal) ⊥ where
  left_id := max_bot_left
  right_id := max_bot_right

section
variable {fl : Floats Double Single} (ieee : Ieee754 fl)
include ieee

/-- The filler is a finite number, and not a positive one. -/
theorem padding_within : Within Single.value (-2 ^ 127) 0 (fl.f32.ofInt paddingValue) := by
  have below : Single.value 0xFF000000#32 = some ((-2 ^ 127 : ℝ) : EReal) := by
    rw [Single.value_of_fields (s := true) (e := 254) (f := 0) rfl rfl rfl]
    norm_num [binaryValue]
  have rounds := ieee.f32.ofInt paddingValue
  apply rounds.within below Single.value_zero <;> norm_num [paddingValue]

variable {data : List Single} (nonempty : data ≠ [])
  (finite : ∀ x ∈ data, ∃ a : ℝ, Single.value x = some (a : EReal))
include nonempty finite

theorem exists_largest : ∃ m, Largest data m := by
  obtain ⟨v, -, -, above, among⟩ := max_within ieee.f32.max finite ieee.f32.negInf
  obtain ⟨x, rest, rfl⟩ := List.exists_cons_of_ne_nil nonempty
  obtain ⟨a, standsX⟩ := finite x List.mem_cons_self
  rcases among with rfl | ⟨y, member, stands⟩
  · exact absurd (le_bot_iff.mp (above x List.mem_cons_self a standsX)) (EReal.coe_ne_bot a)
  · obtain ⟨m, standsM⟩ := finite y member
    cases stands.symm.trans standsM
    exact ⟨m, ⟨y, member, stands⟩,
      fun z inside b standsZ => EReal.coe_le_coe_iff.mp (above z inside b standsZ)⟩

/-- The CPU finds the largest value of the widened list. -/
theorem softmaxPartial_largest {m : ℝ} (largest : Largest data m) :
    Double.value (softmaxPartial fl (data.map fl.widen)).localMax = some (m : EReal) := by
  have numbers : ∀ y ∈ data.map fl.widen, ∃ a : ℝ, Double.value y = some (a : EReal) := by
    intro y member
    obtain ⟨x, inside, rfl⟩ := List.mem_map.mp member
    obtain ⟨a, stands⟩ := finite x inside
    exact ⟨a, ieee.value_widen stands⟩
  have some_values : data.map fl.widen ≠ [] := fun empty => nonempty (List.map_eq_nil_iff.mp empty)
  obtain ⟨m', standsM, above, y, member, standsY⟩ := ieee.f64.foldMax_within some_values numbers
  obtain ⟨x, inside, rfl⟩ := List.mem_map.mp member
  obtain ⟨a, standsX⟩ := finite x inside
  cases standsY.symm.trans (ieee.value_widen standsX)
  obtain ⟨⟨z, insideZ, standsZ⟩, le_m⟩ := largest
  have same : m' = m := (le_m x inside m' standsX).antisymm
    (above _ (List.mem_map_of_mem insideZ) m (ieee.value_widen standsZ))
  rw [softmaxPartial, if_neg fun empty => some_values (List.isEmpty_iff.mp empty), ← same]
  exact standsM

/-- The GPU finds the larger one of the largest value and the filler, unless the
last block is full. -/
theorem maxPass_largest (launch : Launch Single) (short : data.length < 2 ^ 31) {m pad : ℝ}
    (largest : Largest data m)
    (padding : Single.value (fl.f32.ofInt paddingValue) = some (pad : EReal)) :
    ∃ globalMax, maxPass fl.f32 launch data = some globalMax ∧ Single.value globalMax =
      some ((if data.length % blockSize = 0 then m else max m pad : ℝ) : EReal) := by
  let number (x : Single) : EReal := (Single.value x).getD ⊥
  have stands : ∀ x ∈ data, Single.value x = some (number x) := by
    intro x member
    obtain ⟨a, standsX⟩ := finite x member
    rw [standsX]
    exact congrArg some (congrArg (Option.getD · ⊥) standsX).symm
  obtain ⟨globalMax, ran, standsMax⟩ := maxPass_related fl.f32 launch ieee.f32.max ieee.f32.negInf
    padding stands nonempty short
  obtain ⟨⟨x, member, standsX⟩, above⟩ := largest
  have below : ∀ y ∈ data, number y ≤ m := by
    intro y inside
    obtain ⟨a, standsY⟩ := finite y inside
    rw [show number y = a from Option.some.inj ((stands y inside).symm.trans standsY)]
    exact EReal.coe_le_coe (above y inside a standsY)
  have among : (m : EReal) ∈ data.map number :=
    List.mem_map.mpr ⟨x, member, Option.some.inj ((stands x member).symm.trans standsX)⟩
  have filled := numBlocks_of_lt short
  refine ⟨globalMax, ran, standsMax.trans (congrArg some (foldl_max_eq bot_le ?_ (.inr ?_)))⟩
  · intro y inside
    rcases List.mem_append.mp inside with value | filler
    · obtain ⟨z, inData, rfl⟩ := List.mem_map.mp value
      refine (below z inData).trans (EReal.coe_le_coe ?_)
      split
      · exact le_rfl
      · exact le_max_left m pad
    · obtain ⟨partly, rfl⟩ := List.mem_replicate.mp filler
      rw [if_neg (by rw [blockSize] at *; omega)]
      exact EReal.coe_le_coe (le_max_right m pad)
  · rw [List.mem_append]
    split
    · exact .inl among
    · rename_i partly
      rcases max_choice m pad with left | right
      · exact .inl (left.symm ▸ among)
      · rw [right, List.mem_replicate]
        exact .inr ⟨by rw [blockSize] at *; omega, rfl⟩

/-- Everything follows from the right maximum on the device. -/
theorem maximumFound_of_shift {maxLaunch expLaunch : Launch Single} (short : data.length < 2 ^ 31)
    {globalMax : Single} {m : ℝ} (largest : Largest data m)
    (ran : maxPass fl.f32 maxLaunch data = some globalMax)
    (stands : Single.value globalMax = some (m : EReal)) : GpuMaximum fl maxLaunch expLaunch data := by
  obtain ⟨partialSum, exponentials⟩ := expPass_values fl.f32 expLaunch nonempty short globalMax
  obtain ⟨⟨x, member, standsX⟩, above⟩ := largest
  have difference : Single.value (fl.f32.sub x globalMax) = some ((0 : ℝ) : EReal) := by
    have rounds := ieee.f32.sub x globalMax m m standsX stands
    rw [sub_self] at rounds
    exact rounds.exact Single.value_zero
  refine ⟨globalMax, ⟨fl.widen globalMax, fl.widen partialSum,
    data.map fun y => fl.f32.exp (fl.f32.sub y globalMax)⟩, m, ?_⟩
  exact {
    largest := ⟨⟨x, member, standsX⟩, above⟩
    device := ran
    reports := by
      rw [GpuWorker.partialSoftmax, ran, Option.bind_eq_bind, Option.bind_some, exponentials]
      rfl
    shift := stands
    localMax := ieee.value_widen stands
    cpu := softmaxPartial_largest ieee nonempty finite ⟨⟨x, member, standsX⟩, above⟩
    exponents := by
      intro y inside
      obtain ⟨a, standsY⟩ := finite y inside
      exact (ieee.f32.sub y globalMax a m standsY stands).upper Single.value_zero
        (sub_nonpos.mpr (above y inside a standsY))
    zero := ⟨x, member, difference⟩
    one := ⟨_, List.mem_map_of_mem member, ieee.f32.exp_zero _ difference⟩ }

theorem maximum_iff {maxLaunch expLaunch : Launch Single} (short : data.length < 2 ^ 31) :
    GpuMaximum fl maxLaunch expLaunch data ↔ PaddingHidden fl data := by
  obtain ⟨m, largest⟩ := exists_largest ieee nonempty finite
  obtain ⟨pad, padding, -, -⟩ := padding_within ieee
  obtain ⟨globalMax, ran, stands⟩ :=
    maxPass_largest ieee nonempty finite maxLaunch short largest padding
  have shift : m = (if data.length % blockSize = 0 then m else max m pad) ↔ PaddingHidden fl data := by
    obtain ⟨⟨x, member, standsX⟩, above⟩ := largest
    constructor
    · intro same
      by_cases full : data.length % blockSize = 0
      · exact .inl full
      · rw [if_neg full] at same
        exact .inr ⟨x, member, m, pad, standsX, padding, same ▸ le_max_right m pad⟩
    · rintro (full | ⟨y, inside, a, pad', standsY, padding', le⟩)
      · rw [if_pos full]
      · cases padding.symm.trans padding'
        rw [max_eq_left (le.trans (above y inside a standsY)), ite_self]
  rw [← shift]
  constructor
  · rintro ⟨globalMax', stats, m', found⟩
    cases ran.symm.trans found.device
    cases found.largest.unique largest
    exact EReal.coe_injective (Option.some.inj (found.shift.symm.trans stands))
  · intro same
    rw [← same] at stands
    exact maximumFound_of_shift ieee nonempty finite short largest ran stands

end

/-- In whatever order the threads run, the GPU finds the maximum exactly when
the filler does not hide it. -/
theorem gpu_maximum_iff {fl : Floats Double Single} (ieee : Ieee754 fl) {data : List Single}
    (nonempty : data ≠ []) (finite : ∀ x ∈ data, x.isFinite = true)
    (short : data.length < 2 ^ 31 - 256) (maxLaunch expLaunch : Launch Single) :
    GpuMaximum fl maxLaunch expLaunch data ↔ PaddingHidden fl data := by
  have numbers : ∀ x ∈ data, ∃ a : ℝ, Single.value x = some (a : EReal) :=
    fun x member => (Single.isFinite_iff x).mp (finite x member)
  exact maximum_iff ieee nonempty numbers (by omega)

theorem gpu_maximum_zero :
    GpuMaximum Rounded.floats (.inOrder .nan) (.inOrder .nan) [Single.zero] := by
  have zero : ∀ x ∈ [Single.zero], x.isFinite = true := by
    intro x member
    rw [List.mem_singleton.mp member]
    decide
  rw [gpu_maximum_iff Rounded.ieee754_floats (List.cons_ne_nil _ _) zero (by decide)]
  obtain ⟨pad, padding, -, nonpos⟩ := padding_within Rounded.ieee754_floats
  exact .inr ⟨_, List.mem_cons_self, 0, pad, Single.value_zero, padding, nonpos⟩

/-- A finite value near `-2e38`. -/
def lowValue : Single := 0xFF167699#32

theorem lowValue_lt_padding {fl : Floats Double Single} (ieee : Ieee754 fl) :
    ∃ a pad : ℝ, Single.value lowValue = some (a : EReal) ∧
      Single.value (fl.f32.ofInt paddingValue) = some (pad : EReal) ∧ a < pad := by
  have between : Single.value 0xFEC00000#32 = some ((-(1.5 * 2 ^ 126) : ℝ) : EReal) := by
    rw [Single.value_of_fields (s := true) (e := 253) (f := 2 ^ 22) rfl rfl rfl]
    norm_num [binaryValue]
  have low : Single.value lowValue = some ((-(9860761 * 2 ^ 104) : ℝ) : EReal) := by
    rw [Single.value_of_fields (s := true) (e := 254) (f := 1472153) rfl rfl rfl]
    norm_num [binaryValue]
  have filler : Within Single.value (-(1.5 * 2 ^ 126)) 0 (fl.f32.ofInt paddingValue) := by
    apply (ieee.f32.ofInt paddingValue).within between Single.value_zero
    · norm_num [paddingValue]
    · norm_num [paddingValue]
  obtain ⟨pad, padding, le, -⟩ := filler
  refine ⟨_, pad, low, padding, lt_of_lt_of_le ?_ le⟩
  norm_num

/-- A slice of one such value gets the filler for its maximum. -/
theorem filler_hides_maximum : lowValue.isFinite = true ∧
    ¬ GpuMaximum Rounded.floats (.inOrder .nan) (.inOrder .nan) [lowValue] := by
  obtain ⟨a, pad, low, padding, lt⟩ := lowValue_lt_padding Rounded.ieee754_floats
  refine ⟨by decide, fun found => ?_⟩
  have numbers : ∀ x ∈ [lowValue], ∃ a : ℝ, Single.value x = some (a : EReal) := by
    intro x member
    rw [List.mem_singleton.mp member]
    exact ⟨a, low⟩
  rw [maximum_iff Rounded.ieee754_floats (List.cons_ne_nil _ _) numbers (by decide)] at found
  rcases found with full | ⟨x, member, a', pad', low', padding', le⟩
  · exact absurd full (by decide)
  · rw [List.mem_singleton.mp member] at low'
    cases low.symm.trans low'
    cases padding.symm.trans padding'
    exact absurd le lt.not_ge

end DistributedSoftmax.System
