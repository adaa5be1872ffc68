import DistributedSoftmax.Gateway.Aggregator

/-! What `wait_for_all_slices` has collected: the counter against the flags,
and the slices that are held against a condition on what the reads return. -/

set_option autoImplicit false

namespace DistributedSoftmax.Gateway

/-- The flags, the counter and the slices of a collector fit together, and
every slice that is held is a good one for its index. -/
structure Collector.Sound (good : Nat → SliceStats Double → Prop) (totalSlices : Nat)
    (collector : Collector) : Prop where
  lengthStats : collector.stats.length = totalSlices
  lengthHeld : collector.held.length = totalSlices
  counted : collector.remaining = collector.held.count false
  goodHeld : ∀ i s, collector.held[i]? = some true → collector.stats[i]? = some s → good i s

namespace Collector
variable {good good' : Nat → SliceStats Double → Prop} {totalSlices : Nat} {collector : Collector}

theorem init_sound (good : Nat → SliceStats Double → Prop) (totalSlices : Nat) :
    (init totalSlices).Sound good totalSlices where
  lengthStats := List.length_replicate
  lengthHeld := List.length_replicate
  counted := by simp [init]
  goodHeld i s held := by
    have missing := List.mem_of_getElem? held
    exact absurd (List.eq_of_mem_replicate missing) (by decide)

theorem Sound.mono (sound : collector.Sound good totalSlices)
    (weaker : ∀ i s, good i s → good' i s) : collector.Sound good' totalSlices :=
  ⟨sound.lengthStats, sound.lengthHeld, sound.counted,
    fun i s held at_i => weaker i s (sound.goodHeld i s held at_i)⟩

/-- A flag that was clear is set: the count of clear flags goes down by one. -/
theorem count_set_true {held : List Bool} {i : Nat} (clear : held[i]? = some false) :
    (held.set i true).count false = held.count false - 1 := by
  obtain ⟨index, same⟩ := List.getElem?_eq_some_iff.mp clear
  rw [List.count_set index, same]
  simp

theorem read_sound (sound : collector.Sound good totalSlices) {i : Nat}
    (clear : collector.held[i]? = some false)
    {outcome : Except ReadError (Option (SliceStats Double))}
    (fine : ∀ s, outcome = .ok (some s) → good i s) :
    (collector.read i outcome).Sound good totalSlices := by
  unfold read
  split
  · rename_i s
    refine ⟨?_, ?_, ?_, ?_⟩
    · rw [List.length_set, sound.lengthStats]
    · rw [List.length_set, sound.lengthHeld]
    · rw [count_set_true clear, sound.counted]
    · intro k t held at_k
      by_cases same : i = k
      · subst same
        rw [List.getElem?_set_self' ] at at_k
        obtain ⟨-, -, rfl⟩ := Option.map_eq_some_iff.mp at_k
        exact fine s rfl
      · rw [List.getElem?_set_ne same] at held at_k
        exact sound.goodHeld k t held at_k
  · exact sound

/-- A slice that is held stays held. -/
theorem held_read (collector : Collector) (k : Nat)
    (outcome : Except ReadError (Option (SliceStats Double))) {i : Nat}
    (flag : collector.held[i]? = some true) : (collector.read k outcome).held[i]? = some true := by
  unfold read
  split
  · by_cases same : k = i
    · subst same
      rw [List.getElem?_set_self (List.getElem?_eq_some_iff.mp flag).1]
    · rw [List.getElem?_set_ne same, flag]
  · exact flag

theorem held_read_self {collector : Collector} {k : Nat} {flag : Bool}
    (inside : collector.held[k]? = some flag) (s : SliceStats Double) :
    (collector.read k (.ok (some s))).held[k]? = some true :=
  List.getElem?_set_self (List.getElem?_eq_some_iff.mp inside).1

/-- When every flag is set, nothing remains. -/
theorem Sound.remaining_eq_zero (sound : collector.Sound good totalSlices)
    (all : ∀ i < totalSlices, collector.held[i]? = some true) : collector.remaining = 0 := by
  rw [sound.counted, List.count_eq_zero]
  intro missing
  obtain ⟨i, index, clear⟩ := List.getElem_of_mem missing
  have flag := all i (sound.lengthHeld ▸ index)
  rw [List.getElem?_eq_getElem index, clear] at flag
  cases flag

/-- When nothing remains, every slice is held and good. -/
theorem Sound.complete (sound : collector.Sound good totalSlices)
    (none_left : collector.remaining = 0) {i : Nat} {s : SliceStats Double}
    (at_i : collector.stats[i]? = some s) : good i s := by
  obtain ⟨index, -⟩ := List.getElem?_eq_some_iff.mp at_i
  have inside : i < collector.held.length := by
    rw [sound.lengthHeld, ← sound.lengthStats]
    exact index
  have noneClear : false ∉ collector.held := by
    rw [← List.count_eq_zero, ← sound.counted]
    exact none_left
  have flag : collector.held[i] = true := by
    cases held : collector.held[i] with
    | true => rfl
    | false => exact absurd (held ▸ List.getElem_mem inside) noneClear
  exact sound.goodHeld i s (by rw [List.getElem?_eq_getElem inside, flag]) at_i

end Collector

/-- A sound collector, and out of the loop a complete one. -/
structure Waiting.Sound (good : Nat → SliceStats Double → Prop) (waiting : Waiting) : Prop where
  collected : waiting.collector.Sound good waiting.totalSlices
  leftComplete : ∀ stats, waiting.point = .left (.ok stats) →
    stats = waiting.collector.stats ∧ waiting.collector.remaining = 0

namespace Waiting
variable {good good' : Nat → SliceStats Double → Prop} {waiting next : Waiting} {jobId : String}

theorem start_sound (good : Nat → SliceStats Double → Prop) (totalSlices : Nat)
    (receiver : Receiver) : (start totalSlices receiver).Sound good :=
  ⟨Collector.init_sound good totalSlices, fun _ left => by cases left⟩

theorem Sound.mono (sound : waiting.Sound good) (weaker : ∀ i s, good i s → good' i s) :
    waiting.Sound good' :=
  ⟨sound.collected.mono weaker, sound.leftComplete⟩

/-- What one event can do to the loop. -/
theorem step_cases {event : WaitEvent} (applied : waiting.step jobId event = some next) :
    (∃ outcome i, event = .read outcome ∧ waiting.point = .passing i ∧ i < waiting.totalSlices ∧
      waiting.collector.held[i]? = some false ∧
      next = { waiting with collector := waiting.collector.read i outcome, point := .passing (i + 1) }) ∨
    (∃ i, event = .skip ∧ waiting.point = .passing i ∧ i < waiting.totalSlices ∧
      waiting.collector.held[i]? = some true ∧ next = { waiting with point := .passing (i + 1) }) ∨
    (∃ expired i, event = .endPass expired ∧ waiting.point = .passing i ∧ waiting.totalSlices ≤ i ∧
      ((waiting.collector.remaining = 0 ∧
          next = { waiting with point := .left (.ok waiting.collector.stats) }) ∨
        (waiting.collector.remaining ≠ 0 ∧ expired = true ∧
          next = { waiting with point := .left (.error (waitTimeout jobId)) }) ∨
        (waiting.collector.remaining ≠ 0 ∧ expired = false ∧
          next = { waiting with point := .parked }))) ∨
    (∃ notifier, event = .wake notifier ∧ waiting.point = .parked ∧
      next = { waiting with receiver := waiting.receiver.changed notifier, point := .passing 0 }) := by
  cases event with
  | read outcome =>
    simp only [step, wants] at applied
    split at applied
    · rename_i i wanted
      split at wanted
      · rename_i j point
        split at wanted
        · rename_i position
          cases wanted
          cases applied
          exact .inl ⟨outcome, i, rfl, point, position.1, position.2, rfl⟩
        · cases wanted
      · cases wanted
    · cases applied
  | skip =>
    simp only [step] at applied
    split at applied
    · rename_i i point
      split at applied
      · rename_i position
        cases applied
        exact .inr (.inl ⟨i, rfl, point, position.1, position.2, rfl⟩)
      · cases applied
    · cases applied
  | endPass expired =>
    simp only [step] at applied
    split at applied
    · rename_i i point
      split at applied
      · cases applied
      rename_i past
      refine .inr (.inr (.inl ⟨expired, i, rfl, point, Nat.le_of_not_lt past, ?_⟩))
      split at applied
      · rename_i none_left
        cases applied
        exact .inl ⟨none_left, rfl⟩
      · rename_i some_left
        split at applied
        · rename_i late
          cases applied
          exact .inr (.inl ⟨some_left, late, rfl⟩)
        · rename_i early
          cases applied
          exact .inr (.inr ⟨some_left, by simpa using early, rfl⟩)
    · cases applied
  | wake notifier =>
    simp only [step] at applied
    split at applied
    · rename_i point
      cases applied
      exact .inr (.inr (.inr ⟨notifier, rfl, point, rfl⟩))
    · cases applied

theorem step_totalSlices {event : WaitEvent} (applied : waiting.step jobId event = some next) :
    next.totalSlices = waiting.totalSlices := by
  rcases step_cases applied with ⟨_, _, -, -, -, -, rfl⟩ | ⟨_, -, -, -, -, rfl⟩ |
    ⟨_, _, -, -, -, ⟨-, rfl⟩ | ⟨-, -, rfl⟩ | ⟨-, -, rfl⟩⟩ | ⟨_, -, -, rfl⟩ <;> rfl

theorem clear_of_wants {i : Nat} (wanted : waiting.wants = some i) :
    waiting.collector.held[i]? = some false := by
  unfold wants at wanted
  split at wanted
  · split at wanted
    · rename_i position
      cases wanted
      exact position.2
    · cases wanted
  · cases wanted

theorem wants_of_read {outcome : Except ReadError (Option (SliceStats Double))}
    (applied : waiting.step jobId (.read outcome) = some next) :
    ∃ i, waiting.wants = some i ∧ i < waiting.totalSlices := by
  rcases step_cases applied with ⟨_, i, -, point, inside, clear, -⟩ | ⟨_, same, -⟩ |
    ⟨_, _, same, -⟩ | ⟨_, same, -⟩
  · exact ⟨i, by simp only [wants, point, inside, clear, and_self, if_true], inside⟩
  · cases same
  · cases same
  · cases same

/-- Short of leaving it, some event always applies: a read or a skip, the end of
a pass, or a wakeup. -/
theorem step_enabled (sound : waiting.Sound good) (stays : ∀ outcome, waiting.point ≠ .left outcome) :
    (∀ outcome, (waiting.step jobId (.read outcome)).isSome = true) ∨
      (waiting.step jobId .skip).isSome = true ∨
      (waiting.step jobId (.endPass false)).isSome = true ∨
      ∀ notifier, (waiting.step jobId (.wake notifier)).isSome = true := by
  cases point : waiting.point with
  | passing i =>
    rcases Nat.lt_or_ge i waiting.totalSlices with inside | past
    · have index : i < waiting.collector.held.length := by
        rw [sound.collected.lengthHeld]
        exact inside
      cases flag : waiting.collector.held[i] with
      | false =>
        refine .inl fun outcome => ?_
        have wanted : waiting.wants = some i := by
          simp only [wants, point, inside, List.getElem?_eq_getElem index, flag, and_self, if_true]
        simp only [step, wanted]
        rfl
      | true =>
        refine .inr (.inl ?_)
        simp only [step, point, inside, List.getElem?_eq_getElem index, flag, and_self, if_true]
        rfl
    · refine .inr (.inr (.inl ?_))
      simp only [step, point, if_neg (Nat.not_lt.mpr past)]
      split <;> rfl
  | parked =>
    refine .inr (.inr (.inr fun notifier => ?_))
    simp only [step, point]
    rfl
  | left outcome => exact absurd point (stays outcome)

/-- Events keep the loop sound when what is read is good for the index read. -/
theorem step_sound {event : WaitEvent} (applied : waiting.step jobId event = some next)
    (sound : waiting.Sound good)
    (fine : ∀ i s, waiting.wants = some i → event = .read (.ok (some s)) → good i s) :
    next.Sound good := by
  rcases step_cases applied with ⟨outcome, i, rfl, point, inside, clear, rfl⟩ |
    ⟨i, -, -, -, -, rfl⟩ | ⟨_, _, -, -, -, ⟨none_left, rfl⟩ | ⟨-, -, rfl⟩ | ⟨-, -, rfl⟩⟩ |
    ⟨_, -, -, rfl⟩
  · have wanted : waiting.wants = some i := by simp only [wants, point, inside, clear, and_self, if_true]
    refine ⟨Collector.read_sound sound.collected clear ?_, fun _ left => by cases left⟩
    rintro s rfl
    exact fine i s wanted rfl
  · exact ⟨sound.collected, fun _ left => by cases left⟩
  · refine ⟨sound.collected, fun stats left => ?_⟩
    cases left
    exact ⟨rfl, none_left⟩
  · exact ⟨sound.collected, fun _ left => by cases left⟩
  · exact ⟨sound.collected, fun _ left => by cases left⟩
  · exact ⟨sound.collected, fun _ left => by cases left⟩

end Waiting
end DistributedSoftmax.Gateway
