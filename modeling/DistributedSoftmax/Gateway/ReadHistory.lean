import DistributedSoftmax.Foundations.Transition
import DistributedSoftmax.Gateway.Collection

/-! The loop of `wait_for_all_slices` beside the record of its reads: whatever
the reads return and however the waits end, the loop holds the first slice that
was read for an index, and leaves with an error only after a pass that tried
every missing slice. The clock enters through the flag at the end of a pass,
which is arbitrary here. -/

set_option autoImplicit false

namespace DistributedSoftmax.Gateway
open Foundations.Transition

abbrev ReadOutcome := Except ReadError (Option (SliceStats Double))

/-- The slice that a successful read returns. -/
def sliceOf : ReadOutcome → Option (SliceStats Double)
  | .ok (some slice) => some slice
  | .ok none | .error _ => none

/-- The slice of the first successful read of index `i`. -/
def firstSlice (reads : List (Nat × ReadOutcome)) (i : Nat) : Option (SliceStats Double) :=
  reads.findSome? fun entry => if entry.1 = i then sliceOf entry.2 else none

/-- No index is read again after a read of it was successful. -/
def ReadOnce (reads : List (Nat × ReadOutcome)) : Prop :=
  ∀ earlier i outcome later, reads = earlier ++ (i, outcome) :: later →
    sliceOf outcome ≠ none → ∀ again, (i, again) ∉ later

/-- The loop with all of its reads, and those of its current or last pass. -/
structure History where
  waiting : Waiting
  reads : List (Nat × ReadOutcome)
  pass : List (Nat × ReadOutcome)

namespace History

def start (totalSlices : Nat) (receiver : Receiver) : History :=
  ⟨.start totalSlices receiver, [], []⟩

/-- What an event adds to the record; a wakeup begins the next pass. -/
def record (history : History) (next : Waiting) : WaitEvent → History
  | .read outcome =>
      let entry := (history.waiting.wants.getD 0, outcome)
      ⟨next, history.reads ++ [entry], history.pass ++ [entry]⟩
  | .wake _ => ⟨next, history.reads, []⟩
  | .skip | .endPass _ => ⟨next, history.reads, history.pass⟩

def step (jobId : String) (event : WaitEvent) (history : History) : Option History :=
  (history.waiting.step jobId event).map fun next => history.record next event

end History

section record
variable {reads : List (Nat × ReadOutcome)} {i : Nat}

theorem firstSlice_append (entry : Nat × ReadOutcome) :
    firstSlice (reads ++ [entry]) i =
      (firstSlice reads i).or (if entry.1 = i then sliceOf entry.2 else none) := by
  rw [firstSlice, List.findSome?_append, firstSlice]
  congr 1
  cases slice : (if entry.1 = i then sliceOf entry.2 else none) <;> simp [slice]

theorem firstSlice_append_of_some {slice : SliceStats Double} (entry : Nat × ReadOutcome)
    (first : firstSlice reads i = some slice) :
    firstSlice (reads ++ [entry]) i = some slice := by
  rw [firstSlice_append, first, Option.some_or]

theorem firstSlice_append_other {entry : Nat × ReadOutcome} (other : entry.1 ≠ i) :
    firstSlice (reads ++ [entry]) i = firstSlice reads i := by
  rw [firstSlice_append, if_neg other, Option.or_none]

theorem firstSlice_append_self {outcome : ReadOutcome} (unread : firstSlice reads i = none) :
    firstSlice (reads ++ [(i, outcome)]) i = sliceOf outcome := by
  rw [firstSlice_append, if_pos rfl, unread, Option.none_or]

/-- As long as nothing was read for an index, its reads all failed. -/
theorem sliceOf_eq_none {outcome : ReadOutcome} (unread : firstSlice reads i = none)
    (member : (i, outcome) ∈ reads) : sliceOf outcome = none := by
  have failed := List.findSome?_eq_none_iff.mp unread (i, outcome) member
  rwa [if_pos rfl] at failed

theorem ReadOnce.append (once : ReadOnce reads) {outcome : ReadOutcome}
    (unread : firstSlice reads i = none) : ReadOnce (reads ++ [(i, outcome)]) := by
  intro earlier k first later split success again member
  -- The later reads end with the new one, or there are none of them.
  rcases List.eq_nil_or_concat later with rfl | ⟨rest, last, rfl⟩
  · cases member
  · rw [List.concat_eq_append, ← List.cons_append, ← List.append_assoc] at split
    obtain ⟨before, same⟩ := List.append_inj' split rfl
    cases same
    rw [List.concat_eq_append] at member
    rcases List.mem_append.mp member with old | new
    · exact once earlier k first rest before success again old
    · cases List.mem_singleton.mp new
      apply success
      apply sliceOf_eq_none unread
      rw [before]
      exact List.mem_append_right earlier List.mem_cons_self

end record

namespace History
variable {jobId : String} {totalSlices : Nat} {history next : History} {event : WaitEvent}

/-- Index `i` was read before, or in this pass. -/
def Tried (history : History) (i : Nat) : Prop :=
  firstSlice history.reads i ≠ none ∨ ∃ outcome, (i, outcome) ∈ history.pass

/-- The loop and the record of its reads fit together. -/
structure Inv (jobId : String) (totalSlices : Nat) (history : History) : Prop where
  total : history.waiting.totalSlices = totalSlices
  sound : history.waiting.Sound fun i slice => firstSlice history.reads i = some slice
  held : ∀ i < totalSlices,
    history.waiting.collector.held[i]? = some (firstSlice history.reads i).isSome
  inside : ∀ i, firstSlice history.reads i ≠ none → i < totalSlices
  once : ReadOnce history.reads
  within : ∀ entry ∈ history.pass, entry ∈ history.reads
  passing : ∀ k, history.waiting.point = .passing k → ∀ i < k, i < totalSlices → history.Tried i
  timeout : ∀ error, history.waiting.point = .left (.error error) →
    error = waitTimeout jobId ∧ history.waiting.collector.remaining ≠ 0 ∧
      ∀ i < totalSlices, history.Tried i

theorem start_inv (receiver : Receiver) : Inv jobId totalSlices (start totalSlices receiver) where
  total := rfl
  sound := Waiting.start_sound _ _ _
  held i below := List.getElem?_replicate_of_lt below
  inside i read := absurd rfl read
  once earlier i outcome later same := by
    have lengths := congrArg List.length same
    rw [List.length_append] at lengths
    cases lengths
  within entry member := absurd member List.not_mem_nil
  passing k same i below := by
    cases same
    exact absurd below (Nat.not_lt_zero i)
  timeout error same := by cases same

/-- A flag is clear as long as nothing was read for its index. -/
theorem Inv.unread (inv : Inv jobId totalSlices history) {i : Nat} (below : i < totalSlices)
    (clear : history.waiting.collector.held[i]? = some false) :
    firstSlice history.reads i = none := by
  rw [inv.held i below, Option.some.injEq] at clear
  exact Option.isSome_eq_false_iff.mp clear |> Option.isNone_iff_eq_none.mp

/-- The flags after a read are those of the longer record. -/
theorem Inv.held_read (inv : Inv jobId totalSlices history) {i : Nat} (below : i < totalSlices)
    (clear : history.waiting.collector.held[i]? = some false) (outcome : ReadOutcome) {k : Nat}
    (inside : k < totalSlices) :
    (history.waiting.collector.read i outcome).held[k]? =
      some (firstSlice (history.reads ++ [(i, outcome)]) k).isSome := by
  by_cases same : i = k
  · subst same
    rw [firstSlice_append_self (inv.unread below clear)]
    cases outcome with
    | ok found =>
      cases found with
      | some slice => exact Collector.held_read_self clear slice
      | none => exact clear
    | error failure => exact clear
  · rw [firstSlice_append_other same]
    cases outcome with
    | ok found =>
      cases found with
      | some slice => exact (List.getElem?_set_ne same).trans (inv.held k inside)
      | none => exact inv.held k inside
    | error failure => exact inv.held k inside

theorem Tried.append {i k : Nat} {outcome : ReadOutcome} {waiting : Waiting}
    (tried : history.Tried k) :
    Tried ⟨waiting, history.reads ++ [(i, outcome)], history.pass ++ [(i, outcome)]⟩ k := by
  cases tried with
  | inl read =>
    obtain ⟨slice, first⟩ := Option.ne_none_iff_exists'.mp read
    apply Or.inl
    rw [firstSlice_append_of_some _ first]
    exact Option.some_ne_none slice
  | inr inPass =>
    obtain ⟨again, member⟩ := inPass
    exact Or.inr ⟨again, List.mem_append_left _ member⟩

/-- A read keeps the loop and the record together. -/
theorem read_inv {outcome : ReadOutcome} {i : Nat} (inv : Inv jobId totalSlices history)
    (point : history.waiting.point = .passing i) (below : i < totalSlices)
    (clear : history.waiting.collector.held[i]? = some false) :
    Inv jobId totalSlices
      ⟨{ history.waiting with
          collector := history.waiting.collector.read i outcome, point := .passing (i + 1) },
        history.reads ++ [(i, outcome)], history.pass ++ [(i, outcome)]⟩ := by
  have unread := inv.unread below clear
  refine ⟨inv.total, ⟨?_, ?_⟩, ?_, ?_, inv.once.append unread, ?_, ?_, ?_⟩
  · apply Collector.read_sound
    · exact inv.sound.collected.mono fun k slice first => firstSlice_append_of_some _ first
    · exact clear
    · rintro slice rfl
      exact firstSlice_append_self unread
  · intro stats left
    cases left
  · intro k inside
    exact inv.held_read below clear outcome inside
  · intro k read
    by_cases same : i = k
    · exact same ▸ below
    · rw [firstSlice_append_other same] at read
      exact inv.inside k read
  · intro entry member
    rcases List.mem_append.mp member with old | new
    · exact List.mem_append_left _ (inv.within entry old)
    · exact List.mem_append_right _ new
  · intro k same j lower inside
    cases same
    rcases Nat.lt_succ_iff_lt_or_eq.mp lower with earlier | rfl
    · exact (inv.passing i point j earlier inside).append
    · exact Or.inr ⟨outcome, List.mem_append_right _ List.mem_cons_self⟩
  · intro error left
    cases left

/-- A pass that came to its end tried every index. -/
theorem Inv.tried_all (inv : Inv jobId totalSlices history) {k : Nat}
    (point : history.waiting.point = .passing k) (past : history.waiting.totalSlices ≤ k) :
    ∀ i < totalSlices, history.Tried i := by
  intro i inside
  apply inv.passing k point i _ inside
  have total := inv.total
  omega

theorem step_inv (inv : Inv jobId totalSlices history)
    (applied : history.step jobId event = some next) : Inv jobId totalSlices next := by
  obtain ⟨after, moved, rfl⟩ := Option.map_eq_some_iff.mp applied
  rcases Waiting.step_cases moved with ⟨outcome, i, rfl, point, inside, clear, rfl⟩ |
    ⟨i, rfl, point, inside, flag, rfl⟩ |
    ⟨expired, k, rfl, point, past, ⟨none_left, rfl⟩ | ⟨some_left, -, rfl⟩ | ⟨-, -, rfl⟩⟩ |
    ⟨notifier, rfl, point, rfl⟩
  · have wanted : history.waiting.wants = some i := by
      simp only [Waiting.wants, point, inside, clear, and_self, if_true]
    rw [record, wanted, Option.getD_some]
    exact read_inv inv point (inv.total ▸ inside) clear
  · -- Only a slice that was read before is stepped over.
    refine { inv with sound := ⟨inv.sound.collected, ?_⟩, passing := ?_, timeout := ?_ }
    · intro stats left
      cases left
    · intro k same j lower below
      cases same
      rcases Nat.lt_succ_iff_lt_or_eq.mp lower with earlier | rfl
      · exact inv.passing i point j earlier below
      · apply Or.inl
        have read := (inv.held j below).symm.trans flag
        rw [Option.some.injEq] at read
        exact Option.isSome_iff_ne_none.mp read
    · intro error left
      cases left
  · refine { inv with sound := ⟨inv.sound.collected, ?_⟩, passing := ?_, timeout := ?_ }
    · intro stats left
      cases left
      exact ⟨rfl, none_left⟩
    · intro k same
      cases same
    · intro error left
      cases left
  · refine { inv with sound := ⟨inv.sound.collected, ?_⟩, passing := ?_, timeout := ?_ }
    · intro stats left
      cases left
    · intro k same
      cases same
    · intro error left
      cases left
      exact ⟨rfl, some_left, inv.tried_all point past⟩
  · refine { inv with sound := ⟨inv.sound.collected, ?_⟩, passing := ?_, timeout := ?_ }
    · intro stats left
      cases left
    · intro k same
      cases same
    · intro error left
      cases left
  · refine { inv with sound := ⟨inv.sound.collected, ?_⟩, within := ?_, passing := ?_, timeout := ?_ }
    · intro stats left
      cases left
    · intro entry member
      cases member
    · intro k same i lower
      cases same
      exact absurd lower (Nat.not_lt_zero i)
    · intro error left
      cases left

/-- The counter is positive before every read, so that it can be decremented. -/
theorem Inv.remaining_pos (inv : Inv jobId totalSlices history) {i : Nat}
    (clear : history.waiting.collector.held[i]? = some false) :
    0 < history.waiting.collector.remaining := by
  rw [inv.sound.collected.counted]
  apply List.count_pos_iff.mpr
  exact List.mem_of_getElem? clear

/-- What is held for an index is the first slice that was read for it. -/
theorem Inv.stats (inv : Inv jobId totalSlices history) {i : Nat} {slice : SliceStats Double}
    (first : firstSlice history.reads i = some slice) :
    history.waiting.collector.stats[i]? = some slice := by
  have below := inv.inside i (by rw [first]; exact Option.some_ne_none slice)
  have flag := inv.held i below
  rw [first, Option.isSome_some] at flag
  have index : i < history.waiting.collector.stats.length := by
    rw [inv.sound.collected.lengthStats, inv.total]
    exact below
  have same := inv.sound.collected.goodHeld i _ flag (List.getElem?_eq_getElem index)
  rw [first, Option.some.injEq] at same
  rw [List.getElem?_eq_getElem index, same]

/-- As long as the counter is not zero, some index is missing. -/
theorem Inv.missing (inv : Inv jobId totalSlices history)
    (some_left : history.waiting.collector.remaining ≠ 0) :
    ∃ i < totalSlices, firstSlice history.reads i = none := by
  rw [inv.sound.collected.counted] at some_left
  have member := List.count_pos_iff.mp (Nat.pos_of_ne_zero some_left)
  obtain ⟨i, index, clear⟩ := List.getElem_of_mem member
  have below : i < totalSlices := by
    rw [← inv.total, ← inv.sound.collected.lengthHeld]
    exact index
  refine ⟨i, below, inv.unread below ?_⟩
  rw [List.getElem?_eq_getElem index, clear]

/-- Only indices of the job are read. -/
theorem step_inside (inv : Inv jobId totalSlices history)
    (inside : ∀ entry ∈ history.reads, entry.1 < totalSlices)
    (applied : history.step jobId event = some next) : ∀ entry ∈ next.reads, entry.1 < totalSlices := by
  obtain ⟨after, moved, rfl⟩ := Option.map_eq_some_iff.mp applied
  rcases Waiting.step_cases moved with ⟨outcome, i, rfl, point, below, clear, -⟩ |
    ⟨i, rfl, -⟩ | ⟨expired, k, rfl, -⟩ | ⟨notifier, rfl, -⟩
  · have wanted : history.waiting.wants = some i := by
      simp only [Waiting.wants, point, below, clear, and_self, if_true]
    intro entry member
    rw [record, wanted, Option.getD_some] at member
    rcases List.mem_append.mp member with old | new
    · exact inside entry old
    · rw [List.mem_singleton.mp new]
      exact inv.total ▸ below
  · exact inside
  · exact inside
  · exact inside

/-- An index that was tried was read. -/
theorem Inv.read_of_tried (inv : Inv jobId totalSlices history) {i : Nat} (tried : history.Tried i) :
    ∃ outcome, (i, outcome) ∈ history.reads := by
  rcases tried with read | ⟨outcome, member⟩
  · obtain ⟨slice, first⟩ := Option.ne_none_iff_exists'.mp read
    obtain ⟨⟨k, outcome⟩, member, found⟩ := List.exists_of_findSome?_eq_some first
    by_cases same : k = i
    · exact ⟨outcome, same ▸ member⟩
    · rw [if_neg same] at found
      cases found
  · exact ⟨outcome, inv.within _ member⟩

/-- Out of the loop with slices, there is one for each index. -/
theorem Inv.complete (inv : Inv jobId totalSlices history) {stats : List (SliceStats Double)}
    (left : history.waiting.point = .left (.ok stats)) : stats.length = totalSlices ∧
      ∀ i < totalSlices, ∃ slice, firstSlice history.reads i = some slice ∧
        stats[i]? = some slice := by
  obtain ⟨rfl, none_left⟩ := inv.sound.leftComplete stats left
  have length := inv.sound.collected.lengthStats.trans inv.total
  refine ⟨length, fun i below => ?_⟩
  have at_i := List.getElem?_eq_getElem (length ▸ below)
  exact ⟨_, inv.sound.collected.complete none_left at_i, at_i⟩

end History

/-- Slice collection is exact, for every sequence of events: the counter counts
the missing slices and is positive before every read; no slice is read again
once it is held; the loop returns the first slice that was read for every index;
and it reports a timeout only after a pass that tried every missing index and
failed to read one. -/
theorem collection_exact {jobId : String} {totalSlices : Nat} {receiver : Receiver}
    {events : List WaitEvent} {history : History}
    (ran : run (History.step jobId) events (.start totalSlices receiver) = some history) :
    history.waiting.collector.held.length = totalSlices ∧
    history.waiting.collector.remaining = history.waiting.collector.held.count false ∧
    (∀ i, history.waiting.wants = some i → 0 < history.waiting.collector.remaining) ∧
    (∀ i < totalSlices,
      history.waiting.collector.held[i]? = some (firstSlice history.reads i).isSome) ∧
    (∀ i slice, firstSlice history.reads i = some slice →
      history.waiting.collector.stats[i]? = some slice) ∧
    ReadOnce history.reads ∧
    (∀ stats, history.waiting.point = .left (.ok stats) → stats.length = totalSlices ∧
      ∀ i < totalSlices, ∃ slice, firstSlice history.reads i = some slice ∧
        stats[i]? = some slice) ∧
    ∀ error, history.waiting.point = .left (.error error) → error = waitTimeout jobId ∧
      (∀ i < totalSlices, history.Tried i) ∧
      ∃ i < totalSlices, firstSlice history.reads i = none ∧
        ∃ outcome, (i, outcome) ∈ history.pass ∧ sliceOf outcome = none := by
  have inv := run_invariant (fun _ _ _ inv applied => History.step_inv inv applied)
    (History.start_inv receiver) ran
  refine ⟨inv.sound.collected.lengthHeld.trans inv.total, inv.sound.collected.counted, ?_,
    inv.held, fun i slice => inv.stats, inv.once, fun stats => inv.complete, ?_⟩
  · intro i wanted
    apply inv.remaining_pos
    exact Waiting.clear_of_wants wanted
  · intro error left
    obtain ⟨same, some_left, tried⟩ := inv.timeout error left
    obtain ⟨i, below, unread⟩ := inv.missing some_left
    refine ⟨same, tried, i, below, unread, ?_⟩
    -- It was not read before, so the last pass tried it.
    obtain ⟨outcome, member⟩ := (tried i below).resolve_left fun read => read unread
    exact ⟨outcome, member, sliceOf_eq_none unread (inv.within _ member)⟩

/-- The loop reads the indices below the number of slices and no others: all of
them have been read at the end of a pass, and when the loop is left. -/
theorem read_indices {jobId : String} {totalSlices : Nat} {receiver : Receiver}
    {events : List WaitEvent} {history : History}
    (ran : run (History.step jobId) events (.start totalSlices receiver) = some history) :
    (∀ entry ∈ history.reads, entry.1 < totalSlices) ∧
    ((∃ k, history.waiting.point = .passing k ∧ totalSlices ≤ k) ∨
        (∃ outcome, history.waiting.point = .left outcome) →
      ∀ i < totalSlices, ∃ outcome, (i, outcome) ∈ history.reads) := by
  have start : ∀ entry ∈ (History.start totalSlices receiver).reads, entry.1 < totalSlices :=
    fun entry member => absurd member List.not_mem_nil
  have preserved : ∀ event (h next : History),
      (History.Inv jobId totalSlices h ∧ ∀ entry ∈ h.reads, entry.1 < totalSlices) →
        h.step jobId event = some next →
          History.Inv jobId totalSlices next ∧ ∀ entry ∈ next.reads, entry.1 < totalSlices :=
    fun event h next held applied =>
      ⟨History.step_inv held.1 applied, History.step_inside held.1 held.2 applied⟩
  obtain ⟨inv, inside⟩ := run_invariant preserved ⟨History.start_inv receiver, start⟩ ran
  refine ⟨inside, fun ended i below => ?_⟩
  rcases ended with ⟨k, point, past⟩ | ⟨outcome, left⟩
  · exact inv.read_of_tried (inv.passing k point i (Nat.lt_of_lt_of_le below past) below)
  · cases outcome with
    | error error => exact inv.read_of_tried ((inv.timeout error left).2.2 i below)
    | ok stats =>
      obtain ⟨slice, first, -⟩ := (inv.complete left).2 i below
      exact inv.read_of_tried (.inl (by rw [first]; exact Option.some_ne_none slice))

/-- The slice of one value, as it is read back. -/
def oneValue : SliceStats Double := ⟨[.one], .zero, .one, false⟩

/-- One slice: a first read that fails, a wakeup, and a second read that finds it. -/
def secondRead : List WaitEvent :=
  [.read (.error .redis), .endPass false, .wake .empty, .read (.ok (some oneValue)),
    .endPass false]

theorem collection_exact_second_read : ∃ history,
    run (History.step "j") secondRead (.start 1 ⟨0, 0⟩) = some history ∧
      history.waiting.point = .left (.ok [oneValue]) ∧
        firstSlice history.reads 0 = some oneValue ∧ ReadOnce history.reads := by
  obtain ⟨history, ran⟩ : ∃ history,
      run (History.step "j") secondRead (.start 1 ⟨0, 0⟩) = some history := ⟨_, rfl⟩
  have left : history.waiting.point = .left (.ok [oneValue]) := by
    cases ran
    rfl
  obtain ⟨-, -, -, -, -, once, complete, -⟩ := collection_exact ran
  obtain ⟨slice, first, same⟩ := (complete _ left).2 0 Nat.one_pos
  cases same
  exact ⟨history, ran, left, first, once⟩

end DistributedSoftmax.Gateway
