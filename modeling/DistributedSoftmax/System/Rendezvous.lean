import DistributedSoftmax.System.JobKeys
import DistributedSoftmax.Worker.Rendezvous

/-! The rendezvous of the ranks of one worker group, which starts on whatever an
earlier group left in Redis. Identifier and announcements stand under fixed keys,
and nothing tells those of this group from leftovers: the ranks agree, and wait
for each other, exactly when no key is left that they could mistake. -/

set_option autoImplicit false

namespace DistributedSoftmax.System.Rendezvous
open Foundations.ByteString Foundations.KeyValue Foundations.Transition
open Jobs (Fault attempt expire found)
open Worker

structure State where
  store : Store
  ranks : Nat → Rank
  /-- The identifier that rank 0 of this group generated. -/
  generated : Option NcclId

/-- A group starts on a store that was left behind. -/
def start (leftover : Store) : State := ⟨leftover, Rank.start, none⟩

inductive Action where
  /-- `Id::new` on rank 0. -/
  | generate (id : Except String NcclId)
  | operate (rank : Nat) (fault : Fault)
  | endPass (rank : Nat)
  /-- Time passes, and entries expire. -/
  | elapse (seconds : Nat)

/-- The rank goes on. -/
def State.put (s : State) (rank : Nat) (self : Rank) : State :=
  { s with ranks := Function.update s.ranks rank self }

def step (worldSize : Nat) : Action → State → Option State
  | .generate id, s => match (s.ranks 0).phase with
      | .generating =>
          if 0 < worldSize then
            some { s.put 0 (Rank.generated id) with generated := id.toOption }
          else none
      | _ => none
  | .operate rank fault, s =>
      if rank < worldSize then match (s.ranks rank).command rank worldSize with
        | some command =>
            let (store, reply) := attempt fault command s.store
            some { s.put rank ((s.ranks rank).answered rank reply) with store }
        | none => none
      else none
  | .endPass rank, s =>
      if rank < worldSize then ((s.ranks rank).endPass rank worldSize).map (s.put rank) else none
  -- The pauses of the loops are not modelled: any time may pass between two steps.
  | .elapse seconds, s => some { s with store := expire seconds s.store }

/-- What groups leave behind under their keys: an identifier and announcements. -/
def LeftBehind (key : String) (value : Bytes) : Prop :=
  (key = ncclUidKey → value.length = 128) ∧ ∀ rank, key = ncclReadyKey rank → value = utf8 "1"

def Leftover (store : Store) : Prop := store.All LeftBehind

/-- Any two ranks that returned have the identifier that rank 0 generated. -/
def Agreement (worldSize : Nat) (s : State) : Prop :=
  ∀ r < worldSize, ∀ r' < worldSize, ∀ id id',
    (s.ranks r).phase = .returned (.ok id) → (s.ranks r').phase = .returned (.ok id') →
      id = id' ∧ s.generated = some id

/-- When a rank has returned, every rank has obtained the identifier of rank 0. -/
def Barrier (worldSize : Nat) (s : State) : Prop :=
  ∀ r < worldSize, ∀ id, (s.ranks r).phase = .returned (.ok id) →
    ∃ own, s.generated = some own ∧ ∀ r' < worldSize, (s.ranks r').idBytes = some own.bytes

/-- Every run of a group from what was left behind. -/
def Safe (worldSize : Nat) (leftover : Store) : Prop :=
  ∀ actions s, run (step worldSize) actions (start leftover) = some s →
    Agreement worldSize s ∧ Barrier worldSize s

-- A leftover announcement of rank 0 does no harm: no other rank can announce itself
-- before it has the identifier, which rank 0 stores first.
/-- No key is left that a rank could mistake: no identifier, and no announcement
of another rank than 0. A single rank reads no other's keys. -/
def Clean (worldSize : Nat) (leftover : Store) : Prop :=
  1 < worldSize → leftover ncclUidKey = none ∧
    ∀ r < worldSize, 0 < r → leftover (ncclReadyKey r) = none

/-- The bytes are those of the identifier of this group. -/
def Own (s : State) (bytes : Bytes) : Prop := ∃ id, s.generated = some id ∧ bytes = id.bytes

/-- What the phase of a rank says about all ranks. -/
def PhaseOk (worldSize : Nat) (s : State) (rank : Nat) (self : Rank) : Prop :=
  match self.phase with
  | .generating => rank = 0 ∧ s.generated = none
  | .polling _ => 0 < rank
  | .storing id => s.generated = some id ∧ self.idBytes = some id.bytes
  | .readying => self.idBytes ≠ none
  | .counting _ k ready => self.idBytes ≠ none ∧ k ≤ worldSize ∧ ready ≤ k ∧
      (ready = k → ∀ r < k, (s.ranks r).idBytes ≠ none)
  | .returned (.ok id) => self.idBytes = some id.bytes ∧
      ∀ r < worldSize, (s.ranks r).idBytes ≠ none
  | .returned (.error _) => True

/-- The state of a group that started on a clean store. -/
structure Inv (worldSize : Nat) (s : State) : Prop where
  /-- Another rank than 0 finds the identifier of this group only. -/
  uid : 1 < worldSize → ∀ bytes, found s.store ncclUidKey = some bytes → Own s bytes
  ready : ∀ r < worldSize, 0 < r → s.store (ncclReadyKey r) ≠ none → (s.ranks r).idBytes ≠ none
  /-- Rank 0 has the identifier that it generated. -/
  first : ∀ id, s.generated = some id → (s.ranks 0).idBytes = some id.bytes
  ids : ∀ r < worldSize, ∀ bytes, (s.ranks r).idBytes = some bytes → Own s bytes
  phases : ∀ r < worldSize, PhaseOk worldSize s r (s.ranks r)

variable {worldSize : Nat} {s next : State}

/-- A state with the invariant is as the claim about the rendezvous wants it. -/
theorem Inv.sound (inv : Inv worldSize s) : Agreement worldSize s ∧ Barrier worldSize s := by
  have own : ∀ r < worldSize, ∀ id, (s.ranks r).phase = .returned (.ok id) →
      s.generated = some id ∧ ∀ r' < worldSize, (s.ranks r').idBytes ≠ none := by
    intro r inside id returned
    have ok := inv.phases r inside
    rw [PhaseOk, returned] at ok
    obtain ⟨own, generated, same⟩ := inv.ids r inside _ ok.1
    refine ⟨?_, ok.2⟩
    rw [generated]
    cases own
    cases id
    cases same
    rfl
  constructor
  · intro r inside r' inside' id id' returned returned'
    have first := (own r inside id returned).1
    have second := (own r' inside' id' returned').1
    exact ⟨Option.some.inj (first.symm.trans second), first⟩
  · intro r inside id returned
    obtain ⟨generated, all⟩ := own r inside id returned
    refine ⟨id, generated, fun r' inside' => ?_⟩
    obtain ⟨bytes, obtained⟩ := Option.ne_none_iff_exists'.mp (all r' inside')
    obtain ⟨other, generated', rfl⟩ := inv.ids r' inside' bytes obtained
    cases generated.symm.trans generated'
    exact obtained

theorem start_inv {leftover : Store} (clean : Clean worldSize leftover) :
    Inv worldSize (start leftover) where
  uid many bytes stored := by
    have absent : found leftover ncclUidKey = none := congrArg (Option.map Entry.value) (clean many).1
    cases absent.symm.trans stored
  ready r inside positive present :=
    absurd ((clean (by omega)).2 r inside positive) present
  first _ generated := by cases generated
  ids _ _ _ obtained := by cases obtained
  phases r _ := by
    by_cases zero : r = 0
    · subst zero
      exact ⟨rfl, rfl⟩
    · simp only [PhaseOk, start, Rank.start, if_neg zero]
      omega

/-- What a phase says stays true while ranks only obtain identifiers. -/
theorem PhaseOk.mono {rank : Nat} {self : Rank}
    (grows : ∀ r, (s.ranks r).idBytes ≠ none → (next.ranks r).idBytes ≠ none)
    (same : next.generated = s.generated) (ok : PhaseOk worldSize s rank self) :
    PhaseOk worldSize next rank self := by
  unfold PhaseOk at ok ⊢
  split at ok
  · exact ⟨ok.1, same.trans ok.2⟩
  · exact ok
  · exact ⟨same.trans ok.1, ok.2⟩
  · exact ok
  · exact ⟨ok.1, ok.2.1, ok.2.2.1, fun all r inside => grows r (ok.2.2.2 all r inside)⟩
  · exact ⟨ok.1, fun r inside => grows r (ok.2 r inside)⟩
  · trivial

/-- A rank goes on, and the store changes under its keys. -/
theorem Inv.put (inv : Inv worldSize s) {rank : Nat} {self : Rank} {store : Store}
    (keeps : ∀ bytes, (s.ranks rank).idBytes = some bytes → self.idBytes = some bytes)
    (uid : 1 < worldSize → ∀ bytes, found store ncclUidKey = some bytes → Own s bytes)
    (ready : ∀ r, store (ncclReadyKey r) ≠ none →
      s.store (ncclReadyKey r) ≠ none ∨ r = rank ∧ self.idBytes ≠ none)
    (ids : ∀ bytes, self.idBytes = some bytes → Own s bytes)
    (phase : PhaseOk worldSize s rank self) :
    Inv worldSize { s.put rank self with store } := by
  -- Identifiers are obtained once and never lost, by this rank and by the others.
  have keepsAll : ∀ r bytes, (s.ranks r).idBytes = some bytes →
      (Function.update s.ranks rank self r).idBytes = some bytes := by
    intro r bytes obtained
    by_cases own : r = rank
    · subst own
      rw [Function.update_self]
      exact keeps bytes obtained
    · rwa [Function.update_of_ne own]
  have grows : ∀ r, (s.ranks r).idBytes ≠ none →
      (Function.update s.ranks rank self r).idBytes ≠ none := by
    intro r obtained
    obtain ⟨bytes, same⟩ := Option.ne_none_iff_exists'.mp obtained
    rw [keepsAll r bytes same]
    exact Option.some_ne_none _
  constructor
  · exact uid
  · intro r inside positive present
    rcases ready r present with before | ⟨rfl, obtained⟩
    · exact grows r (inv.ready r inside positive before)
    · change (Function.update s.ranks r self r).idBytes ≠ none
      rwa [Function.update_self]
  · intro id generated
    exact keepsAll 0 _ (inv.first id generated)
  · intro r inside bytes obtained
    change (Function.update s.ranks rank self r).idBytes = some bytes at obtained
    by_cases own : r = rank
    · subst own
      rw [Function.update_self] at obtained
      exact ids bytes obtained
    · rw [Function.update_of_ne own] at obtained
      exact inv.ids r inside bytes obtained
  · intro r inside
    change PhaseOk worldSize _ r (Function.update s.ranks rank self r)
    by_cases own : r = rank
    · subst own
      rw [Function.update_self]
      exact phase.mono grows rfl
    · rw [Function.update_of_ne own]
      exact (inv.phases r inside).mono grows rfl

theorem attempt_get (fault : Fault) (key : String) (store : Store) :
    attempt fault (.get key) store =
      (store, if fault = .none then some (.bulk (found store key)) else none) := by
  cases fault <;> rfl

theorem read_eq {fault : Fault} {value value' : Option Bytes}
    (read : (if fault = .none then some (Reply.bulk value) else none) = some (.bulk value')) :
    value = value' := by
  split at read
  · exact Reply.bulk.inj (Option.some.inj read)
  · cases read

theorem attempt_setEx_frame (fault : Fault) (key : String) (value : Bytes) (seconds : Nat)
    (store : Store) {other : String} (apart : other ≠ key) :
    (attempt fault (.setEx key value seconds) store).1 other = store other :=
  Jobs.attempt_frame fault store apart

/-- SETEX leaves the store as it is, or stores its value. -/
theorem attempt_setEx_cases (fault : Fault) (key : String) (value : Bytes) (seconds : Nat)
    (store : Store) : (attempt fault (.setEx key value seconds) store).1 = store ∨
      (attempt fault (.setEx key value seconds) store).1 =
        Function.update store key (some ⟨value, some seconds⟩) := by
  rcases Command.exec_setEx store key value seconds with same | ⟨-, same⟩ <;> cases fault
  · exact .inl same
  · exact .inl rfl
  · exact .inl same
  · exact .inr same
  · exact .inl rfl
  · exact .inr same

/-- A rank that only moves to another phase, while the store stays as it is. -/
theorem Inv.move (inv : Inv worldSize s) {rank : Nat} (inside : rank < worldSize)
    {phase : RankPhase}
    (ok : PhaseOk worldSize s rank { s.ranks rank with phase }) :
    Inv worldSize (s.put rank { s.ranks rank with phase }) :=
  inv.put (fun _ obtained => obtained) inv.uid (fun _ present => .inl present)
    (inv.ids rank inside) ok

section operations
variable (inv : Inv worldSize s) {rank : Nat} (inside : rank < worldSize) {fault : Fault}
  {store : Store} {reply : Option Reply}
include inv inside

theorem storing_inv {id : NcclId} (stands : (s.ranks rank).phase = .storing id)
    (attempted : attempt fault (.setEx ncclUidKey id.bytes ncclUidTtl) s.store = (store, reply)) :
    Inv worldSize { s.put rank ((s.ranks rank).answered rank reply) with store } := by
  have ok := inv.phases rank inside
  rw [PhaseOk, stands] at ok
  -- The identifier of this group is stored, or nothing is.
  have uid : ∀ bytes, found store ncclUidKey = some bytes →
      found s.store ncclUidKey = some bytes ∨ Own s bytes := by
    intro bytes stored
    rcases attempt_setEx_cases fault ncclUidKey id.bytes ncclUidTtl s.store with same | same <;>
      rw [attempted] at same <;> subst same
    · exact .inl stored
    · rw [found, Function.update_self] at stored
      cases stored
      exact .inr ⟨id, ok.1, rfl⟩
  have ready : ∀ r, store (ncclReadyKey r) = s.store (ncclReadyKey r) := by
    intro r
    have kept := attempt_setEx_frame fault ncclUidKey id.bytes ncclUidTtl s.store
      (ncclReadyKey_ne_uidKey r)
    rwa [attempted] at kept
  have goes : ((s.ranks rank).answered rank reply).idBytes = (s.ranks rank).idBytes ∧
      PhaseOk worldSize s rank ((s.ranks rank).answered rank reply) := by
    simp only [Rank.answered, stands]
    split
    · refine ⟨rfl, ?_⟩
      change (s.ranks rank).idBytes ≠ none
      rw [ok.2]
      exact Option.some_ne_none _
    · exact ⟨rfl, trivial⟩
  apply inv.put _ _ _ _ goes.2
  · exact fun _ obtained => goes.1.trans obtained
  · exact fun many bytes stored => (uid bytes stored).elim (inv.uid many bytes) fun own => own
  · exact fun r present => .inl (ready r ▸ present)
  · exact fun bytes obtained => inv.ids rank inside bytes (goes.1.symm.trans obtained)

theorem polling_inv {polls : Nat} (stands : (s.ranks rank).phase = .polling polls)
    (replied : (if fault = .none then some (.bulk (found s.store ncclUidKey)) else none) = reply) :
    Inv worldSize (s.put rank ((s.ranks rank).answered rank reply)) := by
  have ok := inv.phases rank inside
  rw [PhaseOk, stands] at ok
  have many : 1 < worldSize := by omega
  simp only [Rank.answered, stands]
  split
  · -- The identifier is found: it is the one of this group.
    rename_i bytes
    have stored := read_eq replied
    have own := inv.uid many bytes stored
    apply inv.put _ inv.uid (fun _ present => .inl present)
    · intro other obtained
      cases obtained
      exact own
    · exact Option.some_ne_none _
    · intro other obtained
      obtain ⟨id, generated, rfl⟩ := own
      obtain ⟨id', generated', rfl⟩ := inv.ids rank inside other obtained
      cases generated.symm.trans generated'
      rfl
  · split
    · exact inv.move inside ok
    · exact inv.move inside trivial
  · exact inv.move inside trivial

theorem readying_inv (stands : (s.ranks rank).phase = .readying)
    (attempted : attempt fault (.setEx (ncclReadyKey rank) (utf8 "1") ncclUidTtl) s.store =
      (store, reply)) :
    Inv worldSize { s.put rank ((s.ranks rank).answered rank reply) with store } := by
  have ok := inv.phases rank inside
  rw [PhaseOk, stands] at ok
  have uid : store ncclUidKey = s.store ncclUidKey := by
    have kept := attempt_setEx_frame fault (ncclReadyKey rank) (utf8 "1") ncclUidTtl s.store
      (ncclReadyKey_ne_uidKey rank).symm
    rwa [attempted] at kept
  have ready : ∀ r, store (ncclReadyKey r) ≠ none →
      s.store (ncclReadyKey r) ≠ none ∨ r = rank := by
    intro r present
    by_cases own : r = rank
    · exact .inr own
    · left
      have kept := attempt_setEx_frame fault (ncclReadyKey rank) (utf8 "1") ncclUidTtl s.store
        (fun same => own (ncclReadyKey_injective same))
      rw [attempted] at kept
      rwa [← kept]
  have goes : ((s.ranks rank).answered rank reply).idBytes = (s.ranks rank).idBytes ∧
      PhaseOk worldSize s rank ((s.ranks rank).answered rank reply) := by
    simp only [Rank.answered, stands]
    split
    · refine ⟨rfl, ok, Nat.zero_le _, Nat.le_refl _, fun _ r impossible => ?_⟩
      exact absurd impossible (Nat.not_lt_zero r)
    · exact ⟨rfl, trivial⟩
  apply inv.put _ _ _ _ goes.2
  · exact fun _ obtained => goes.1.trans obtained
  · intro many bytes stored
    rw [found, uid] at stored
    exact inv.uid many bytes stored
  · exact fun r present => (ready r present).imp_right fun own => ⟨own, goes.1 ▸ ok⟩
  · exact fun bytes obtained => inv.ids rank inside bytes (goes.1.symm.trans obtained)

/-- A counting rank counts only ranks that have the identifier. -/
theorem counting_inv {passes r ready : Nat} (stands : (s.ranks rank).phase = .counting passes r ready)
    (below : r < worldSize)
    (replied : (if fault = .none then some (.bulk (found s.store (ncclReadyKey r))) else none) = reply) :
    Inv worldSize (s.put rank ((s.ranks rank).answered rank reply)) := by
  have ok := inv.phases rank inside
  rw [PhaseOk, stands] at ok
  obtain ⟨obtained, bound, counted, all⟩ := ok
  simp only [Rank.answered, stands]
  split
  · split
    · -- Rank `r` has announced itself, so it has the identifier.
      apply inv.move inside
      refine ⟨obtained, below, by omega, fun same r' before => ?_⟩
      rcases Nat.lt_succ_iff_lt_or_eq.mp before with earlier | rfl
      · exact all (by omega) r' earlier
      · have present : s.store (ncclReadyKey r') ≠ none := by
          intro absent
          have stored := read_eq replied
          rw [found, absent] at stored
          cases stored
        rcases Nat.eq_zero_or_pos r' with rfl | positive
        · obtain ⟨bytes, mine⟩ := Option.ne_none_iff_exists'.mp obtained
          obtain ⟨id, generated, -⟩ := inv.ids rank inside bytes mine
          rw [inv.first id generated]
          exact Option.some_ne_none _
        · exact inv.ready r' below positive present
    · exact inv.move inside trivial
  · exact inv.move inside ⟨obtained, below, by omega, fun same => by omega⟩
  · exact inv.move inside trivial

end operations

/-- One Redis command of a rank. -/
theorem operate_inv (inv : Inv worldSize s) {rank : Nat} (inside : rank < worldSize)
    {command : Command} (issued : (s.ranks rank).command rank worldSize = some command)
    {fault : Fault} {store : Store} {reply : Option Reply}
    (attempted : attempt fault command s.store = (store, reply)) :
    Inv worldSize { s.put rank ((s.ranks rank).answered rank reply) with store } := by
  cases stands : (s.ranks rank).phase with
  | generating | returned =>
    simp only [Rank.command, stands] at issued
    cases issued
  | storing id =>
    simp only [Rank.command, stands] at issued
    cases issued
    exact storing_inv inv inside stands attempted
  | polling attempt =>
    simp only [Rank.command, stands] at issued
    cases issued
    rw [attempt_get] at attempted
    cases attempted
    exact polling_inv inv inside stands rfl
  | readying =>
    simp only [Rank.command, stands] at issued
    cases issued
    exact readying_inv inv inside stands attempted
  | counting attempt r ready =>
    simp only [Rank.command, stands] at issued
    split at issued
    · rename_i below
      cases issued
      rw [attempt_get] at attempted
      cases attempted
      exact counting_inv inv inside stands below rfl
    · cases issued

/-- Rank 0 generates the identifier: until then nobody has one, and none is stored. -/
theorem generate_inv (inv : Inv worldSize s) (some_rank : 0 < worldSize)
    (stands : (s.ranks 0).phase = .generating) (id : Except String NcclId) :
    Inv worldSize { s.put 0 (Rank.generated id) with generated := id.toOption } := by
  have ok := inv.phases 0 some_rank
  rw [PhaseOk, stands] at ok
  -- With no identifier generated, no rank can have one.
  have nobody : ∀ bytes, ¬ Own s bytes := by
    rintro bytes ⟨other, generated, -⟩
    cases ok.2.symm.trans generated
  have nothing : ∀ r < worldSize, (s.ranks r).idBytes = none := by
    intro r inside
    cases obtained : (s.ranks r).idBytes with
    | none => rfl
    | some bytes => exact absurd (inv.ids r inside bytes obtained) (nobody bytes)
  constructor
  · exact fun many bytes stored => absurd (inv.uid many bytes stored) (nobody bytes)
  · intro r inside positive present
    exact absurd (nothing r inside) (inv.ready r inside positive present)
  · intro own generated
    change (Function.update s.ranks 0 (Rank.generated id) 0).idBytes = some own.bytes
    rw [Function.update_self]
    cases id with
    | error => cases generated
    | ok id =>
      cases generated
      rfl
  · intro r inside bytes obtained
    change (Function.update s.ranks 0 (Rank.generated id) r).idBytes = some bytes at obtained
    by_cases zero : r = 0
    · subst zero
      rw [Function.update_self] at obtained
      cases id with
      | error => cases obtained
      | ok id =>
        cases obtained
        exact ⟨id, rfl, rfl⟩
    · rw [Function.update_of_ne zero, nothing r inside] at obtained
      cases obtained
  · intro r inside
    change PhaseOk worldSize _ r (Function.update s.ranks 0 (Rank.generated id) r)
    by_cases zero : r = 0
    · subst zero
      rw [Function.update_self]
      cases id with
      | error => trivial
      | ok id => exact ⟨rfl, rfl⟩
    · -- A rank without an identifier polls, or it has failed.
      rw [Function.update_of_ne zero]
      have before := inv.phases r inside
      have none_yet := nothing r inside
      unfold PhaseOk at before ⊢
      split at before
      · exact absurd before.1 zero
      · exact before
      · exact absurd (none_yet.symm.trans before.2) (Option.some_ne_none _).symm
      · exact absurd none_yet before
      · exact absurd none_yet before.1
      · exact absurd (none_yet.symm.trans before.1) (Option.some_ne_none _).symm
      · trivial

theorem finish_cases {self : Rank} {bytes : Bytes} (obtained : self.idBytes = some bytes) :
    (∃ id : NcclId, id.bytes = bytes ∧ self.finish = { self with phase := .returned (.ok id) }) ∨
      ∃ message, self.finish = self.fail message := by
  simp only [Rank.finish]
  split
  · rename_i size
    refine .inl ⟨⟨_, size⟩, ?_, rfl⟩
    simp only [obtained, Option.getD_some]
  · exact .inr ⟨_, rfl⟩

/-- A pass ends: all have been counted, or the rank goes on counting, or gives up. -/
theorem endPass_inv (inv : Inv worldSize s) {rank : Nat} (inside : rank < worldSize) {self : Rank}
    (ended : (s.ranks rank).endPass rank worldSize = some self) :
    Inv worldSize (s.put rank self) := by
  have ok := inv.phases rank inside
  unfold Rank.endPass at ended
  split at ended
  · rename_i attempt r ready stands
    rw [PhaseOk, stands] at ok
    obtain ⟨obtained, bound, counted, all⟩ := ok
    split at ended
    · cases ended
    rename_i past
    split at ended
    · rename_i complete
      cases ended
      -- The count is full, so every announcement was found.
      have everyone : ∀ r < worldSize, (s.ranks r).idBytes ≠ none := by
        intro r' below
        exact all (by omega) r' (by omega)
      obtain ⟨bytes, mine⟩ := Option.ne_none_iff_exists'.mp obtained
      rcases finish_cases mine with ⟨id, rfl, same⟩ | ⟨message, same⟩ <;> rw [same]
      · have ok : PhaseOk worldSize s rank { s.ranks rank with phase := .returned (.ok id) } :=
          ⟨mine, everyone⟩
        exact inv.move inside ok
      · exact inv.move inside trivial
    split at ended
    · cases ended
      exact inv.move inside trivial
    · cases ended
      apply inv.move inside
      refine ⟨obtained, Nat.zero_le _, Nat.le_refl _, fun _ r impossible => ?_⟩
      exact absurd impossible (Nat.not_lt_zero r)
  · cases ended

theorem step_inv (action : Action) (s next : State) (inv : Inv worldSize s)
    (applied : step worldSize action s = some next) : Inv worldSize next := by
  cases action with
  | generate id =>
    simp only [step] at applied
    split at applied
    · rename_i stands
      split at applied
      · rename_i some_rank
        cases applied
        exact generate_inv inv some_rank stands id
      · cases applied
    · cases applied
  | operate rank fault =>
    simp only [step] at applied
    split at applied
    · rename_i inside
      split at applied
      · rename_i command issued
        cases applied
        exact operate_inv inv inside issued rfl
      · cases applied
    · cases applied
  | endPass rank =>
    simp only [step] at applied
    split at applied
    · rename_i inside
      obtain ⟨self, ended, rfl⟩ := Option.map_eq_some_iff.mp applied
      exact endPass_inv inv inside ended
    · cases applied
  | elapse seconds =>
    cases applied
    refine ⟨?_, ?_, inv.first, inv.ids, fun r inside => (inv.phases r inside).mono (fun _ kept => kept) rfl⟩
    · exact fun many bytes stored => inv.uid many bytes (Jobs.found_of_expire stored)
    · intro r inside positive present
      apply inv.ready r inside positive
      exact fun absent => present (Jobs.expire_eq_none absent seconds)

/-- Whatever the ranks and Redis do: on a clean store the rendezvous is safe. -/
theorem safe_of_clean {leftover : Store} (clean : Clean worldSize leftover) :
    Safe worldSize leftover := by
  intro actions s ran
  have inv := run_invariant step_inv (start_inv clean) ran
  exact inv.sound

/-- A group leaves behind what it found and what it wrote, until it expires. -/
theorem step_leftover (action : Action) (s next : State) (left : Leftover s.store)
    (applied : step worldSize action s = some next) : Leftover next.store := by
  cases action with
  | generate id =>
    simp only [step] at applied
    split at applied
    · split at applied
      · cases applied
        exact left
      · cases applied
    · cases applied
  | operate rank fault =>
    simp only [step] at applied
    split at applied
    · split at applied
      · rename_i command issued
        cases applied
        apply Jobs.All_attempt left fault
        intro value written
        unfold Rank.command at issued
        split at issued
        · cases issued
          cases written
          rename_i id _
          exact ⟨fun _ => id.size, fun r same => absurd same.symm (ncclReadyKey_ne_uidKey r)⟩
        · cases issued
          cases written
        · cases issued
          cases written
          exact ⟨fun same => absurd same (ncclReadyKey_ne_uidKey rank), fun _ _ => rfl⟩
        · split at issued
          · cases issued
            cases written
          · cases issued
        · cases issued
        · cases issued
      · cases applied
    · cases applied
  | endPass rank =>
    simp only [step] at applied
    split at applied
    · obtain ⟨self, -, rfl⟩ := Option.map_eq_some_iff.mp applied
      exact left
    · cases applied
  | elapse seconds =>
    cases applied
    exact Jobs.All_expire left seconds

-- The other direction: a run that goes wrong, for every number of ranks. All ranks
-- but one join in turn, and then rank 0 counts.
/-- A command that is executed and answered. -/
theorem reach_operate {rank : Nat} (inside : rank < worldSize) {self later : Rank}
    {command : Command} {store : Store} {reply : Reply} (at_rank : s.ranks rank = self)
    (issued : self.command rank worldSize = some command)
    (executed : command.exec s.store = (store, reply))
    (goes : self.answered rank (some reply) = later) :
    Reachable (step worldSize) s ⟨store, Function.update s.ranks rank later, s.generated⟩ := by
  subst at_rank goes
  refine ⟨[.operate rank .none], ?_⟩
  simp only [run, step, if_pos inside, issued, attempt, executed, Option.bind_some, State.put]

/-- The entry that a rank stores. -/
def entryOf (value : Bytes) : Entry := ⟨value, some ncclUidTtl⟩

theorem exec_setEx_uidTtl (key : String) (value : Bytes) (store : Store) :
    Command.exec store (.setEx key value ncclUidTtl) =
      (Function.update store key (some (entryOf value)), .ok) := by
  rw [Command.exec, if_neg (by decide), entryOf]

/-- A rank that finds an identifier takes it and announces itself. -/
theorem reach_join {rank : Nat} (inside : rank < worldSize) (positive : rank ≠ 0) {bytes : Bytes}
    (waits : s.ranks rank = Rank.start rank) (stored : found s.store ncclUidKey = some bytes) :
    Reachable (step worldSize) s
      ⟨Function.update s.store (ncclReadyKey rank) (some (entryOf (utf8 "1"))),
        Function.update s.ranks rank ⟨some bytes, .counting 0 0 0⟩, s.generated⟩ := by
  rw [Rank.start, if_neg positive] at waits
  have polled : Reachable (step worldSize) s
      ⟨s.store, Function.update s.ranks rank ⟨some bytes, .readying⟩, s.generated⟩ :=
    reach_operate inside waits rfl (congrArg (fun value => (s.store, Reply.bulk value)) stored) rfl
  have announced := reach_operate
    (s := ⟨s.store, Function.update s.ranks rank ⟨some bytes, .readying⟩, s.generated⟩) inside
    (Function.update_self rank ⟨some bytes, .readying⟩ s.ranks) rfl (exec_setEx_uidTtl _ _ _) rfl
  rw [Function.update_idem] at announced
  exact polled.trans announced

/-- Rank 0 has generated an identifier, stored it and announced itself. -/
def State.published (s : State) (id : NcclId) : State where
  store := Function.update (Function.update s.store ncclUidKey (some (entryOf id.bytes)))
    (ncclReadyKey 0) (some (entryOf (utf8 "1")))
  ranks := Function.update s.ranks 0 ⟨some id.bytes, .counting 0 0 0⟩
  generated := some id

theorem reach_publish (some_rank : 0 < worldSize) (waits : s.ranks 0 = Rank.start 0) (id : NcclId) :
    Reachable (step worldSize) s (s.published id) := by
  have generated : Reachable (step worldSize) s
      ⟨s.store, Function.update s.ranks 0 ⟨some id.bytes, .storing id⟩, some id⟩ := by
    refine ⟨[.generate (.ok id)], ?_⟩
    have phase : (s.ranks 0).phase = .generating := by rw [waits]; rfl
    simp only [run, step, phase, if_pos some_rank, Option.bind_some]
    rfl
  have stored := reach_operate
    (s := ⟨s.store, Function.update s.ranks 0 ⟨some id.bytes, .storing id⟩, some id⟩) some_rank
    (Function.update_self 0 ⟨some id.bytes, .storing id⟩ s.ranks) rfl (exec_setEx_uidTtl _ _ _) rfl
  rw [Function.update_idem] at stored
  have announced := reach_operate
    (s := ⟨Function.update s.store ncclUidKey (some (entryOf id.bytes)),
      Function.update s.ranks 0 ⟨some id.bytes, .readying⟩, some id⟩) some_rank
    (Function.update_self 0 ⟨some id.bytes, .readying⟩ s.ranks) rfl (exec_setEx_uidTtl _ _ _) rfl
  rw [Function.update_idem] at announced
  exact (generated.trans stored).trans announced

theorem found_update_self (store : Store) (key : String) (value : Bytes) :
    found (Function.update store key (some (entryOf value))) key = some value := by
  rw [found, Function.update_self, entryOf, Option.map_some]

theorem found_update_of_ne (store : Store) {key other : String} (value : Bytes)
    (apart : other ≠ key) :
    found (Function.update store key (some (entryOf value))) other = found store other := by
  rw [found, Function.update_of_ne apart, found]

/-- Rank 0 has published its identifier and is about to count, all ranks below
`k` have announced themselves, and the others wait; only rank `late` is left out,
although its announcement is there. -/
structure Joined (late : Nat) (id : NcclId) (idle : Rank) (k : Nat) (s : State) : Prop where
  first : s.ranks 0 = ⟨some id.bytes, .counting 0 0 0⟩
  behind : s.ranks late = idle
  generated : s.generated = some id
  uid : found s.store ncclUidKey = some id.bytes
  ready : ∀ r, r < k ∨ r = 0 ∨ r = late → found s.store (ncclReadyKey r) = some (utf8 "1")
  waiting : ∀ r, k ≤ r → r ≠ 0 → r ≠ late → s.ranks r = Rank.start r

section early
variable {late k : Nat} {id : NcclId} {idle : Rank}

theorem Joined.one_more (joined : Joined late id idle k s) (inside : k < worldSize) :
    ∃ next, Reachable (step worldSize) s next ∧ Joined late id idle (k + 1) next := by
  -- Rank 0 and the late rank have their announcements there already.
  by_cases already : k = 0 ∨ k = late
  · refine ⟨s, reachable_refl s, { joined with ready := ?_, waiting := ?_ }⟩
    · rintro r (below | same)
      · rcases Nat.lt_succ_iff_lt_or_eq.mp below with before | rfl
        · exact joined.ready r (.inl before)
        · exact joined.ready r (.inr already)
      · exact joined.ready r (.inr same)
    · exact fun r above => joined.waiting r (Nat.le_of_succ_le above)
  · obtain ⟨positive, apart⟩ := not_or.mp already
    refine ⟨_, reach_join inside positive (joined.waiting k (Nat.le_refl k) positive apart) joined.uid, ?_⟩
    constructor
    · exact (Function.update_of_ne (Ne.symm positive) _ _).trans joined.first
    · exact (Function.update_of_ne (Ne.symm apart) _ _).trans joined.behind
    · exact joined.generated
    · rw [found_update_of_ne _ _ (ncclReadyKey_ne_uidKey k).symm]
      exact joined.uid
    · intro r known
      by_cases own : r = k
      · rw [own]
        exact found_update_self _ _ _
      · rw [found_update_of_ne _ _ (fun same => own (ncclReadyKey_injective same))]
        exact joined.ready r (known.imp_left fun below => by omega)
    · intro r above nonzero other
      exact (Function.update_of_ne (by omega) _ _).trans
        (joined.waiting r (Nat.le_of_succ_le above) nonzero other)

theorem Joined.all (joined : Joined late id idle 0 s) (inside : k ≤ worldSize) :
    ∃ next, Reachable (step worldSize) s next ∧ Joined late id idle k next := by
  induction k with
  | zero => exact ⟨s, reachable_refl s, joined⟩
  | succ k ih =>
    obtain ⟨middle, reached, soFar⟩ := ih (Nat.le_of_succ_le inside)
    obtain ⟨next, onward, further⟩ := soFar.one_more inside
    exact ⟨next, reached.trans onward, further⟩

/-- With every announcement there, a rank counts them all, -/
theorem reach_count {rank : Nat} (inside : rank < worldSize) {idBytes : Option Bytes}
    (flags : ∀ r < worldSize, found s.store (ncclReadyKey r) = some (utf8 "1"))
    (counts : s.ranks rank = ⟨idBytes, .counting 0 0 0⟩) (below : k ≤ worldSize) :
    Reachable (step worldSize) s
      ⟨s.store, Function.update s.ranks rank ⟨idBytes, .counting 0 k k⟩, s.generated⟩ := by
  induction k with
  | zero =>
    rw [← counts, Function.update_eq_self]
    exact reachable_refl s
  | succ k ih =>
    have issued : Rank.command rank worldSize ⟨idBytes, .counting 0 k k⟩ =
        some (.get (ncclReadyKey k)) := if_pos below
    have counted : Rank.answered rank ⟨idBytes, .counting 0 k k⟩ (some (.bulk (some (utf8 "1")))) =
        ⟨idBytes, .counting 0 (k + 1) (k + 1)⟩ := by
      simp only [Rank.answered, fromUtf8?_utf8, Option.isSome_some, if_true]
    have onward := reach_operate
      (s := ⟨s.store, Function.update s.ranks rank ⟨idBytes, .counting 0 k k⟩, s.generated⟩) inside
      (Function.update_self rank ⟨idBytes, .counting 0 k k⟩ s.ranks) issued
      (congrArg (fun value => (s.store, Reply.bulk value)) (flags k below)) counted
    rw [Function.update_idem] at onward
    exact (ih (Nat.le_of_succ_le below)).trans onward

/-- and returns its identifier. -/
theorem reach_return {rank : Nat} (inside : rank < worldSize)
    (flags : ∀ r < worldSize, found s.store (ncclReadyKey r) = some (utf8 "1"))
    (counts : s.ranks rank = ⟨some id.bytes, .counting 0 0 0⟩) :
    Reachable (step worldSize) s
      ⟨s.store, Function.update s.ranks rank ⟨some id.bytes, .returned (.ok id)⟩, s.generated⟩ := by
  apply (reach_count inside flags counts (Nat.le_refl worldSize)).trans
  refine ⟨[.endPass rank], ?_⟩
  have ended : Rank.endPass rank worldSize ⟨some id.bytes, .counting 0 worldSize worldSize⟩ =
      some ⟨some id.bytes, .returned (.ok id)⟩ := by
    simp [Rank.endPass, Rank.finish, id.size]
  simp only [run, step, if_pos inside, Function.update_self, ended, Option.map_some,
    Option.bind_some, State.put, Function.update_idem]

theorem joined_published (positive : late ≠ 0)
    (waiting : ∀ r, r ≠ late → s.ranks r = Rank.start r)
    (present : found s.store (ncclReadyKey late) = some (utf8 "1")) :
    Joined late id (s.ranks late) 0 (s.published id) where
  first := by simp only [State.published, Function.update_self]
  behind := Function.update_of_ne positive _ _
  generated := rfl
  uid := (found_update_of_ne _ _ (ncclReadyKey_ne_uidKey 0).symm).trans (found_update_self _ _ _)
  ready r known := by
    by_cases zero : r = 0
    · subst zero
      exact found_update_self _ _ _
    · obtain rfl : r = late := by omega
      have apart := fun same => zero (ncclReadyKey_injective same)
      rw [State.published, found_update_of_ne _ _ apart,
        found_update_of_ne _ _ (ncclReadyKey_ne_uidKey r)]
      exact present
  waiting r _ nonzero other := (Function.update_of_ne nonzero _ _).trans (waiting r other)

variable (id) in
/-- When the announcement of a rank is there that does not have the identifier,
rank 0 returns without it. -/
theorem unsafe_of_behind {leftover : Store} (reached : Reachable (step worldSize) (start leftover) s)
    (inside : late < worldSize) (positive : late ≠ 0)
    (waiting : ∀ r, r ≠ late → s.ranks r = Rank.start r)
    (present : found s.store (ncclReadyKey late) = some (utf8 "1"))
    (lacks : (s.ranks late).idBytes ≠ some id.bytes) : ¬ Safe worldSize leftover := by
  intro safe
  have some_rank : 0 < worldSize := by omega
  have published := reach_publish some_rank (waiting 0 positive.symm) id
  have joined : Joined late id (s.ranks late) 0 (s.published id) :=
    joined_published positive waiting present
  obtain ⟨middle, onward, all⟩ := joined.all (Nat.le_refl worldSize)
  have flags : ∀ r < worldSize, found middle.store (ncclReadyKey r) = some (utf8 "1") :=
    fun r below => all.ready r (.inl below)
  have returned := reach_return some_rank flags all.first
  obtain ⟨actions, ran⟩ := reached.trans (published.trans (onward.trans returned))
  -- Rank 0 has returned, but the late rank does not have its identifier.
  obtain ⟨own, generated, everyone⟩ := (safe actions _ ran).2 0 some_rank id
    (by simp only [Function.update_self])
  cases generated.symm.trans all.generated
  have mine := everyone late inside
  simp only [Function.update_of_ne positive, all.behind] at mine
  exact lacks mine

end early

/-- An identifier with the same byte everywhere. -/
def idOfByte (byte : UInt8) : NcclId := ⟨List.replicate 128 byte, List.length_replicate⟩

theorem exists_other_id (bytes : Bytes) : ∃ id : NcclId, bytes ≠ id.bytes := by
  by_cases zeros : bytes = (idOfByte 0).bytes
  · refine ⟨idOfByte 1, fun ones => ?_⟩
    exact absurd (zeros.symm.trans ones) (by decide)
  · exact ⟨_, zeros⟩

/-- The rendezvous of a group, with any number of ranks and whatever was left
behind: all its runs are safe exactly when no leftover can be mistaken. -/
theorem rendezvous_iff (worldSize : Nat) {leftover : Store} (left : Leftover leftover) :
    Safe worldSize leftover ↔ Clean worldSize leftover := by
  constructor
  · intro safe many
    constructor
    · -- Rank 1 takes the identifier that was left behind.
      by_contra stale
      obtain ⟨entry, present⟩ := Option.ne_none_iff_exists'.mp stale
      -- What was left behind need not be known: some identifier differs from it.
      obtain ⟨id, apart⟩ := exists_other_id entry.value
      have stored : found leftover ncclUidKey = some entry.value := by
        rw [found, present, Option.map_some]
      have joined := reach_join (s := start leftover) many Nat.one_ne_zero rfl stored
      apply unsafe_of_behind id joined many Nat.one_ne_zero _ _ _ safe
      · exact fun r other => Function.update_of_ne other _ _
      · exact found_update_self _ _ _
      · simp only [Function.update_self]
        exact fun same => apart (Option.some.inj same)
    · -- Rank 0 takes rank `r` for ready, which has not begun.
      intro r inside positive
      by_contra stale
      obtain ⟨entry, present⟩ := Option.ne_none_iff_exists'.mp stale
      have flag : found leftover (ncclReadyKey r) = some (utf8 "1") := by
        rw [found, present, Option.map_some, (left _ entry present).2 r rfl]
      apply unsafe_of_behind (idOfByte 0) (reachable_refl (start leftover)) inside
        (Nat.ne_of_gt positive) (fun _ _ => rfl) flag _ safe
      exact (Option.some_ne_none _).symm
  · exact safe_of_clean

theorem empty_leftover : Leftover .empty := by
  intro key entry present
  cases present

theorem rendezvous_on_empty : Safe 4 .empty := by
  apply (rendezvous_iff 4 empty_leftover).mpr
  exact fun _ => ⟨rfl, fun _ _ _ => rfl⟩

/-- A group of two ranks, one after the other. -/
def groupOfTwo : List Action :=
  [.generate (.ok (idOfByte 0)), .operate 0 .none, .operate 0 .none, .operate 1 .none,
    .operate 1 .none, .operate 0 .none, .operate 0 .none, .endPass 0, .operate 1 .none,
    .operate 1 .none, .endPass 1]

/-- The group is killed and started again, and now rank 1 is first. -/
def restartedGroup : List Action :=
  [.operate 1 .none, .operate 1 .none, .operate 1 .none, .operate 1 .none, .endPass 1,
    .generate (.ok (idOfByte 1)), .operate 0 .none, .operate 0 .none, .operate 0 .none,
    .operate 0 .none, .endPass 0]

/-- How the ranks of the second group return. -/
def outcomesOfRestart : Option (RankPhase × RankPhase) :=
  (run (step 2) groupOfTwo (start .empty)).bind fun s =>
    (run (step 2) restartedGroup (start s.store)).map fun t => ((t.ranks 0).phase, (t.ranks 1).phase)

theorem outcomesOfRestart_eq : outcomesOfRestart =
    some (.returned (.ok (idOfByte 1)), .returned (.ok (idOfByte 0))) := by
  decide +kernel

/-- After a restart the two ranks return with different identifiers. -/
theorem restarted_group_split :
    ¬ ∀ (worldSize : Nat) (leftover : Store), Leftover leftover → Safe worldSize leftover := by
  intro safe
  obtain ⟨s, ranFirst, rest⟩ := Option.bind_eq_some_iff.mp outcomesOfRestart_eq
  obtain ⟨t, ranSecond, outcomes⟩ := Option.map_eq_some_iff.mp rest
  obtain ⟨zero, one⟩ := Prod.mk.inj outcomes
  have left : Leftover s.store := run_invariant step_leftover empty_leftover ranFirst
  have agreement := (safe 2 s.store left restartedGroup t ranSecond).1
  have same := (agreement 0 (by decide) 1 (by decide) _ _ zero one).1
  exact absurd same (by decide)

end DistributedSoftmax.System.Rendezvous
