import Mathlib.Data.List.Perm.Basic
import DistributedSoftmax.Foundations.Transition

/-! A loop that takes items off a channel in their order and starts a task for
each of them, with a semaphore that bounds the tasks under way. -/

set_option autoImplicit false

namespace Foundations.TaskPool
open Foundations.Transition

/-- The elements after the one at index `i` went on or ended. -/
def settle {α : Type} (xs : List α) (i : Nat) : Option α → List α
  | some next => xs.set i next
  | none => xs.eraseIdx i

section settle
variable {α : Type} {xs : List α} {i : Nat} {x : α}

theorem perm_eraseIdx (at_i : xs[i]? = some x) : xs.Perm (x :: xs.eraseIdx i) := by
  induction xs generalizing i with
  | nil => cases at_i
  | cons y rest ih =>
    cases i with
    | zero =>
      cases at_i
      exact .refl _
    | succ i => exact ((ih at_i).cons y).trans (.swap x y _)

theorem perm_settle (at_i : xs[i]? = some x) (left : Option α) :
    (settle xs i left).Perm (left.toList ++ xs.eraseIdx i) := by
  cases left with
  | none => exact .refl _
  | some next =>
    have index := (List.getElem?_eq_some_iff.mp at_i).1
    have erased := perm_eraseIdx (List.getElem?_set_self index (a := next))
    rwa [List.eraseIdx_set_eq] at erased

end settle

/-- Where the loop stands. -/
inductive Loop (Item : Type) where
  | receiving
  /-- It took an item and waits for a permit. -/
  | acquiring (item : Item)
  /-- The channel was closed and is empty. -/
  | left
  deriving DecidableEq, Repr

/-- The item that the loop holds. -/
def Loop.held {Item : Type} : Loop Item → List Item
  | .acquiring item => [item]
  | .receiving | .left => []

/-- The tasks that run have the permits that are not free. -/
structure Pool (Item Stage : Type) where
  limit : Nat
  channel : List Item
  closed : Bool
  loop : Loop Item
  running : List (Item × Stage)
  permits : Nat
  balanced : permits + running.length = limit

inductive Event (Item Stage : Type) where
  | arrive (item : Item)
  | close
  | take
  | start
  /-- Task `t` goes on, or ends. -/
  | settle (t : Nat) (left : Option Stage)
  deriving DecidableEq, Repr

variable {Item Stage : Type}

namespace Pool

def fresh (limit : Nat) : Pool Item Stage := ⟨limit, [], false, .receiving, [], limit, rfl⟩

/-- The items that were not started yet, in their order. -/
def waiting (pool : Pool Item Stage) : List Item := pool.loop.held ++ pool.channel

def arrive (item : Item) (pool : Pool Item Stage) : Option (Pool Item Stage) :=
  if pool.closed then none else some { pool with channel := pool.channel ++ [item] }

def close (pool : Pool Item Stage) : Option (Pool Item Stage) :=
  if pool.closed then none else some { pool with closed := true }

def take (pool : Pool Item Stage) : Option (Pool Item Stage) :=
  match pool.loop, pool.channel with
  | .receiving, item :: rest => some { pool with channel := rest, loop := .acquiring item }
  | .receiving, [] => if pool.closed then some { pool with loop := .left } else none
  | _, _ => none

def start (begin : Stage) (pool : Pool Item Stage) : Option (Pool Item Stage) :=
  match pool.loop with
  | .acquiring item =>
      if free : 0 < pool.permits then some { pool with
        loop := .receiving
        running := pool.running ++ [(item, begin)]
        permits := pool.permits - 1
        balanced := by
          have balanced := pool.balanced
          rw [List.length_append, List.length_singleton]
          omega }
      else none
  | _ => none

def settle (t : Nat) (left : Option Stage) (pool : Pool Item Stage) : Option (Pool Item Stage) :=
  match at_t : pool.running[t]?, left with
  | some (item, _), some stage => some { pool with
      running := pool.running.set t (item, stage)
      balanced := by rw [List.length_set]; exact pool.balanced }
  | some _, none => some { pool with
      running := pool.running.eraseIdx t
      permits := pool.permits + 1
      balanced := by
        have balanced := pool.balanced
        have index := (List.getElem?_eq_some_iff.mp at_t).1
        rw [List.length_eraseIdx_of_lt index]
        omega }
  | none, _ => none

def step (begin : Stage) : Event Item Stage → Pool Item Stage → Option (Pool Item Stage)
  | .arrive item => arrive item
  | .close => close
  | .take => take
  | .start => start begin
  | .settle t left => settle t left

variable {begin : Stage} {pool next : Pool Item Stage}

theorem running_le (pool : Pool Item Stage) : pool.running.length ≤ pool.limit := by
  have balanced := pool.balanced
  omega

theorem arrive_eq_some {item : Item} : pool.arrive item = some next ↔
    pool.closed = false ∧ next = { pool with channel := pool.channel ++ [item] } := by
  unfold arrive
  cases pool.closed <;> simp [eq_comm]

theorem close_eq_some : pool.close = some next ↔
    pool.closed = false ∧ next = { pool with closed := true } := by
  unfold close
  cases pool.closed <;> simp [eq_comm]

theorem take_cases (applied : pool.take = some next) :
    (∃ item rest, pool.loop = .receiving ∧ pool.channel = item :: rest ∧
      next = { pool with channel := rest, loop := .acquiring item }) ∨
    (pool.loop = .receiving ∧ pool.channel = [] ∧ pool.closed = true ∧
      next = { pool with loop := .left }) := by
  unfold take at applied
  split at applied
  · rename_i item rest receiving channel
    cases applied
    exact .inl ⟨item, rest, receiving, channel, rfl⟩
  · rename_i receiving channel
    split at applied
    · rename_i closed
      cases applied
      exact .inr ⟨receiving, channel, closed, rfl⟩
    · cases applied
  · cases applied

/-- What the start of a task leaves. -/
theorem start_cases (applied : pool.start begin = some next) :
    ∃ item, pool.loop = .acquiring item ∧ 0 < pool.permits ∧ next.limit = pool.limit ∧
      next.channel = pool.channel ∧ next.closed = pool.closed ∧ next.loop = .receiving ∧
      next.running = pool.running ++ [(item, begin)] := by
  unfold start at applied
  split at applied
  · rename_i item acquiring
    split at applied
    · rename_i free
      cases applied
      exact ⟨item, acquiring, free, rfl, rfl, rfl, rfl, rfl⟩
    · cases applied
  · cases applied

theorem start_isSome {item : Item} (acquiring : pool.loop = .acquiring item)
    (free : 0 < pool.permits) : (pool.start begin).isSome := by
  unfold start
  split
  · rw [dif_pos free]
    rfl
  · rename_i other
    exact absurd acquiring (other item)

theorem settle_cases {t : Nat} {left : Option Stage} (applied : pool.settle t left = some next) :
    ∃ item stage, pool.running[t]? = some (item, stage) ∧ next.limit = pool.limit ∧
      next.channel = pool.channel ∧ next.closed = pool.closed ∧ next.loop = pool.loop ∧
      next.running = Foundations.TaskPool.settle pool.running t (left.map fun stage => (item, stage)) := by
  unfold settle at applied
  split at applied
  · rename_i item stage _ at_t
    cases applied
    exact ⟨item, stage, at_t, rfl, rfl, rfl, rfl, rfl⟩
  · rename_i entry at_t
    cases applied
    exact ⟨entry.1, entry.2, at_t, rfl, rfl, rfl, rfl, rfl⟩
  · cases applied

theorem settle_isSome {t : Nat} {entry : Item × Stage} (at_t : pool.running[t]? = some entry)
    (left : Option Stage) : (pool.settle t left).isSome := by
  unfold settle
  split
  · rfl
  · rfl
  · rename_i missing
    cases at_t.symm.trans missing

end Pool

/-- The items of the arrivals. -/
def arrivals (events : List (Event Item Stage)) : List Item :=
  events.filterMap fun
    | .arrive item => some item
    | _ => none

/-- How many tasks ended. -/
def ended (events : List (Event Item Stage)) : Nat :=
  events.countP fun
    | .settle _ none => true
    | _ => false

theorem arrivals_cons (event : Event Item Stage) (rest : List (Event Item Stage)) :
    arrivals (event :: rest) = arrivals [event] ++ arrivals rest := by
  rw [arrivals, ← List.singleton_append, List.filterMap_append]
  rfl

theorem ended_cons (event : Event Item Stage) (rest : List (Event Item Stage)) :
    ended (event :: rest) = ended [event] + ended rest := by
  rw [ended, ← List.singleton_append, List.countP_append]
  rfl

/-- The account of a pool: the items in the order in which they were started,
and the items whose tasks have ended. -/
structure Account (pool : Pool Item Stage) (arrived started finished : List Item) : Prop where
  fifo : arrived = started ++ pool.waiting
  tasks : started.Perm (finished ++ pool.running.map Prod.fst)
  left : pool.loop = .left → pool.closed = true ∧ pool.channel = []

theorem fresh_account (limit : Nat) : Account (.fresh limit : Pool Item Stage) [] [] [] where
  fifo := rfl
  tasks := .refl _
  left impossible := nomatch impossible

section account
variable {begin : Stage} {pool next : Pool Item Stage} {arrived started finished : List Item}

theorem step_account (account : Account pool arrived started finished) {event : Event Item Stage}
    (applied : pool.step begin event = some next) :
    ∃ started' finished', Account next (arrived ++ arrivals [event]) started' finished' ∧
      finished'.length = finished.length + ended [event] := by
  cases event with
  | arrive item =>
    obtain ⟨open_, rfl⟩ := Pool.arrive_eq_some.mp applied
    refine ⟨started, finished, ⟨?_, account.tasks, ?_⟩, rfl⟩
    · rw [account.fifo, List.append_assoc]
      simp only [Pool.waiting, List.append_assoc]
      rfl
    · intro left
      have closed := (account.left left).1
      rw [open_] at closed
      cases closed
  | close =>
    obtain ⟨-, rfl⟩ := Pool.close_eq_some.mp applied
    refine ⟨started, finished, ⟨?_, account.tasks, fun left => ⟨rfl, (account.left left).2⟩⟩, rfl⟩
    exact (List.append_nil _).trans account.fifo
  | take =>
    refine ⟨started, finished, ?_, rfl⟩
    rw [show arrived ++ arrivals [(.take : Event Item Stage)] = arrived from List.append_nil _]
    rcases Pool.take_cases applied with ⟨item, rest, receiving, channel, rfl⟩ |
      ⟨receiving, channel, closed, rfl⟩
    · refine ⟨?_, account.tasks, fun impossible => nomatch impossible⟩
      rw [account.fifo]
      simp only [Pool.waiting, receiving, channel, Loop.held]
      rfl
    · refine ⟨?_, account.tasks, fun _ => ⟨closed, channel⟩⟩
      rw [account.fifo]
      simp only [Pool.waiting, receiving, Loop.held]
  | start =>
    obtain ⟨item, acquiring, -, -, channel, -, loop, running⟩ := Pool.start_cases applied
    refine ⟨started ++ [item], finished, ⟨?_, ?_, ?_⟩, rfl⟩
    · rw [show arrived ++ arrivals [(.start : Event Item Stage)] = arrived from List.append_nil _,
        account.fifo]
      simp only [Pool.waiting, acquiring, loop, channel, Loop.held, List.append_assoc,
        List.singleton_append, List.nil_append]
    · rw [running, List.map_append, ← List.append_assoc]
      exact account.tasks.append_right [item]
    · rw [loop]
      exact fun impossible => nomatch impossible
  | settle t left =>
    obtain ⟨item, stage, at_t, -, channel, closed, loop, running⟩ := Pool.settle_cases applied
    have waits : arrived ++ arrivals [(.settle t left : Event Item Stage)] = started ++ next.waiting := by
      rw [Pool.waiting, loop, channel]
      exact (List.append_nil _).trans account.fifo
    have leaves : next.loop = .left → next.closed = true ∧ next.channel = [] := by
      rw [loop, closed, channel]
      exact account.left
    have before := (perm_eraseIdx at_t).map Prod.fst
    cases left with
    | some goes =>
      have after := (perm_settle at_t (some (item, goes))).map Prod.fst
      refine ⟨started, finished, ⟨waits, ?_, leaves⟩, rfl⟩
      rw [running]
      exact account.tasks.trans ((before.trans after.symm).append_left finished)
    | none =>
      refine ⟨started, finished ++ [item], ⟨waits, ?_, leaves⟩, List.length_append⟩
      rw [running, List.append_assoc]
      exact account.tasks.trans (before.append_left finished)

/-- Over a whole run nothing is lost and nothing is started twice: the items are
started in the order of their arrival, and of those that were started as many
are under way as have not ended. -/
theorem run_account {events : List (Event Item Stage)} (account : Account pool arrived started finished)
    (ran : run (Pool.step begin) events pool = some next) :
    ∃ started' finished', Account next (arrived ++ arrivals events) started' finished' ∧
      finished'.length = finished.length + ended events := by
  induction events generalizing pool arrived started finished with
  | nil =>
    cases ran
    exact ⟨started, finished, by rwa [arrivals, List.filterMap_nil, List.append_nil], rfl⟩
  | cons event rest ih =>
    obtain ⟨middle, applied, ranRest⟩ := run_cons_eq_some.mp ran
    obtain ⟨_, _, accountMiddle, countMiddle⟩ := step_account account applied
    obtain ⟨started', finished', last, count⟩ := ih accountMiddle ranRest
    refine ⟨started', finished', ?_, ?_⟩
    · rwa [arrivals_cons, ← List.append_assoc]
    · rw [count, countMiddle, ended_cons event rest, Nat.add_assoc]

end account
end Foundations.TaskPool
