import Mathlib.Logic.Function.Basic
import DistributedSoftmax.Foundations.ByteString

/-! A key-value server whose entries may expire: single commands, command
sequences, and the keys on which a sequence can depend. -/

set_option autoImplicit false

namespace Foundations.KeyValue
open Foundations.ByteString

/-- A stored value and its remaining lifetime in seconds, if it has one. -/
structure Entry where
  value : Bytes
  ttl : Option Nat
  deriving DecidableEq, Repr

abbrev Store := String → Option Entry

def Store.empty : Store := fun _ => none

inductive Command where
  | get (key : String)
  | existsKey (key : String)
  | ttl (key : String)
  /-- Plain SET stores without expiry and drops an expiry that was there. -/
  | set (key : String) (value : Bytes)
  | setEx (key : String) (value : Bytes) (seconds : Nat)
  deriving DecidableEq, Repr

inductive Reply where
  | ok
  /-- SETEX refuses a lifetime of zero. -/
  | invalidExpire
  | bulk (value : Option Bytes)
  | integer (value : Int)
  deriving DecidableEq, Repr

namespace Command

def key : Command → String
  | get key | existsKey key | ttl key | set key _ | setEx key _ _ => key

def exec (store : Store) : Command → Store × Reply
  | get key => (store, .bulk ((store key).map Entry.value))
  | existsKey key => (store, .integer (if (store key).isSome then 1 else 0))
  | ttl key => (store, .integer (match store key with
      | none => -2
      | some ⟨_, none⟩ => -1
      | some ⟨_, some seconds⟩ => seconds))
  | set key value => (Function.update store key (some ⟨value, none⟩), .ok)
  | setEx key value seconds =>
      if seconds = 0 then (store, .invalidExpire)
      else (Function.update store key (some ⟨value, some seconds⟩), .ok)

theorem exec_frame (store : Store) {command : Command} {key : String}
    (other : key ≠ command.key) : (command.exec store).1 key = store key := by
  cases command with
  | get | existsKey | ttl => rfl
  | set name value => exact Function.update_of_ne other _ _
  | setEx name value seconds =>
    simp only [exec]
    split
    · rfl
    · exact Function.update_of_ne other _ _

/-- The reply, and what the command leaves under its key, depend on its key only. -/
theorem exec_local {first second : Store} {command : Command}
    (same : first command.key = second command.key) :
    (command.exec first).2 = (command.exec second).2 ∧
      (command.exec first).1 command.key = (command.exec second).1 command.key := by
  cases command with
  | get name | existsKey name | ttl name =>
    simp only [key] at same
    simp only [exec, key, same, and_self]
  | set name value => simp [exec, key]
  | setEx name value seconds =>
    simp only [key] at same
    simp only [exec, key]
    split
    · exact ⟨rfl, same⟩
    · simp

/-- The value a command stores under its key, if it stores one. -/
def written : Command → Option Bytes
  | set _ value | setEx _ value _ => some value
  | get _ | existsKey _ | ttl _ => none

theorem exec_cases (store : Store) (command : Command) :
    (command.exec store).1 = store ∨ ∃ value ttl, command.written = some value ∧
      (command.exec store).1 = Function.update store command.key (some ⟨value, ttl⟩) := by
  cases command with
  | get | existsKey | ttl => exact .inl rfl
  | set name value => exact .inr ⟨value, none, rfl, rfl⟩
  | setEx name value seconds =>
    simp only [exec]
    split
    · exact .inl rfl
    · exact .inr ⟨value, some seconds, rfl, rfl⟩

/-- SETEX stores with the lifetime it was given, or refuses. -/
theorem exec_setEx (store : Store) (key : String) (value : Bytes) (seconds : Nat) :
    (exec store (.setEx key value seconds)).1 = store ∨
      seconds ≠ 0 ∧ (exec store (.setEx key value seconds)).1 =
        Function.update store key (some ⟨value, some seconds⟩) := by
  simp only [exec]
  split
  · exact .inl rfl
  · rename_i positive
    exact .inr ⟨positive, rfl⟩

end Command

/-- A property of every stored value under its key. -/
def Store.All (P : String → Bytes → Prop) (store : Store) : Prop :=
  ∀ key entry, store key = some entry → P key entry.value

theorem Store.All.exec {P : String → Bytes → Prop} {store : Store} (all : store.All P)
    {command : Command} (fine : ∀ value, command.written = some value → P command.key value) :
    Store.All P (command.exec store).1 := by
  rcases command.exec_cases store with same | ⟨value, ttl, written, same⟩
  · rwa [same]
  · rw [same]
    intro key entry present
    by_cases own : key = command.key
    · subst own
      rw [Function.update_self] at present
      cases present
      exact fine value written
    · rw [Function.update_of_ne own] at present
      exact all key entry present

/-- A property of every entry under its key, lifetimes included. -/
def Store.Every (P : String → Entry → Prop) (store : Store) : Prop :=
  ∀ key entry, store key = some entry → P key entry

theorem Store.Every.update {P : String → Entry → Prop} {store : Store} (every : store.Every P)
    {key : String} {entry : Entry} (fine : P key entry) :
    Store.Every P (Function.update store key (some entry)) := by
  intro other stored present
  by_cases own : other = key
  · subst own
    rw [Function.update_self] at present
    cases present
    exact fine
  · rw [Function.update_of_ne own] at present
    exact every other stored present

/-- Run the commands in order and collect the replies. -/
def execAll : List Command → Store → Store × List Reply
  | [], store => (store, [])
  | command :: rest, store =>
      let (next, reply) := command.exec store
      let (final, replies) := execAll rest next
      (final, reply :: replies)

/-- Two stores that differ at most under one key. -/
def AgreeOff (key : String) (first second : Store) : Prop :=
  ∀ other, other ≠ key → first other = second other

/-- The commands leave the key as it is, and no reply depends on it. -/
structure Isolated (commands : List Command) (key : String) : Prop where
  untouched : ∀ store, (execAll commands store).1 key = store key
  unread : ∀ first second, AgreeOff key first second →
    (execAll commands first).2 = (execAll commands second).2

theorem AgreeOff.exec {key : String} {first second : Store} (agree : AgreeOff key first second)
    {command : Command} (apart : command.key ≠ key) :
    AgreeOff key (command.exec first).1 (command.exec second).1 := by
  intro other different
  by_cases own : other = command.key
  · subst own
    exact (Command.exec_local (agree _ apart)).2
  · rw [command.exec_frame first own, command.exec_frame second own, agree other different]

theorem isolated_of_keys {commands : List Command} {key : String}
    (apart : ∀ command ∈ commands, command.key ≠ key) : Isolated commands key := by
  induction commands with
  | nil => exact ⟨fun _ => rfl, fun _ _ _ => rfl⟩
  | cons command rest ih =>
    have head := apart command List.mem_cons_self
    have tail := ih fun other member => apart other (List.mem_cons_of_mem _ member)
    constructor
    · intro store
      simp only [execAll]
      rw [tail.untouched, command.exec_frame store head.symm]
    · intro first second agree
      simp only [execAll]
      rw [(Command.exec_local (agree _ head)).1, tail.unread _ _ (agree.exec head)]

end Foundations.KeyValue
