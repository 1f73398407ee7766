import RpcLock.Library.CondVar
import RpcLock.Library.Machine
import Mathlib.Logic.Function.Basic

/-!
# The lock server

`lock_server` keeps the table `lock_map_` of granted locks.  Every handler runs
under `lock_map_mutex_`, and an `acquire` that does not get its lock waits on
`lock_cond_`, which is shared by all locks.  A step is one critical section: the
entry of `acquire`, its continuation after `pthread_cond_wait`, or `release`.
The thread a signal wakes and spurious wakeups are chosen by the label.
-/

namespace RpcLock

/-- `lock_protocol::status`. -/
inductive LockStatus where
  | ok
  | retry
deriving DecidableEq, Repr

/-- `lock_protocol::xxstatus` as the number on the wire. -/
def LockStatus.toInt : LockStatus → Int
  | .ok => 0
  | .retry => 1

/-- `lock_map_`. -/
abbrev LockMap : Type := UInt64 → Option Int32

/-- An activation of `lock_server::acquire`. -/
structure Acquire where
  /-- The thread that runs it. -/
  t : Nat
  clt : Int32
  lid : UInt64
deriving DecidableEq, Repr

structure LockServer where
  lockMap : LockMap
  /-- `lock_cond_` -/
  lockCond : CondVar Acquire

inductive LockAct where
  /-- The entry of `acquire`. -/
  | acquire (a : Acquire)
  /-- A woken `acquire` runs `get_lock` again. -/
  | resume (a : Acquire)
  /-- `pthread_cond_wait` returns without a signal. -/
  | spurious (a : Acquire)
  /-- `release`.  `w` is the thread its signal wakes. -/
  | release (clt : Int32) (lid : UInt64) (w : Option Acquire)
deriving DecidableEq, Repr

/-! ## The table -/

namespace LockMap

variable (m : LockMap) (clt : Int32) (lid : UInt64)

def getLock : Bool × LockMap :=
  match m lid with
  | none => (true, Function.update m lid (some clt))
  | some _ => (false, m)

def dropLock : Bool × LockMap :=
  match m lid with
  | none => (false, m)
  | some c => if c = clt then (true, Function.update m lid none) else (false, m)

theorem getLock_cases :
    (m lid = none ∧ m.getLock clt lid = (true, Function.update m lid (some clt))) ∨
    ∃ c, m lid = some c ∧ m.getLock clt lid = (false, m) := by
  unfold getLock
  cases h : m lid with
  | none => exact .inl ⟨rfl, rfl⟩
  | some c => exact .inr ⟨c, rfl, rfl⟩

theorem dropLock_cases :
    (m lid = some clt ∧ m.dropLock clt lid = (true, Function.update m lid none)) ∨
    (m lid ≠ some clt ∧ m.dropLock clt lid = (false, m)) := by
  unfold dropLock
  cases h : m lid with
  | none => exact .inr ⟨by simp, rfl⟩
  | some c =>
      by_cases hc : c = clt
      · subst hc
        exact .inl ⟨rfl, by simp⟩
      · exact .inr ⟨by simpa using hc, by simp [hc]⟩

end LockMap

/-! ## The handlers -/

namespace LockServer

/-- `lock_server::lock_server`. -/
def init : LockServer where
  lockMap _ := none
  lockCond := .empty

/-- `get_lock`, and the wait when it fails.  The activation has returned `OK` if
it is not waiting afterwards. -/
def acquire (s : LockServer) (a : Acquire) : LockServer :=
  match s.lockMap.getLock a.clt a.lid with
  | (true, m) => { s with lockMap := m }
  | (false, m) => ⟨m, s.lockCond.park a⟩

/-- `lock_server::release`, with its status and `r`. -/
def release (s : LockServer) (clt : Int32) (lid : UInt64) (w : Option Acquire) :
    Option (LockServer × LockStatus × Int32) :=
  match s.lockMap.dropLock clt lid with
  | (true, m) => (s.lockCond.signal w).map fun c => (⟨m, c⟩, .ok, 0)
  | (false, m) => if w = none then some ({ s with lockMap := m }, .retry, -1) else none

/-- Whether the thread `t` is in `acquire`. -/
def busy (s : LockServer) (t : Nat) : Bool :=
  (s.lockCond.parked ++ s.lockCond.woken).any fun a => a.t = t

def next (s : LockServer) : LockAct → Option LockServer
  | .acquire a => if s.busy a.t then none else some (s.acquire a)
  | .resume a => (s.lockCond.resume a).map fun c => { s with lockCond := c }.acquire a
  | .spurious a => (s.lockCond.wake a).map fun c => { s with lockCond := c }
  | .release clt lid w => (s.release clt lid w).map (·.1)

end LockServer

/-- The lock server under arbitrary requests. -/
def lockMachine : Machine LockServer LockAct where
  init := .init
  next := LockServer.next

namespace LockServer

/-- The outcomes of a step.  An `acquire` is granted the lock or parked. -/
inductive Step (s : LockServer) : LockAct → LockServer → Prop where
  | grant {a} : s.lockMap a.lid = none →
      Step s (.acquire a) { s with lockMap := Function.update s.lockMap a.lid (some a.clt) }
  | park {a c} : s.lockMap a.lid = some c →
      Step s (.acquire a) { s with lockCond := s.lockCond.park a }
  | grantWoken {a c} : s.lockCond.resume a = some c → s.lockMap a.lid = none →
      Step s (.resume a) ⟨Function.update s.lockMap a.lid (some a.clt), c⟩
  | parkWoken {a c d} : s.lockCond.resume a = some c → s.lockMap a.lid = some d →
      Step s (.resume a) { s with lockCond := c.park a }
  | spurious {a c} : s.lockCond.wake a = some c →
      Step s (.spurious a) { s with lockCond := c }
  | release {clt lid w c} : s.lockMap lid = some clt → s.lockCond.signal w = some c →
      Step s (.release clt lid w) ⟨Function.update s.lockMap lid none, c⟩
  | retry {clt lid} : s.lockMap lid ≠ some clt →
      Step s (.release clt lid none) s

theorem acquire_cases (s : LockServer) (a : Acquire) :
    (s.lockMap a.lid = none ∧
      s.acquire a = { s with lockMap := Function.update s.lockMap a.lid (some a.clt) }) ∨
    ∃ c, s.lockMap a.lid = some c ∧ s.acquire a = { s with lockCond := s.lockCond.park a } := by
  unfold acquire
  rcases s.lockMap.getLock_cases a.clt a.lid with ⟨hfree, hg⟩ | ⟨c, hheld, hg⟩
  · exact .inl ⟨hfree, by rw [hg]⟩
  · exact .inr ⟨c, hheld, by rw [hg]⟩

theorem release_inv {s : LockServer} {clt : Int32} {lid : UInt64} {w : Option Acquire}
    {r : LockServer × LockStatus × Int32} (h : s.release clt lid w = some r) :
    (s.lockMap lid = some clt ∧ ∃ c, s.lockCond.signal w = some c ∧
      r = (⟨Function.update s.lockMap lid none, c⟩, .ok, 0)) ∨
    (s.lockMap lid ≠ some clt ∧ w = none ∧ r = (s, .retry, -1)) := by
  unfold release at h
  rcases s.lockMap.dropLock_cases clt lid with ⟨hheld, hd⟩ | ⟨hne, hd⟩
  · simp only [hd, Option.map_eq_some_iff] at h
    obtain ⟨c, hc, rfl⟩ := h
    exact .inl ⟨hheld, c, hc, rfl⟩
  · simp only [hd] at h
    split at h
    · next hw =>
        cases h
        exact .inr ⟨hne, hw, rfl⟩
    · cases h

theorem step_of_next {s s' : LockServer} {b : LockAct} (h : s.next b = some s') : Step s b s' := by
  cases b with
  | acquire a =>
      simp only [next] at h
      split at h
      · cases h
      · cases h
        rcases s.acquire_cases a with ⟨hfree, he⟩ | ⟨c, hheld, he⟩
        · rw [he]
          exact .grant hfree
        · rw [he]
          exact .park hheld
  | resume a =>
      obtain ⟨c, hc, rfl⟩ := Option.map_eq_some_iff.mp h
      rcases acquire_cases { s with lockCond := c } a with ⟨hfree, he⟩ | ⟨d, hheld, he⟩
      · rw [he]
        exact .grantWoken hc hfree
      · rw [he]
        exact .parkWoken hc hheld
  | spurious a =>
      obtain ⟨c, hc, rfl⟩ := Option.map_eq_some_iff.mp h
      exact .spurious hc
  | release clt lid w =>
      obtain ⟨r, hr, rfl⟩ := Option.map_eq_some_iff.mp h
      rcases release_inv hr with ⟨hheld, c, hc, rfl⟩ | ⟨hne, rfl, rfl⟩
      · exact .release hheld hc
      · exact .retry hne

end LockServer

end RpcLock
