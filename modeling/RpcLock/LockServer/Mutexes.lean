import RpcLock.Library.Mutex
import RpcLock.LockServer.LockServer

/-!
# The table as a family of mutexes

Whatever the clients ask for and however their critical sections interleave,
what `get_lock` grants and `drop_lock` releases is a run of one owner-checked
mutex for each lock, and `lock_map_` is the state of that family.
-/

namespace RpcLock

/-- The lock a step is about. -/
def LockAct.lid : LockAct → UInt64
  | .acquire a | .resume a | .spurious a => a.lid
  | .release _ lid _ => lid

/-- A grant or a release of a lock. -/
abbrev LockEvent : Type := UInt64 × MutexEvent Int32

/-- One mutex for each lock. -/
abbrev lockMutexes : Machine LockMap LockEvent := (mutex Int32).family UInt64

namespace LockServer

/-- A `get_lock` that succeeds is a grant. -/
def granted (m : LockMap) (a : Acquire) : List LockEvent :=
  if (m.getLock a.clt a.lid).1 then [(a.lid, .grant a.clt)] else []

/-- A `drop_lock` that succeeds is a release. -/
def dropped (m : LockMap) (clt : Int32) (lid : UInt64) : List LockEvent :=
  if (m.dropLock clt lid).1 then [(lid, .release clt)] else []

/-- The events of a step. -/
def events (s : LockServer) : LockAct → List LockEvent
  | .acquire a => granted s.lockMap a
  | .resume a => granted s.lockMap a
  | .spurious _ => []
  | .release clt lid _ => dropped s.lockMap clt lid

variable {s s' : LockServer} {b : LockAct}

/-! ## The events of a step -/

theorem granted_of_free {m : LockMap} {a : Acquire} (h : m a.lid = none) :
    granted m a = [(a.lid, .grant a.clt)] := by
  simp [granted, LockMap.getLock, h]

theorem granted_of_held {m : LockMap} {a : Acquire} {c : Int32} (h : m a.lid = some c) :
    granted m a = [] := by
  simp [granted, LockMap.getLock, h]

theorem dropped_of_holder {m : LockMap} {clt : Int32} {lid : UInt64} (h : m lid = some clt) :
    dropped m clt lid = [(lid, .release clt)] := by
  simp [dropped, LockMap.dropLock, h]

theorem dropped_of_ne {m : LockMap} {clt : Int32} {lid : UInt64} (h : m lid ≠ some clt) :
    dropped m clt lid = [] := by
  rcases m.dropLock_cases clt lid with ⟨hheld, -⟩ | ⟨-, hd⟩
  · exact absurd hheld h
  · simp [dropped, hd]

/-! ## The mutexes -/

theorem mutexes_grant {m : LockMap} {clt : Int32} {lid : UInt64} (h : m lid = none) :
    lockMutexes.run m [(lid, .grant clt)] = some (Function.update m lid (some clt)) := by
  simp [Machine.run, Machine.family, mutex, h]

theorem mutexes_release {m : LockMap} {clt : Int32} {lid : UInt64} (h : m lid = some clt) :
    lockMutexes.run m [(lid, .release clt)] = some (Function.update m lid none) := by
  simp [Machine.run, Machine.family, mutex, h]

/-- The events of a step take the mutexes from its first table to its last. -/
theorem mutexes_run_events (h : s.next b = some s') :
    lockMutexes.run s.lockMap (s.events b) = some s'.lockMap := by
  cases step_of_next h with
  | grant hfree =>
      rw [events, granted_of_free hfree]
      exact mutexes_grant hfree
  | park hheld => rw [events, granted_of_held hheld, Machine.run_nil]
  | grantWoken _ hfree =>
      rw [events, granted_of_free hfree]
      exact mutexes_grant hfree
  | parkWoken _ hheld => rw [events, granted_of_held hheld, Machine.run_nil]
  | spurious _ => rfl
  | release hheld _ =>
      rw [events, dropped_of_holder hheld]
      exact mutexes_release hheld
  | retry hne => rw [events, dropped_of_ne hne, Machine.run_nil]

/-- A step that grants and releases nothing leaves the table alone. -/
theorem lockMap_of_no_events (h : s.next b = some s') (hb : s.events b = []) :
    s'.lockMap = s.lockMap := by
  have hrun := mutexes_run_events h
  rw [hb, Machine.run_nil] at hrun
  exact (Option.some.inj hrun).symm

/-- A step changes the entry of its own lock only. -/
theorem lockMap_other (h : s.next b = some s') {lid : UInt64} (hne : lid ≠ b.lid) :
    s'.lockMap lid = s.lockMap lid := by
  cases step_of_next h with
  | grant _ => exact Function.update_of_ne hne _ _
  | park _ => rfl
  | grantWoken _ _ => exact Function.update_of_ne hne _ _
  | parkWoken _ _ => rfl
  | spurious _ => rfl
  | release _ _ => exact Function.update_of_ne hne _ _
  | retry _ => rfl

/-- A release by somebody else. -/
theorem release_of_ne {clt : Int32} {lid : UInt64} {w : Option Acquire}
    {r : LockServer × LockStatus × Int32} (hne : s.lockMap lid ≠ some clt)
    (h : s.release clt lid w = some r) : r = (s, .retry, -1) := by
  rcases release_inv h with ⟨hheld, -⟩ | ⟨-, -, hr⟩
  · exact absurd hheld hne
  · exact hr

/-! ## Runs -/

/-- The table refines a family of owner-checked mutexes.  In every run the
events are a run of the family that ends in `lock_map_`, so for each lock grants
and releases alternate, beginning with a grant, and the table maps the locks
whose last event is a grant to its client.  From every state reached, a step
without an event leaves the table alone, no step touches another lock, and a
release by somebody who is not the holder answers `RETRY` with `-1`. -/
theorem lock_table_refines {h : List LockEvent}
    (hr : (lockMachine.recording events).Reachable (s, h)) :
    lockMutexes.run lockMutexes.init h = some s.lockMap ∧
      (∀ lid, MutexEvent.Alternating (Machine.labelsOf lid h) ∧
        s.lockMap lid = MutexEvent.holder (Machine.labelsOf lid h)) ∧
      (∀ b s', s.next b = some s' → (s.events b = [] → s'.lockMap = s.lockMap) ∧
        ∀ lid, lid ≠ b.lid → s'.lockMap lid = s.lockMap lid) ∧
      ∀ clt lid w r, s.lockMap lid ≠ some clt → s.release clt lid w = some r →
        r = (s, .retry, -1) := by
  have hrun : lockMutexes.run lockMutexes.init h = some s.lockMap :=
    Machine.recording_run (N := lockMutexes) LockServer.lockMap rfl
      (fun _ _ _ hn => mutexes_run_events hn) hr
  refine ⟨hrun, fun lid => ?_, fun b s' hn => ?_, fun clt lid w r hne hrel => ?_⟩
  · exact MutexEvent.alternating_of_run (Machine.run_family hrun lid)
  · exact ⟨lockMap_of_no_events hn, fun lid => lockMap_other hn⟩
  · exact release_of_ne hne hrel

/-- Two clients, one lock: the second one is parked until the first releases. -/
theorem lock_table_refines_handover :
    ∃ s h, (lockMachine.recording events).Reachable (s, h) ∧
      h = [(5, .grant 7), (5, .release 7), (5, .grant 8)] ∧
      lockMutexes.run lockMutexes.init h = some s.lockMap := by
  have hr : (lockMachine.recording events).run (lockMachine.recording events).init
      [.acquire ⟨1, 7, 5⟩, .acquire ⟨2, 8, 5⟩, .release 7 5 (some ⟨2, 8, 5⟩),
        .resume ⟨2, 8, 5⟩] = some (_, [(5, .grant 7), (5, .release 7), (5, .grant 8)]) := rfl
  exact ⟨_, _, .run .init hr, rfl, (lock_table_refines (.run .init hr)).1⟩

end LockServer

end RpcLock
