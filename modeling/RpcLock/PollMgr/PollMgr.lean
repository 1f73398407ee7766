import RpcLock.Library.CondVar
import RpcLock.Library.Machine
import Mathlib.Data.Finset.Basic

/-!
# `PollMgr` over `SelectAIO`

The poll thread runs `wait_loop`: it copies the descriptor sets, calls `select`
on the copies and calls the callbacks of the ready descriptors, the last two
without a lock.  Other threads call `add_callback`, `del_callback` and
`block_remove_fd`.

`PollMgr` and `SelectAIO` have a mutex each, and the poll thread copies the sets
under the second one only.  So a call is not one step: `mutex` says what is left
of the critical section under `PollMgr::m_` after its `watch_fd` or `unwatch_fd`.
The two reads of `callbacks_[fd]` before a callback are two steps.

The label has the result of `select`.  A thread comes back from
`pthread_cond_wait` after a broadcast only.
-/

namespace RpcLock

/-- `poll_flag`. -/
inductive PollFlag where
  | none
  | rdonly
  | wronly
  | rdwr
  | mask
deriving DecidableEq, Repr

/-- `MAX_POLL_FDS`. -/
def maxPollFds : Nat := 128

/-! ## `SelectAIO` -/

/-- `class SelectAIO`. -/
structure SelectAio where
  rfds : Finset Nat
  wfds : Finset Nat
  highfds : Nat
  /-- `pipefd_[0]`. -/
  pipefd : Nat
  /-- The bytes in the pipe. -/
  piped : Nat
deriving DecidableEq

namespace SelectAio

/-- `SelectAIO::SelectAIO`. -/
def init (pipefd : Nat) : SelectAio := ⟨{pipefd}, ∅, pipefd, pipefd, 0⟩

/-- `fd` is in one of the sets. -/
def Watched (a : SelectAio) (fd : Nat) : Prop := fd ∈ a.rfds ∨ fd ∈ a.wfds

instance (a : SelectAio) (fd : Nat) : Decidable (a.Watched fd) :=
  inferInstanceAs (Decidable (_ ∨ _))

/-- `SelectAIO::watch_fd`. -/
def watchFd (a : SelectAio) (fd : Nat) (flag : PollFlag) : SelectAio :=
  let a₁ := { a with
    highfds := if a.highfds ≤ fd then fd else a.highfds
    piped := a.piped + 1 }
  match flag with
  | .rdonly => { a₁ with rfds := insert fd a.rfds }
  | .wronly => { a₁ with wfds := insert fd a.wfds }
  | _ => { a₁ with rfds := insert fd a.rfds, wfds := insert fd a.wfds }

/-- The `FD_CLR`s of `unwatch_fd`, which knows three of the flags. -/
def clear (a : SelectAio) (fd : Nat) : PollFlag → Option SelectAio
  | .rdonly => some { a with rfds := a.rfds.erase fd }
  | .wronly => some { a with wfds := a.wfds.erase fd }
  | .rdwr => some { a with rfds := a.rfds.erase fd, wfds := a.wfds.erase fd }
  | _ => .none

/-- The highest descriptor in the sets, up to `highfds_`. -/
def newHigh (a : SelectAio) : Nat :=
  (List.range (a.highfds + 1)).foldl (fun newh i => if a.Watched i then i else newh) a.pipefd

/-- `SelectAIO::unwatch_fd`.  It says whether `fd` is in no set any more. -/
def unwatchFd (a : SelectAio) (fd : Nat) (flag : PollFlag) : Option (SelectAio × Bool) :=
  (a.clear fd flag).map fun a₁ =>
    ({ a₁ with
        highfds := if ¬ a₁.Watched fd ∧ fd = a₁.highfds then a₁.newHigh else a₁.highfds
        piped := if flag = .rdwr then a₁.piped + 1 else a₁.piped },
      decide (¬ a₁.Watched fd))

end SelectAio

/-! ## The poll thread -/

/-- A callback that is due. -/
inductive Callback where
  | read (fd : Nat)
  | write (fd : Nat)
deriving DecidableEq, Repr

def Callback.fd : Callback → Nat
  | .read fd => fd
  | .write fd => fd

/-- What `select` comes back with: `EINTR`, another error, or the two sets. -/
inductive SelectResult where
  | interrupted
  | failed
  | ready (trfds twfds : Finset Nat)
deriving DecidableEq

/-- `select` reports descriptors of the sets it was given only. -/
def SelectResult.Within (trfds twfds : Finset Nat) : SelectResult → Prop
  | .ready r w => r ⊆ trfds ∧ w ⊆ twfds
  | _ => True

instance (trfds twfds : Finset Nat) : (r : SelectResult) → Decidable (r.Within trfds twfds)
  | .ready r w => inferInstanceAs (Decidable (r ⊆ trfds ∧ w ⊆ twfds))
  | .interrupted | .failed => inferInstanceAs (Decidable True)

/-- Where the poll thread is. -/
inductive PollPhase where
  /-- At the head of the loop. -/
  | top
  /-- About to copy the sets. -/
  | clear
  /-- In `select`, with the copies. -/
  | selecting (trfds twfds : Finset Nat) (high : Nat)
  /-- In the two loops, with the callbacks that are left. -/
  | looping (due : List Callback)
  /-- `callbacks_[fd]` was not `NULL`. -/
  | checked (c : Callback) (due : List Callback)
  | inside (c : Callback) (due : List Callback)
deriving DecidableEq

/-- The poll thread has `fd` in a copy of the sets or in a list, or is in a
callback for it. -/
def PollPhase.Mentions : PollPhase → Nat → Prop
  | .top, _ => False
  | .clear, _ => False
  | .selecting trfds twfds _, fd => fd ∈ trfds ∨ fd ∈ twfds
  | .looping due, fd => fd ∈ due.map Callback.fd
  | .checked c due, fd => fd ∈ (c :: due).map Callback.fd
  | .inside c due, fd => fd ∈ (c :: due).map Callback.fd

/-- The poll thread is in a callback for `fd`. -/
def PollPhase.Inside (p : PollPhase) (fd : Nat) : Prop := ∃ c due, p = .inside c due ∧ c.fd = fd

/-- `readable`, then `writable`: what `wait_ready` collects from the sets. -/
def readyCallbacks (pipefd high : Nat) (trfds twfds : Finset Nat) : List Callback :=
  let piped fd := fd = pipefd ∧ fd ∈ trfds
  let fds := List.range (high + 1)
  (fds.filter fun fd => fd ∈ trfds ∧ ¬ piped fd).map .read ++
    (fds.filter fun fd => fd ∈ twfds ∧ ¬ piped fd).map .write

theorem read_mem_readyCallbacks {fd pipefd high : Nat} {r w : Finset Nat} :
    .read fd ∈ readyCallbacks pipefd high r w ↔ fd ≤ high ∧ fd ∈ r ∧ fd ≠ pipefd := by
  simp only [readyCallbacks, List.mem_append, List.mem_map, List.mem_filter, List.mem_range,
    decide_eq_true_eq, Callback.read.injEq, exists_eq_right, reduceCtorEq, and_false,
    exists_false, or_false, Nat.lt_succ_iff]
  tauto

theorem write_mem_readyCallbacks {fd pipefd high : Nat} {r w : Finset Nat} :
    .write fd ∈ readyCallbacks pipefd high r w ↔
      fd ≤ high ∧ fd ∈ w ∧ ¬ (fd = pipefd ∧ fd ∈ r) := by
  simp only [readyCallbacks, List.mem_append, List.mem_map, List.mem_filter, List.mem_range,
    decide_eq_true_eq, Callback.write.injEq, exists_eq_right, reduceCtorEq, and_false,
    exists_false, false_or, Nat.lt_succ_iff]

/-! ## `PollMgr` -/

/-- What is left of a critical section under `PollMgr::m_`. -/
inductive Section where
  /-- `add_callback` after `watch_fd`. -/
  | add (fd : Nat) (ch : Nat)
  /-- `del_callback` after `unwatch_fd` returned `gone`. -/
  | del (fd : Nat) (gone : Bool)
  /-- `block_remove_fd` after `unwatch_fd`. -/
  | remove (t : Nat) (fd : Nat)
deriving DecidableEq, Repr

inductive RemovePhase where
  | started
  /-- In `pthread_cond_wait`. -/
  | waiting
  | returned
deriving DecidableEq, Repr

/-- A call of `block_remove_fd`. -/
structure Remover where
  fd : Nat
  phase : RemovePhase
deriving DecidableEq, Repr

structure PollMgr where
  aio : SelectAio
  callbacks : Nat → Option Nat
  pendingChange : Bool
  /-- `changedone_c_`. -/
  changedone : CondVar Nat
  mutex : Option Section
  poll : PollPhase
  removers : Nat → Option Remover
  aborted : Bool

inductive PollMgrAct where
  /-- `add_callback` up to the end of `watch_fd`. -/
  | addWatch (fd : Nat) (flag : PollFlag) (ch : Nat)
  | addStore
  /-- `del_callback` up to the end of `unwatch_fd`. -/
  | delUnwatch (fd : Nat) (flag : PollFlag)
  | delStore
  /-- `block_remove_fd` up to the end of `unwatch_fd`. -/
  | removeUnwatch (t : Nat) (fd : Nat)
  | removeWait
  /-- Thread `t` has the mutex again and returns from `block_remove_fd`. -/
  | removeReturn (t : Nat)
  /-- The locked part of `wait_loop`. -/
  | head
  /-- The locked part of `wait_ready`. -/
  | copy
  | select (r : SelectResult)
  /-- The test of `callbacks_[fd]`, or the end of the loops. -/
  | check
  | call
  | callReturn
deriving DecidableEq

namespace PollMgr

/-- `PollMgr::PollMgr`. -/
def init (pipefd : Nat) : PollMgr where
  aio := .init pipefd
  callbacks _ := none
  pendingChange := false
  changedone := .empty
  mutex := none
  poll := .top
  removers _ := none
  aborted := false

/-- A failed `VERIFY`, or a call through a null pointer. -/
def abort (s : PollMgr) : PollMgr := { s with aborted := true }

def setRemover (s : PollMgr) (t : Nat) (x : Remover) : PollMgr :=
  { s with removers := Function.update s.removers t (some x) }

def setCallback (s : PollMgr) (fd : Nat) (c : Option Nat) : PollMgr :=
  { s with callbacks := Function.update s.callbacks fd c }

/-- `PollMgr::add_callback`. -/
def addWatch (s : PollMgr) (fd : Nat) (flag : PollFlag) (ch : Nat) : PollMgr :=
  if fd < maxPollFds then
    { s with aio := s.aio.watchFd fd flag, mutex := some (.add fd ch) }
  else s.abort

def addStore (s : PollMgr) (fd : Nat) (ch : Nat) : PollMgr :=
  if s.callbacks fd = none ∨ s.callbacks fd = some ch then
    { s.setCallback fd (some ch) with mutex := none }
  else s.abort

/-- `PollMgr::del_callback`. -/
def delUnwatch (s : PollMgr) (fd : Nat) (flag : PollFlag) : PollMgr :=
  match s.aio.unwatchFd fd flag with
  | none => s.abort
  | some (aio, gone) => { s with aio := aio, mutex := some (.del fd gone) }

def delStore (s : PollMgr) (fd : Nat) (gone : Bool) : PollMgr :=
  { (if gone then s.setCallback fd none else s) with mutex := none }

/-- `PollMgr::block_remove_fd`. -/
def removeUnwatch (s : PollMgr) (t : Nat) (fd : Nat) : PollMgr :=
  match s.aio.unwatchFd fd .rdwr with
  | none => s.abort
  | some (aio, _) =>
      { s with aio := aio, mutex := some (.remove t fd) }.setRemover t ⟨fd, .started⟩

def removeWait (s : PollMgr) (t : Nat) (fd : Nat) : PollMgr :=
  { s with
    pendingChange := true
    changedone := s.changedone.park t
    mutex := none }.setRemover t ⟨fd, .waiting⟩

def removeReturn (s : PollMgr) (t : Nat) (fd : Nat) : PollMgr :=
  (s.setCallback fd none).setRemover t ⟨fd, .returned⟩

/-- The locked part of `PollMgr::wait_loop`. -/
def head (s : PollMgr) : PollMgr :=
  { s with
    pendingChange := if s.pendingChange then false else s.pendingChange
    changedone := if s.pendingChange then s.changedone.broadcast else s.changedone
    poll := .clear }

/-- `wait_ready` after `select`, for a result within the copies. -/
def select (s : PollMgr) (high : Nat) : SelectResult → PollMgr
  | .interrupted => { s with poll := .looping [] }
  | .failed => s.abort
  | .ready trfds twfds =>
      let due := readyCallbacks s.aio.pipefd high trfds twfds
      if s.aio.pipefd ≤ high ∧ s.aio.pipefd ∈ trfds then
        -- VERIFY (read(pipefd_[0],&tmp,sizeof(tmp))==1)
        if s.aio.piped = 0 then s.abort
        else { s with aio := { s.aio with piped := s.aio.piped - 1 }, poll := .looping due }
      else { s with poll := .looping due }

def check (s : PollMgr) : List Callback → PollMgr
  | [] => { s with poll := .top }
  | c :: due =>
      { s with poll := if (s.callbacks c.fd).isSome then .checked c due else .looping due }

def call (s : PollMgr) (c : Callback) (due : List Callback) : PollMgr :=
  if (s.callbacks c.fd).isSome then { s with poll := .inside c due } else s.abort

/-- One step, where it is enabled. -/
def step (s : PollMgr) : PollMgrAct → Option PollMgr
  | .addWatch fd flag ch => if s.mutex = none then some (s.addWatch fd flag ch) else none
  | .addStore =>
      match s.mutex with
      | some (.add fd ch) => some (s.addStore fd ch)
      | _ => none
  | .delUnwatch fd flag => if s.mutex = none then some (s.delUnwatch fd flag) else none
  | .delStore =>
      match s.mutex with
      | some (.del fd gone) => some (s.delStore fd gone)
      | _ => none
  | .removeUnwatch t fd =>
      if s.mutex = none ∧ s.removers t = none then some (s.removeUnwatch t fd) else none
  | .removeWait =>
      match s.mutex with
      | some (.remove t fd) => some (s.removeWait t fd)
      | _ => none
  | .removeReturn t =>
      match s.mutex, s.removers t with
      | none, some x =>
          (s.changedone.resume t).map fun c => { s with changedone := c }.removeReturn t x.fd
      | _, _ => none
  | .head => if s.mutex = none ∧ s.poll = .top then some s.head else none
  | .copy =>
      if s.poll = .clear then
        some { s with poll := .selecting s.aio.rfds s.aio.wfds s.aio.highfds }
      else none
  | .select r =>
      match s.poll with
      | .selecting trfds twfds high =>
          if r.Within trfds twfds then some (s.select high r) else none
      | _ => none
  | .check =>
      match s.poll with
      | .looping due => some (s.check due)
      | _ => none
  | .call =>
      match s.poll with
      | .checked c due => some (s.call c due)
      | _ => none
  | .callReturn =>
      match s.poll with
      | .inside _ due => some { s with poll := .looping due }
      | _ => none

def next (s : PollMgr) (a : PollMgrAct) : Option PollMgr := if s.aborted then none else s.step a

/-- The step does not add `fd` again, once thread `t` has started to remove it. -/
def NoReAdd (t fd : Nat) (s : PollMgr) : PollMgrAct → Prop
  | .addWatch fd' _ _ => fd' = fd → (s.removers t).map Remover.fd ≠ some fd
  | _ => True

instance (t fd : Nat) (s : PollMgr) : (a : PollMgrAct) → Decidable (NoReAdd t fd s a)
  | .addWatch fd' _ _ =>
      inferInstanceAs (Decidable (fd' = fd → (s.removers t).map Remover.fd ≠ some fd))
  | .addStore | .delUnwatch _ _ | .delStore | .removeUnwatch _ _ | .removeWait | .removeReturn _
  | .head | .copy | .select _ | .check | .call | .callReturn => inferInstanceAs (Decidable True)

end PollMgr

/-- The poll thread among any number of other threads. -/
def pollMgrMachine (pipefd : Nat) : Machine PollMgr PollMgrAct where
  init := .init pipefd
  next := PollMgr.next

end RpcLock
