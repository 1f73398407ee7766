import RpcLock.Library.Machine
import RpcLock.ThrPool.Fifo
import Mathlib.Logic.Function.Basic

/-!
# The thread pool

`ThrPool(n, false)` runs jobs on `n` threads, which take them from a `fifo` of
at most `100 * n` entries.  `addJob` does not block: it is refused when the queue
is full.  The destructor puts one poison pill per thread into the queue, waiting
for space where it has to, and joins the threads.

The label of a step carries what the environment decides: the jobs, the threads
the signals wake, and the spurious wakeups.  The trace of a run is the list of
the results of `enq` and `deq` and of the jobs that returned.
-/

namespace RpcLock

/-- `ThrPool::job_t`, with pointers as words. -/
structure Job where
  /-- The function, `0` for `NULL`. -/
  f : UInt64
  a : UInt64
deriving DecidableEq, Repr

/-- A poison pill tells a worker thread to exit. -/
def Job.isPill (j : Job) : Bool := j.f == 0

/-- Where a thread is in `do_worker`. -/
inductive WorkerState where
  /-- About to call `takeJob`. -/
  | taking
  /-- In the wait of `deq`. -/
  | waiting
  | running (j : Job)
  | exited
deriving DecidableEq, Repr

/-- Where `~ThrPool` is. -/
inductive Dtor where
  | notCalled
  /-- `i` pills are in, and the next is about to be added. -/
  | pills (i : Nat)
  /-- In the wait of `enq` with the pill `j`. -/
  | waiting (i : Nat) (j : Job)
  /-- `i` threads are joined. -/
  | joining (i : Nat)
deriving DecidableEq, Repr

structure ThrPool (n : Nat) where
  jobq : Fifo Job (Fin n) Unit
  th : Fin n → WorkerState
  dtor : Dtor

/-- What a step shows. -/
inductive PoolEvent (n : Nat) where
  /-- `enq` returned. -/
  | enq (j : Job) (b : Bool)
  /-- `deq` returned the job to a thread. -/
  | deq (i : Fin n) (j : Job)
  /-- The function of the job returned. -/
  | ran (i : Fin n) (j : Job)
deriving DecidableEq, Repr

/-- What a run has shown, oldest first. -/
abbrev PoolTrace (n : Nat) : Type := List (PoolEvent n)

inductive ThrPoolAct (n : Nat) where
  /-- Some thread calls `addJob`.  `w` is the worker the signal wakes. -/
  | addJob (j : Job) (w : Option (Fin n))
  /-- The worker `i` enters `deq`. -/
  | takeJob (i : Fin n) (w : Option Unit)
  /-- The worker `i` goes on after the wait of `deq`. -/
  | resume (i : Fin n) (w : Option Unit)
  | spurious (i : Fin n)
  /-- The job of the worker `i` returns. -/
  | finish (i : Fin n)
  /-- `~ThrPool` is called. -/
  | destroy
  /-- `~ThrPool` enters `enq`.  `a` is the uninitialised `j.a`. -/
  | pill (a : UInt64) (w : Option (Fin n))
  /-- `~ThrPool` goes on after the wait of `enq`. -/
  | resumePill (w : Option (Fin n))
  | spuriousPill
  /-- `pthread_join` returns. -/
  | join
deriving DecidableEq, Repr

namespace ThrPool

variable {n : Nat}

/-- `ThrPool::ThrPool(n, false)`. -/
def init : ThrPool n where
  jobq := .init (100 * n)
  th _ := .taking
  dtor := .notCalled

/-- `addJob`, with `blockadd_` false. -/
def addJob (p : ThrPool n) (j : Job) (w : Option (Fin n)) : Option (ThrPool n × EnqResult) :=
  (p.jobq.enq () j false w).map fun r => ({ p with jobq := r.1 }, r.2)

/-- The events of an `enq`. -/
def enqEvents (j : Job) : EnqResult → PoolTrace n
  | .returned b => [.enq j b]
  | .waits => []

/-- The worker `i` after a critical section of the `deq` in `takeJob`. -/
def afterDeq (p : ThrPool n) (i : Fin n) :
    Fifo Job (Fin n) Unit × Option Job → ThrPool n × PoolTrace n
  | (f, none) => ({ p with jobq := f, th := Function.update p.th i .waiting }, [])
  | (f, some j) =>
      ({ p with
          jobq := f
          th := Function.update p.th i (if j.isPill then .exited else .running j) },
        [.deq i j])

/-- The test of the first loop of `~ThrPool`. -/
def loop (n i : Nat) : Dtor := if i < n then .pills i else .joining 0

/-- `~ThrPool` after a critical section of its `enq`. -/
def afterPill (p : ThrPool n) (i : Nat) (j : Job) :
    Fifo Job (Fin n) Unit × EnqResult → ThrPool n × PoolTrace n
  | (f, .returned b) => ({ p with jobq := f, dtor := loop n (i + 1) }, enqEvents j (.returned b))
  | (f, .waits) => ({ p with jobq := f, dtor := .waiting i j }, enqEvents j .waits)

/-- A step, and the events it shows.  `addJob` takes functions only, and is not
called any more when `~ThrPool` is. -/
def next (p : ThrPool n) : ThrPoolAct n → Option (ThrPool n × PoolTrace n)
  | .addJob j w =>
      if p.dtor = .notCalled ∧ j.isPill = false then
        (p.addJob j w).map fun r => (r.1, enqEvents j r.2)
      else none
  | .takeJob i w => if p.th i = .taking then (p.jobq.deq i w).map (p.afterDeq i) else none
  | .resume i w => if p.th i = .waiting then (p.jobq.resumeDeq i w).map (p.afterDeq i) else none
  | .spurious i => (p.jobq.wakeDeq i).map fun f => ({ p with jobq := f }, [])
  | .finish i =>
      match p.th i with
      | .running j => some ({ p with th := Function.update p.th i .taking }, [.ran i j])
      | _ => none
  | .destroy => if p.dtor = .notCalled then some ({ p with dtor := loop n 0 }, []) else none
  | .pill a w =>
      match p.dtor with
      | .pills i => (p.jobq.enq () ⟨0, a⟩ true w).map (p.afterPill i ⟨0, a⟩)
      | _ => none
  | .resumePill w =>
      match p.dtor with
      | .waiting i j => (p.jobq.resumeEnq () j true w).map (p.afterPill i j)
      | _ => none
  | .spuriousPill => (p.jobq.wakeEnq ()).map fun f => ({ p with jobq := f }, [])
  | .join =>
      match p.dtor with
      | .joining i =>
          if h : i < n then
            if p.th ⟨i, h⟩ = .exited then some ({ p with dtor := .joining (i + 1) }, []) else none
          else none
      | _ => none

/-- `~ThrPool` has joined all threads. -/
def Joined (p : ThrPool n) : Prop := p.dtor = .joining n

instance (p : ThrPool n) : Decidable p.Joined := inferInstanceAs (Decidable (_ = _))

end ThrPool

/-! ## Traces -/

/-- A pool with its trace. -/
structure TracedPool (n : Nat) where
  pool : ThrPool n
  trace : PoolTrace n

/-- The pool under any callers and any schedule. -/
def thrPoolMachine (n : Nat) : Machine (TracedPool n) (ThrPoolAct n) where
  init := ⟨.init, []⟩
  next s a := (s.pool.next a).map fun r => ⟨r.1, s.trace ++ r.2⟩

namespace PoolEvent

variable {n : Nat}

def accepted? : PoolEvent n → Option Job
  | .enq j b => if b then some j else none
  | .deq _ _ => none
  | .ran _ _ => none

def taken? : PoolEvent n → Option (Fin n × Job)
  | .enq _ _ => none
  | .deq i j => some (i, j)
  | .ran _ _ => none

def completed? : PoolEvent n → Option (Fin n × Job)
  | .enq _ _ => none
  | .deq _ _ => none
  | .ran i j => some (i, j)

end PoolEvent

namespace PoolTrace

variable {n : Nat}

/-- The entries `enq` accepted, in order. -/
def accepted (tr : PoolTrace n) : List Job := tr.filterMap PoolEvent.accepted?

/-- The entries `deq` handed out, in order, each with the worker that took it. -/
def taken (tr : PoolTrace n) : List (Fin n × Job) := tr.filterMap PoolEvent.taken?

/-- The jobs that have returned, in order, each with the worker that ran it. -/
def completed (tr : PoolTrace n) : List (Fin n × Job) := tr.filterMap PoolEvent.completed?

@[simp] theorem accepted_append (tr es : PoolTrace n) :
    accepted (tr ++ es) = accepted tr ++ accepted es := List.filterMap_append

@[simp] theorem taken_append (tr es : PoolTrace n) :
    taken (tr ++ es) = taken tr ++ taken es := List.filterMap_append

@[simp] theorem completed_append (tr es : PoolTrace n) :
    completed (tr ++ es) = completed tr ++ completed es := List.filterMap_append

@[simp] theorem accepted_nil : accepted ([] : PoolTrace n) = [] := rfl
@[simp] theorem taken_nil : taken ([] : PoolTrace n) = [] := rfl
@[simp] theorem completed_nil : completed ([] : PoolTrace n) = [] := rfl

@[simp] theorem accepted_enq (j : Job) (b : Bool) :
    accepted [(.enq j b : PoolEvent n)] = if b then [j] else [] := by cases b <;> rfl
@[simp] theorem accepted_deq (i : Fin n) (j : Job) : accepted [.deq i j] = [] := rfl
@[simp] theorem accepted_ran (i : Fin n) (j : Job) : accepted [.ran i j] = [] := rfl

@[simp] theorem taken_enq (j : Job) (b : Bool) : taken [(.enq j b : PoolEvent n)] = [] := rfl
@[simp] theorem taken_deq (i : Fin n) (j : Job) : taken [.deq i j] = [(i, j)] := rfl
@[simp] theorem taken_ran (i : Fin n) (j : Job) : taken [.ran i j] = [] := rfl

@[simp] theorem completed_enq (j : Job) (b : Bool) :
    completed [(.enq j b : PoolEvent n)] = [] := rfl
@[simp] theorem completed_deq (i : Fin n) (j : Job) : completed [.deq i j] = [] := rfl
@[simp] theorem completed_ran (i : Fin n) (j : Job) : completed [.ran i j] = [(i, j)] := rfl

end PoolTrace

/-- The entries of a worker. -/
def ofWorker {n : Nat} (i : Fin n) (l : List (Fin n × Job)) : List Job :=
  (l.filter fun x => x.1 = i).map Prod.snd

end RpcLock
