import RpcLock.LockServer.LockServer

/-!
# The dispatch pool and blocking handlers

The handlers of the lock server run on the threads of a `ThrPool`, which take
their jobs from a FIFO queue.  A thread that waits in `acquire` is not back in
`takeJob` before it has its lock, and the release it waits for may stand behind
it in the queue.

`Seated` ties what the threads do to `lock_cond_`, and `Step` says what a step
does where it holds.
-/

namespace RpcLock

/-- A job of the pool. -/
inductive LockRequest where
  | acquire (clt : Int32) (lid : UInt64)
  | release (clt : Int32) (lid : UInt64)
deriving DecidableEq, Repr

def LockRequest.isAcquire : LockRequest → Bool
  | .acquire _ _ => true
  | .release _ _ => false

/-- What a thread of the pool does. -/
inductive Worker where
  /-- In `takeJob`. -/
  | idle
  /-- About to run the handler. -/
  | taken (r : LockRequest)
  /-- In the wait of `lock_server::acquire`. -/
  | waiting (a : Acquire)
deriving DecidableEq, Repr

/-- Whether the thread is busy with an `acquire`. -/
def Worker.acquiring : Worker → Bool
  | .idle => false
  | .taken r => r.isAcquire
  | .waiting _ => true

/-- The pool of `n` threads with the lock server it serves. -/
structure Pool (n : Nat) where
  jobq : List LockRequest
  workers : Fin n → Worker
  locks : LockServer

inductive PoolAct (n : Nat) where
  /-- A request comes in. -/
  | arrive (r : LockRequest)
  /-- Thread `i` takes the first job. -/
  | take (i : Fin n)
  /-- Thread `i` enters the handler.  `w` is the thread the signal of `release` wakes. -/
  | run (i : Fin n) (w : Option Acquire)
  | resume (i : Fin n)
  | spurious (i : Fin n)
deriving DecidableEq, Repr

namespace Pool

variable {n : Nat}

/-- `ThrPool::ThrPool(n, false)`. -/
def init : Pool n where
  jobq := []
  workers _ := .idle
  locks := .init

/-- Set what a thread does. -/
def setWorker (s : Pool n) (i : Fin n) (x : Worker) : Pool n :=
  { s with workers := Function.update s.workers i x }

/-- Only holders release. -/
def sendable (s : Pool n) : LockRequest → Bool
  | .acquire _ _ => true
  | .release clt lid => decide (s.locks.lockMap lid = some clt)

/-- `addJob`: the job is refused when the queue is full. -/
def addJob (s : Pool n) (r : LockRequest) : Pool n :=
  if s.jobq.length < 100 * n then { s with jobq := s.jobq ++ [r] } else s

/-- The thread after a critical section of its `acquire`. -/
def afterAcquire (s : Pool n) (i : Fin n) (a : Acquire) (l : LockServer) : Pool n :=
  { s with locks := l }.setWorker i (if l.busy a.t then .waiting a else .idle)

def next (s : Pool n) : PoolAct n → Option (Pool n)
  | .arrive r => if s.sendable r then some (s.addJob r) else none
  | .take i =>
      match s.workers i, s.jobq with
      | .idle, r :: rest => some ({ s with jobq := rest }.setWorker i (.taken r))
      | _, _ => none
  | .run i w =>
      match s.workers i with
      | .taken (.acquire clt lid) =>
          (s.locks.next (.acquire ⟨i, clt, lid⟩)).map (s.afterAcquire i ⟨i, clt, lid⟩)
      | .taken (.release clt lid) =>
          (s.locks.next (.release clt lid w)).map fun l => { s with locks := l }.setWorker i .idle
      | _ => none
  | .resume i =>
      match s.workers i with
      | .waiting a => (s.locks.next (.resume a)).map (s.afterAcquire i a)
      | _ => none
  | .spurious i =>
      match s.workers i with
      | .waiting a => (s.locks.next (.spurious a)).map fun l => { s with locks := l }
      | _ => none

end Pool

/-- The pool under arbitrary requests. -/
def poolMachine (n : Nat) : Machine (Pool n) (PoolAct n) where
  init := .init
  next := Pool.next

namespace Pool

variable {n : Nat} {s s' : Pool n} {i : Fin n}

@[simp] theorem setWorker_workers_self (s : Pool n) (i : Fin n) (x : Worker) :
    (s.setWorker i x).workers i = x := by simp [setWorker]
theorem setWorker_workers_ne (s : Pool n) {i j : Fin n} (x : Worker) (h : j ≠ i) :
    (s.setWorker i x).workers j = s.workers j := by simp [setWorker, h]
@[simp] theorem setWorker_locks (s : Pool n) (i : Fin n) (x : Worker) :
    (s.setWorker i x).locks = s.locks := rfl

theorem locks_addJob (s : Pool n) (r : LockRequest) : (s.addJob r).locks = s.locks := by
  unfold addJob
  split <;> rfl
theorem workers_addJob (s : Pool n) (r : LockRequest) : (s.addJob r).workers = s.workers := by
  unfold addJob
  split <;> rfl

/-- A `release` can always run.  Afterwards its client does not hold the lock. -/
theorem exists_release (l : LockServer) (clt : Int32) (lid : UInt64) :
    ∃ w l', l.next (.release clt lid w) = some l' ∧ l'.lockMap lid ≠ some clt ∧
      ∀ k, l'.lockMap k = l.lockMap k ∨ l'.lockMap k = none := by
  simp only [LockServer.next, LockServer.release]
  rcases l.lockMap.dropLock_cases clt lid with ⟨-, hd⟩ | ⟨hne, hd⟩
  · obtain ⟨w, c, hc⟩ := l.lockCond.exists_signal
    refine ⟨w, _, by rw [hd, hc]; rfl, by simp, fun k => ?_⟩
    by_cases hk : k = lid
    · exact .inr (by simp [hk])
    · exact .inl (by simp [hk])
  · exact ⟨none, _, by rw [hd]; rfl, hne, fun k => .inl rfl⟩

theorem next_release {clt : Int32} {lid : UInt64} {w : Option Acquire} {l : LockServer}
    (hw : s.workers i = .taken (.release clt lid))
    (hl : s.locks.next (.release clt lid w) = some l) :
    (poolMachine n).next s (.run i w) = some ({ s with locks := l }.setWorker i .idle) := by
  simp only [poolMachine, next, hw, hl, Option.map_some]

theorem next_take {q : LockRequest} {rest : List LockRequest} (hw : s.workers i = .idle)
    (hq : s.jobq = q :: rest) : (poolMachine n).next s (.take i) =
      some ({ s with jobq := rest }.setWorker i (.taken q)) := by
  simp only [poolMachine, next, hw, hq]

/-! ## The steps -/

/-- Each thread that waits is inside the wait of `lock_cond_`, once. -/
structure Seated (s : Pool n) : Prop where
  own : ∀ i a, s.workers i = .waiting a → a.t = i
  threads : ∀ a, a ∈ s.locks.lockCond.threads ↔ ∃ i, s.workers i = .waiting a
  nodup : s.locks.lockCond.threads.Nodup

theorem seated_init : (init : Pool n).Seated where
  own := by rintro i a ⟨⟩
  threads a := by
    constructor
    · intro ha
      cases ha
    · rintro ⟨i, ⟨⟩⟩
  nodup := List.nodup_nil

/-- The outcomes of a step.  An `acquire` is granted the lock or parked. -/
inductive Step (s : Pool n) : PoolAct n → Pool n → Prop where
  | arrive {r} : Step s (.arrive r) (s.addJob r)
  | take {i r rest} : s.workers i = .idle → s.jobq = r :: rest →
      Step s (.take i) ({ s with jobq := rest }.setWorker i (.taken r))
  | grant {i clt lid w} : s.workers i = .taken (.acquire clt lid) → s.locks.lockMap lid = none →
      Step s (.run i w) ({ s with locks := { s.locks with
        lockMap := Function.update s.locks.lockMap lid (some clt) } }.setWorker i .idle)
  | park {i clt lid w} : s.workers i = .taken (.acquire clt lid) → s.locks.lockMap lid ≠ none →
      Step s (.run i w) ({ s with locks := { s.locks with
        lockCond := s.locks.lockCond.park ⟨i, clt, lid⟩ } }.setWorker i (.waiting ⟨i, clt, lid⟩))
  | release {i clt lid w l} : s.workers i = .taken (.release clt lid) →
      s.locks.next (.release clt lid w) = some l →
      Step s (.run i w) ({ s with locks := l }.setWorker i .idle)
  | grantWoken {i a c} : s.workers i = .waiting a → s.locks.lockCond.resume a = some c →
      s.locks.lockMap a.lid = none →
      Step s (.resume i) ({ s with locks :=
        ⟨Function.update s.locks.lockMap a.lid (some a.clt), c⟩ }.setWorker i .idle)
  | parkWoken {i a c} : s.workers i = .waiting a → s.locks.lockCond.resume a = some c →
      s.locks.lockMap a.lid ≠ none →
      Step s (.resume i)
        ({ s with locks := { s.locks with lockCond := c.park a } }.setWorker i (.waiting a))
  | spurious {i a c} : s.workers i = .waiting a → s.locks.lockCond.wake a = some c →
      Step s (.spurious i) { s with locks := { s.locks with lockCond := c } }

/-- A thread that has just got its lock is in no wait. -/
theorem busy_eq_false {l : LockServer} {t : Nat} (h : ∀ a ∈ l.lockCond.threads, a.t ≠ t) :
    l.busy t = false := by
  rw [LockServer.busy, List.any_eq_false]
  intro a ha
  simpa using h a ha

theorem Seated.busy_iff (h : s.Seated) : s.locks.busy i = true ↔ ∃ a, s.workers i = .waiting a := by
  constructor
  · intro hb
    obtain ⟨a, ha, ht⟩ := List.any_eq_true.mp hb
    obtain ⟨j, hj⟩ := (h.threads a).mp ha
    have hji : j = i := Fin.ext ((h.own j a hj).symm.trans (of_decide_eq_true ht))
    exact ⟨a, hji ▸ hj⟩
  · rintro ⟨a, ha⟩
    exact List.any_eq_true.mpr ⟨a, (h.threads a).mpr ⟨i, ha⟩, decide_eq_true (h.own i a ha)⟩

/-- After its wakeup a thread is in no other wait. -/
theorem Seated.ne_of_resume (h : s.Seated) {a : Acquire} {c : CondVar Acquire}
    (hi : s.workers i = .waiting a) (hc : s.locks.lockCond.resume a = some c) :
    ∀ b ∈ c.threads, b.t ≠ a.t := by
  intro b hb ht
  have hperm := CondVar.threads_resume hc
  have hnd : (a :: c.threads).Nodup := hperm.nodup_iff.mp h.nodup
  obtain ⟨j, hj⟩ := (h.threads b).mp (hperm.mem_iff.mpr (List.mem_cons_of_mem a hb))
  have hji : j = i := Fin.ext ((h.own j b hj).symm.trans (ht.trans (h.own i a hi)))
  rw [hji, hi] at hj
  cases hj
  exact (List.nodup_cons.mp hnd).1 hb

theorem step_of_next {a : PoolAct n} (h : s.Seated) (hn : s.next a = some s') : Step s a s' := by
  cases a with
  | arrive r =>
      simp only [next] at hn
      split at hn
      · cases hn
        exact .arrive
      · cases hn
  | take i =>
      simp only [next] at hn
      split at hn
      · next hw hq =>
          cases hn
          exact .take hw hq
      · cases hn
  | run i w =>
      simp only [next] at hn
      split at hn
      · next clt lid hw =>
          obtain ⟨l, hl, rfl⟩ := Option.map_eq_some_iff.mp hn
          have hidle : s.locks.busy i = false := by
            rw [← Bool.not_eq_true, h.busy_iff, hw]
            rintro ⟨a, ⟨⟩⟩
          cases LockServer.step_of_next hl with
          | grant hfree =>
              have hb : LockServer.busy
                  ⟨Function.update s.locks.lockMap lid (some clt), s.locks.lockCond⟩ i = false :=
                hidle
              simp only [afterAcquire, hb]
              exact .grant hw hfree
          | park hheld =>
              have hb : LockServer.busy
                  ⟨s.locks.lockMap, s.locks.lockCond.park ⟨i, clt, lid⟩⟩ i = true :=
                List.any_eq_true.mpr ⟨⟨i, clt, lid⟩, List.mem_cons_self, decide_eq_true rfl⟩
              simp only [afterAcquire, hb]
              exact .park hw (by rw [hheld]; exact Option.some_ne_none _)
      · next clt lid hw =>
          obtain ⟨l, hl, rfl⟩ := Option.map_eq_some_iff.mp hn
          exact .release hw hl
      · cases hn
  | resume i =>
      simp only [next] at hn
      split at hn
      · next a hw =>
          obtain ⟨l, hl, rfl⟩ := Option.map_eq_some_iff.mp hn
          cases LockServer.step_of_next hl with
          | @grantWoken _ c hc hfree =>
              have hb := busy_eq_false (h.ne_of_resume hw hc)
                (l := ⟨Function.update s.locks.lockMap a.lid (some a.clt), c⟩)
              simp only [afterAcquire, hb]
              exact .grantWoken hw hc hfree
          | @parkWoken _ c d hc hheld =>
              have hb : LockServer.busy { s.locks with lockCond := c.park a } a.t = true :=
                List.any_eq_true.mpr ⟨a, List.mem_cons_self, decide_eq_true rfl⟩
              simp only [afterAcquire, hb]
              exact .parkWoken hw hc (by rw [hheld]; exact Option.some_ne_none _)
      · cases hn
  | spurious i =>
      simp only [next] at hn
      split at hn
      · next a hw =>
          obtain ⟨l, hl, rfl⟩ := Option.map_eq_some_iff.mp hn
          cases LockServer.step_of_next hl with
          | spurious hc => exact .spurious hw hc
      · cases hn

/-- A step of a thread that neither ends nor begins a wait. -/
theorem Seated.keep (h : s.Seated) {x : Worker} (hi : ∀ a, s.workers i ≠ .waiting a)
    (hx : ∀ a, x ≠ .waiting a) (hw : s'.workers = Function.update s.workers i x)
    (hc : s'.locks.lockCond.threads.Perm s.locks.lockCond.threads) : s'.Seated := by
  have hwait : ∀ j a, s'.workers j = .waiting a ↔ s.workers j = .waiting a := by
    intro j a
    rw [hw]
    by_cases hj : j = i
    · subst hj
      simp [hx a, hi a]
    · simp [hj]
  refine ⟨fun j a hj => h.own j a ((hwait j a).mp hj), fun a => ?_, hc.nodup_iff.mpr h.nodup⟩
  simp only [hc.mem_iff, h.threads, hwait]

/-- A step that changes no thread. -/
theorem Seated.same (h : s.Seated) (hw : s'.workers = s.workers)
    (hc : s'.locks.lockCond.threads.Perm s.locks.lockCond.threads) : s'.Seated where
  own := by simpa only [hw] using h.own
  threads a := by rw [hc.mem_iff, h.threads, hw]
  nodup := hc.nodup_iff.mpr h.nodup

theorem seated_next {a : PoolAct n} (h : s.Seated) (hn : Step s a s') : s'.Seated := by
  cases hn with
  | @arrive r =>
      exact h.same (workers_addJob s r) (by rw [locks_addJob])
  | take hw hq => exact h.keep (by simp [hw]) (by simp) rfl (.refl _)
  | grant hw hfree => exact h.keep (by simp [hw]) (by simp) rfl (.refl _)
  | release hw hl =>
      refine h.keep (by simp [hw]) (by simp) rfl ?_
      cases LockServer.step_of_next hl with
      | release hheld hc => exact CondVar.threads_signal hc
      | retry hne => exact .refl _
  | spurious hw hc => exact h.same rfl (CondVar.threads_wake hc)
  | @park i clt lid w hw hheld =>
      have hnew : ∀ a ∈ s.locks.lockCond.threads, a.t ≠ i := by
        intro a ha ht
        obtain ⟨j, hj⟩ := (h.threads a).mp ha
        have hji : j = i := Fin.ext ((h.own j a hj).symm.trans ht)
        simp [← hji, hj] at hw
      refine ⟨fun j a hj => ?_, fun a => ?_, ?_⟩
      · by_cases hji : j = i
        · subst hji
          simp at hj
          simp [← hj]
        · rw [setWorker_workers_ne _ _ hji] at hj
          exact h.own j a hj
      · rw [setWorker_locks, CondVar.threads_park, List.mem_cons, h.threads]
        constructor
        · rintro (rfl | ⟨j, hj⟩)
          · exact ⟨i, setWorker_workers_self _ _ _⟩
          · have hji : j ≠ i := by
              rintro rfl
              simp [hw] at hj
            exact ⟨j, (setWorker_workers_ne _ _ hji).trans hj⟩
        · rintro ⟨j, hj⟩
          by_cases hji : j = i
          · subst hji
            rw [setWorker_workers_self] at hj
            cases hj
            exact .inl rfl
          · exact .inr ⟨j, (setWorker_workers_ne _ _ hji).symm.trans hj⟩
      · exact List.nodup_cons.mpr ⟨fun ha => hnew _ ha rfl, h.nodup⟩
  | @grantWoken i a c hw hc hfree =>
      have hperm := CondVar.threads_resume hc
      have hnd : (a :: c.threads).Nodup := hperm.nodup_iff.mp h.nodup
      have hne : ∀ b ∈ c.threads, b ≠ a := by
        rintro b hb rfl
        exact (List.nodup_cons.mp hnd).1 hb
      refine ⟨fun j b hj => ?_, fun b => ?_, (List.nodup_cons.mp hnd).2⟩
      · by_cases hji : j = i
        · subst hji
          simp at hj
        · rw [setWorker_workers_ne _ _ hji] at hj
          exact h.own j b hj
      · rw [setWorker_locks]
        constructor
        · intro hb
          obtain ⟨j, hj⟩ := (h.threads b).mp (hperm.mem_iff.mpr (List.mem_cons_of_mem a hb))
          have hji : j ≠ i := by
            rintro rfl
            rw [hw] at hj
            cases hj
            exact hne a hb rfl
          exact ⟨j, (setWorker_workers_ne _ _ hji).trans hj⟩
        · rintro ⟨j, hj⟩
          by_cases hji : j = i
          · subst hji
            simp at hj
          · rw [setWorker_workers_ne _ _ hji] at hj
            have hb := hperm.mem_iff.mp ((h.threads b).mpr ⟨j, hj⟩)
            rcases List.mem_cons.mp hb with rfl | hb
            · exact absurd (Fin.ext ((h.own j b hj).symm.trans (h.own i b hw))) hji
            · exact hb
  | @parkWoken i a c hw hc hheld =>
      have hworkers : Function.update s.workers i (.waiting a) = s.workers := by
        rw [← hw, Function.update_eq_self]
      exact h.same hworkers (CondVar.threads_resume hc).symm

theorem reachable_seated {s : Pool n} (h : (poolMachine n).Reachable s) : s.Seated :=
  h.invariant seated_init fun _ _ _ hs hn => seated_next hs (step_of_next hs hn)

end Pool

end RpcLock
