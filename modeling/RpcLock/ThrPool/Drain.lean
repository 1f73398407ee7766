import RpcLock.ThrPool.Accounts
import Mathlib.Algebra.Order.BigOperators.Group.Finset

/-!
# The thread pool drains

`ThrPool.work` pays for everything the pool has still to do once no caller adds
jobs.  Every step lowers it, spurious wakeups and calls of `addJob` apart, and
short of the end of `~ThrPool` such a step is possible: no wakeup is lost.
-/

namespace RpcLock

/-- The steps the pool takes by itself. -/
def ThrPoolAct.progresses {n : Nat} : ThrPoolAct n → Bool
  | .addJob _ _ => false
  | .spurious _ => false
  | .spuriousPill => false
  | _ => true

def WorkerState.work : WorkerState → Nat
  | .taking => 2
  | .waiting => 0
  | .running _ => 3
  | .exited => 0

@[simp] theorem work_taking : WorkerState.taking.work = 2 := rfl
@[simp] theorem work_waiting : WorkerState.waiting.work = 0 := rfl
@[simp] theorem work_running (j : Job) : (WorkerState.running j).work = 3 := rfl
@[simp] theorem work_exited : WorkerState.exited.work = 0 := rfl

theorem WorkerState.work_le (x : WorkerState) : x.work ≤ 3 := by
  cases x <;> simp

def Dtor.work (n : Nat) : Dtor → Nat
  | .notCalled => n + 6 * n + 1
  | .pills i => n + 6 * (n - i)
  | .waiting i _ => n + 6 * (n - i) - 1
  | .joining i => n - i

@[simp] theorem work_notCalled (n : Nat) : Dtor.notCalled.work n = n + 6 * n + 1 := rfl
@[simp] theorem work_pills (n i : Nat) : (Dtor.pills i).work n = n + 6 * (n - i) := rfl
@[simp] theorem work_dtorWaiting (n i : Nat) (j : Job) :
    (Dtor.waiting i j).work n = n + 6 * (n - i) - 1 := rfl
@[simp] theorem work_joining (n i : Nat) : (Dtor.joining i).work n = n - i := rfl

namespace ThrPool

open PoolTrace

variable {n : Nat} {p p' : ThrPool n} {tr es : PoolTrace n}

/-- What the pool has still to do. -/
def work (p : ThrPool n) : Nat :=
  4 * p.jobq.q.length + ∑ i, (p.th i).work + p.jobq.nonEmptyC.woken.length +
    p.jobq.hasSpaceC.woken.length + p.dtor.work n

theorem work_loop {i : Nat} (hi : i ≤ n) : (loop n i).work n = n + 6 * (n - i) := by
  unfold loop
  split
  · rfl
  · rw [work_joining]
    omega

/-- A thread changes the sum by its own. -/
theorem sum_work_update (th : Fin n → WorkerState) (i : Fin n) (x : WorkerState) :
    ∑ k, (Function.update th i x k).work + (th i).work = ∑ k, (th k).work + x.work := by
  have hupdate : ∀ k, (Function.update th i x k).work =
      Function.update (fun k => (th k).work) i x.work k := by
    intro k
    exact Function.apply_update (fun _ => WorkerState.work) th i x k
  simp only [hupdate]
  rw [Finset.sum_update_of_mem (Finset.mem_univ i),
    Finset.sum_eq_add_sum_sdiff_singleton_of_mem (Finset.mem_univ i) fun k => (th k).work]
  omega

/-! ## The steps lower the work -/

theorem work_afterDeq {i : Fin n} {f₀ : Fifo Job (Fin n) Unit} {w : Option Unit}
    {r : Fifo Job (Fin n) Unit × Option Job} {k : Nat} (hinv : f₀.Inv k 0) (hk : k ≤ 1)
    (hq : f₀.q = p.jobq.q) (hspace : f₀.hasSpaceC = p.jobq.hasSpaceC)
    (hgo : f₀.nonEmptyC.woken.length + 1 ≤ p.jobq.nonEmptyC.woken.length + (p.th i).work)
    (h : f₀.deq i w = some r) : (p.afterDeq i r).1.work < p.work := by
  obtain ⟨f, o⟩ := r
  cases (hinv.deq hk h).1 with
  | parked h₀ h₁ hpark hsame =>
      have hsum := sum_work_update p.th i .waiting
      rw [work_waiting] at hsum
      simp only [work, afterDeq, h₁, hpark, hsame, hspace, CondVar.park, List.length_nil]
      omega
  | @popped e h₀ hsame hwoken =>
      have hlen : p.jobq.q.length = f.q.length + 1 := by rw [← hq, h₀, List.length_cons]
      rw [hspace] at hwoken
      have hsum := sum_work_update p.th i (if e.isPill then .exited else .running e)
      have hle := WorkerState.work_le (if e.isPill then .exited else .running e)
      simp only [work, afterDeq, hsame]
      omega

theorem work_afterPill {i : Nat} {j : Job} {f₀ : Fifo Job (Fin n) Unit} {w : Option (Fin n)}
    {r : Fifo Job (Fin n) Unit × EnqResult} {l : Nat} (hinv : f₀.Inv 0 l) (hl : l ≤ 1)
    (hq : f₀.q = p.jobq.q) (hentries : f₀.nonEmptyC = p.jobq.nonEmptyC) (hi : i < n)
    (hgo : f₀.hasSpaceC.woken.length + (n + 6 * (n - i)) ≤
      p.jobq.hasSpaceC.woken.length + p.dtor.work n)
    (h : f₀.enq () j true w = some r) : (p.afterPill i j r).1.work < p.work := by
  obtain ⟨f, o⟩ := r
  cases (hinv.enq hl h).1 with
  | pushed _ h₁ hsame hwoken =>
      have hlen : f.q.length = p.jobq.q.length + 1 := by
        rw [h₁, hq, List.length_append, List.length_singleton]
      rw [hentries] at hwoken
      simp only [work, afterPill, hsame, work_loop (Nat.succ_le_of_lt hi)]
      omega
  | parked _ h₁ hsame hpark =>
      simp only [work, afterPill, h₁, hq, hsame, hentries, hpark, CondVar.park, work_dtorWaiting]
      omega

/-- Every step of the pool itself lowers the work. -/
theorem work_lt {a : ThrPoolAct n} {x : ThrPool n × PoolTrace n} (hw : p.Waits)
    (hs : p.Accounts tr) (ha : a.progresses = true) (h : p.next a = some x) :
    x.1.work < p.work := by
  have hrange := hs.range
  cases runs_of_next h with
  | addJob | spurious | spuriousPill => cases ha
  | takeJob hi hr =>
      exact work_afterDeq hw.fifo (Nat.zero_le 1) rfl rfl (by rw [hi]; exact Nat.le_succ _) hr
  | resume hi hc hr =>
      have hwoken := CondVar.length_woken_resume hc
      exact work_afterDeq (p := p) (hw.fifo.resumedDeq hc) (Nat.le_refl 1) rfl rfl
        (by simp only; omega) hr
  | @finish i j hi =>
      have hsum := sum_work_update p.th i .taking
      rw [hi, work_taking, work_running] at hsum
      simp only [work]
      omega
  | destroy hd =>
      simp only [work, work_loop (Nat.zero_le n), hd, work_notCalled]
      omega
  | pill hi hr =>
      rw [hi] at hrange
      exact work_afterPill hw.fifo (Nat.zero_le 1) rfl rfl hrange (by rw [hi]; rfl) hr
  | resumePill hi hc hr =>
      rw [hi] at hrange
      have hwoken := CondVar.length_woken_resume hc
      exact work_afterPill (p := p) (hw.fifo.resumedEnq hc) (Nat.le_refl 1) rfl rfl hrange
        (by simp only [hi, work_dtorWaiting]; omega) hr
  | join hlt hi hexit =>
      simp only [work, hi, work_joining]
      omega

/-! ## The pills and the workers -/

/-- A worker has taken a pill when it has exited, and one only. -/
theorem Accounts.countP_worker (hs : p.Accounts tr) (i : Fin n) :
    (ofWorker i (taken tr)).countP Job.isPill = if p.th i = .exited then 1 else 0 := by
  obtain ⟨l, heq, hl⟩ := hs.worker i
  have hjobs : (ofWorker i (completed tr)).countP Job.isPill = 0 := by
    refine List.countP_eq_zero.mpr fun j hj => ?_
    obtain ⟨x, hx, rfl⟩ := List.mem_map.mp hj
    rw [hs.jobs x (List.mem_filter.mp hx).1]
    exact Bool.false_ne_true
  rw [heq, List.countP_append, hjobs, Nat.zero_add]
  cases hth : p.th i with
  | taking | waiting =>
      rw [hth] at hl
      rw [show l = [] from hl]
      rfl
  | running j =>
      rw [hth] at hl
      obtain ⟨rfl, hj⟩ := hl
      simp [hj]
  | exited =>
      rw [hth] at hl
      obtain ⟨j, rfl, hj⟩ := hl
      simp [hj]

theorem Accounts.countP_taken (hs : p.Accounts tr) :
    ((taken tr).map Prod.snd).countP Job.isPill = ∑ i, if p.th i = .exited then 1 else 0 := by
  rw [← sum_countP_ofWorker]
  exact Finset.sum_congr rfl fun i _ => hs.countP_worker i

theorem Accounts.countP_taken_eq (hs : p.Accounts tr) (h : ∀ i, p.th i = .exited) :
    ((taken tr).map Prod.snd).countP Job.isPill = n := by
  simp [hs.countP_taken, h]

theorem Accounts.countP_taken_lt (hs : p.Accounts tr) {i : Fin n} (h : p.th i ≠ .exited) :
    ((taken tr).map Prod.snd).countP Job.isPill < n := by
  have hlt : (∑ i, if p.th i = .exited then 1 else 0) < ∑ _i : Fin n, 1 := by
    refine Finset.sum_lt_sum (fun k _ => ?_) ⟨i, Finset.mem_univ i, ?_⟩
    · split <;> decide
    · rw [if_neg h]
      exact Nat.zero_lt_one
  rw [hs.countP_taken]
  simpa using hlt

/-- While pills are to be added some worker is alive. -/
theorem Accounts.exists_alive (hs : p.Accounts tr) (h : p.dtor.added n < n) :
    ∃ i, p.th i ≠ .exited := by
  by_contra hall
  push Not at hall
  have hcount := hs.pills.countP
  rw [hs.order, List.countP_append, hs.countP_taken_eq hall] at hcount
  omega

/-- While a worker is alive and all pills are in, the queue is not empty. -/
theorem Accounts.q_ne_nil (hs : p.Accounts tr) (h : p.dtor.added n = n) {i : Fin n}
    (hi : p.th i ≠ .exited) : p.jobq.q ≠ [] := by
  intro hq
  have hcount := hs.pills.countP
  rw [hs.order, hq, List.append_nil, h] at hcount
  exact absurd hcount (Nat.ne_of_lt (hs.countP_taken_lt hi))

/-! ## The pool is never stuck -/

/-- A worker that is not parked can go on. -/
theorem exists_worker_step {i : Fin n} (hi : p.th i ≠ .exited)
    (hwoken : p.th i = .waiting → i ∈ p.jobq.nonEmptyC.woken) :
    ∃ a r, a.progresses = true ∧ p.next a = some r := by
  cases hth : p.th i with
  | taking =>
      obtain ⟨w, r, hr⟩ := p.jobq.exists_deq i
      refine ⟨.takeJob i w, p.afterDeq i r, rfl, ?_⟩
      simp only [ThrPool.next, if_pos hth, hr, Option.map_some]
  | waiting =>
      obtain ⟨c, hc⟩ := CondVar.exists_resume (hwoken hth)
      obtain ⟨w, r, hr⟩ := Fifo.exists_deq { p.jobq with nonEmptyC := c } i
      refine ⟨.resume i w, p.afterDeq i r, rfl, ?_⟩
      simp only [ThrPool.next, if_pos hth, Fifo.resumeDeq, hc, Option.bind_some, hr, Option.map_some]
  | running j =>
      exact ⟨.finish i, _, rfl, by simp only [ThrPool.next, hth]; rfl⟩
  | exited => exact absurd hth hi

/-- With an entry in the queue and a worker alive some worker can go on. -/
theorem Waits.exists_step_of_entry {i : Fin n} (hw : p.Waits) (hi : p.th i ≠ .exited)
    (hq : p.jobq.q ≠ []) : ∃ a r, a.progresses = true ∧ p.next a = some r := by
  by_cases hwoken : p.jobq.nonEmptyC.woken = []
  · -- then nobody is parked either
    have hparked : p.jobq.nonEmptyC.parked = [] := by
      by_contra hne
      have hle := hw.fifo.entries hne
      rw [hwoken] at hle
      exact hq (List.eq_nil_of_length_eq_zero (by simpa using hle))
    refine exists_worker_step hi fun hth => ?_
    have hmem := (hw.workers i).mpr hth
    rw [CondVar.threads, hparked, hwoken] at hmem
    cases hmem
  · obtain ⟨k, hk⟩ := List.exists_mem_of_ne_nil _ hwoken
    have hth : p.th k = .waiting := (hw.workers k).mp (List.mem_append_right _ hk)
    exact exists_worker_step (by rw [hth]; exact WorkerState.noConfusion) fun _ => hk

/-- Short of the end of `~ThrPool` the pool can go on. -/
theorem Waits.exists_step (hw : p.Waits) (hs : p.Accounts tr) (hn : ¬ p.Joined) :
    ∃ a r, a.progresses = true ∧ p.next a = some r := by
  have hrange := hs.range
  cases hd : p.dtor with
  | notCalled => exact ⟨.destroy, _, rfl, by simp only [ThrPool.next, if_pos hd]; rfl⟩
  | pills i =>
      obtain ⟨w, r, hr⟩ := p.jobq.exists_enq () ⟨0, 0⟩ true
      refine ⟨.pill 0 w, p.afterPill i ⟨0, 0⟩ r, rfl, ?_⟩
      simp only [ThrPool.next, hd, hr, Option.map_some]
  | waiting i j =>
      rw [hd] at hrange
      cases hwoken : p.jobq.hasSpaceC.woken with
      | cons u us =>
          have hu : () ∈ p.jobq.hasSpaceC.woken := by rw [hwoken]; exact List.mem_cons_self
          obtain ⟨c, hc⟩ := CondVar.exists_resume hu
          obtain ⟨w, r, hr⟩ := Fifo.exists_enq { p.jobq with hasSpaceC := c } () j true
          refine ⟨.resumePill w, p.afterPill i j r, rfl, ?_⟩
          simp only [ThrPool.next, hd, Fifo.resumeEnq, hc, Option.bind_some, hr, Option.map_some]
      | nil =>
          -- the destructor is parked, so the queue is full
          have hparked : p.jobq.hasSpaceC.parked ≠ [] := by
            intro hnil
            have hlen := hw.dtor
            rw [CondVar.threads, hnil, hwoken, hd] at hlen
            cases hlen
          have hfull := hw.fifo.space hparked
          have hpos := hw.fifo.pos
          obtain ⟨k, hk⟩ := hs.exists_alive (by rw [hd]; exact hrange)
          refine hw.exists_step_of_entry hk fun hq => ?_
          rw [hq, hwoken] at hfull
          simp only [List.length_nil] at hfull
          omega
  | joining i =>
      rw [hd] at hrange
      have hi : i < n := by
        refine Nat.lt_of_le_of_ne hrange fun heq => hn ?_
        rw [Joined, hd, heq]
      by_cases hexit : p.th ⟨i, hi⟩ = .exited
      · exact ⟨.join, _, rfl, by simp only [ThrPool.next, hd, dif_pos hi, if_pos hexit]; rfl⟩
      · exact hw.exists_step_of_entry hexit (hs.q_ne_nil (by rw [hd]; rfl) hexit)

end ThrPool

/-! ## Runs -/

namespace TracedPool

open PoolTrace

variable {n : Nat} {s s' : TracedPool n}

/-- What holds in every state of the pool. -/
def Sound (s : TracedPool n) : Prop := s.pool.Waits ∧ s.pool.Accounts s.trace

theorem next_inv {a : ThrPoolAct n} (h : (thrPoolMachine n).next s a = some s') :
    ∃ es, s.pool.next a = some (s'.pool, es) ∧ s'.trace = s.trace ++ es := by
  obtain ⟨⟨p, es⟩, hr, rfl⟩ := Option.map_eq_some_iff.mp h
  exact ⟨es, hr, rfl⟩

theorem Sound.step {a : ThrPoolAct n} (hs : s.Sound)
    (h : (thrPoolMachine n).next s a = some s') : s'.Sound := by
  obtain ⟨es, hr, htr⟩ := next_inv h
  obtain ⟨hw, hstep⟩ := hs.1.next hr
  refine ⟨hw, ?_⟩
  rw [htr]
  exact hs.2.step hstep

theorem sound_of_reachable (hn : 0 < n) (h : (thrPoolMachine n).Reachable s) : s.Sound :=
  h.invariant ⟨.init hn, .init⟩ fun _ _ _ hs hnext => hs.step hnext

/-- From every sound state `~ThrPool` can be brought to its end. -/
theorem Sound.exists_joined (hs : s.Sound) :
    ∃ t, (thrPoolMachine n).Reaches s t ∧ t.pool.Joined := by
  refine Machine.Reaches.of_measure (fun t => t.pool.work) (fun t ht hj => ?_) hs
  obtain ⟨a, r, ha, hr⟩ := ht.1.exists_step ht.2 hj
  have hnext : (thrPoolMachine n).next t a = some ⟨r.1, t.trace ++ r.2⟩ := by
    simp only [thrPoolMachine, hr, Option.map_some]
  exact ⟨a, _, hnext, ht.step hnext, ThrPool.work_lt ht.1 ht.2 ha hr⟩

/-- The state of a pool whose destructor has joined all threads. -/
structure Drained (s : TracedPool n) : Prop where
  q : s.pool.jobq.q = []
  /-- Each worker has taken one pill. -/
  pill : ∀ i, (ofWorker i (taken s.trace)).countP Job.isPill = 1
  /-- Each worker has run the jobs it took. -/
  ran : ∀ i, ofWorker i (completed s.trace) =
    (ofWorker i (taken s.trace)).filter fun j => !j.isPill
  /-- All accepted jobs have been run. -/
  all : ((completed s.trace).map Prod.snd).Perm ((accepted s.trace).filter fun j => !j.isPill)

theorem Sound.drained (hn : 0 < n) (hs : s.Sound) (hj : s.pool.Joined) : s.Drained := by
  obtain ⟨-, hs⟩ := hs
  have hexit : ∀ i, s.pool.th i = .exited := fun i => hs.joined n hj i i.isLt
  have hpills := hs.pills
  rw [hj, hs.order] at hpills
  have hq : s.pool.jobq.q = [] := hpills.eq_nil hn (hs.countP_taken_eq hexit)
  have hran : ∀ i, ofWorker i (completed s.trace) =
      (ofWorker i (taken s.trace)).filter fun j => !j.isPill := by
    intro i
    obtain ⟨l, heq, hl⟩ := hs.worker i
    rw [hexit i] at hl
    obtain ⟨j, rfl, hj⟩ := hl
    rw [heq, List.filter_append, List.filter_eq_self.mpr]
    · simp [hj]
    · intro e he
      obtain ⟨x, hx, rfl⟩ := List.mem_map.mp he
      rw [hs.jobs x (List.mem_filter.mp hx).1]
      rfl
  refine ⟨hq, fun i => by rw [hs.countP_worker i, if_pos (hexit i)], hran, ?_⟩
  rw [hs.order, hq, List.append_nil, List.perm_iff_count]
  intro j
  rw [List.count_eq_countP, List.count_eq_countP, List.countP_filter, ← sum_countP_ofWorker,
    ← sum_countP_ofWorker]
  refine Finset.sum_congr rfl fun i _ => ?_
  rw [hran i, List.countP_filter]

/-- The `k`-th accepted entry is taken by one worker or still in the queue. -/
theorem Sound.taken_once (hs : s.Sound) {k : Nat} {j : Job}
    (h : (accepted s.trace)[k]? = some j) :
    (∃! i, (taken s.trace)[k]? = some (i, j)) ∨
      (taken s.trace).length ≤ k ∧ s.pool.jobq.q[k - (taken s.trace).length]? = some j := by
  rw [hs.2.order] at h
  by_cases hk : k < (taken s.trace).length
  · rw [List.getElem?_append_left (by simpa using hk), List.getElem?_map,
      Option.map_eq_some_iff] at h
    obtain ⟨⟨i, e⟩, hi, rfl⟩ := h
    refine .inl ⟨i, hi, fun i' hi' => ?_⟩
    rw [hi] at hi'
    cases hi'
    rfl
  · rw [List.getElem?_append_right (by simpa using hk), List.length_map] at h
    exact .inr ⟨Nat.not_lt.mp hk, h⟩

/-- The thread pool neither loses nor repeats jobs, and `~ThrPool` drains it. -/
theorem pool_drains (hn : 0 < n) (h : (thrPoolMachine n).Reachable s) :
    s.pool.jobq.q.length ≤ 100 * n ∧
    accepted s.trace = (taken s.trace).map Prod.snd ++ s.pool.jobq.q ∧
    (∀ j w r, s.pool.addJob j w = some r →
      r.2 ≠ .waits ∧
      (r.2 = .returned false ↔ s.pool.jobq.q.length = 100 * n) ∧
      (r.2 = .returned false → r.1 = s.pool)) ∧
    (∀ k j, (accepted s.trace)[k]? = some j →
      (∃! i, (taken s.trace)[k]? = some (i, j)) ∨
      (taken s.trace).length ≤ k ∧ s.pool.jobq.q[k - (taken s.trace).length]? = some j) ∧
    (∀ i, ∃ l, ofWorker i (taken s.trace) = ofWorker i (completed s.trace) ++ l ∧
      (s.pool.th i).Holds l) ∧
    (s.pool.Joined → s.Drained) ∧
    ∃ t, (thrPoolMachine n).Reaches s t ∧ t.pool.Joined := by
  have hs := sound_of_reachable hn h
  have hmax := hs.1.max
  refine ⟨hmax ▸ hs.1.fifo.length_le, hs.2.order, ?_, fun _ _ => hs.taken_once, hs.2.worker,
    hs.drained hn, hs.exists_joined⟩
  intro j w r hr
  obtain ⟨⟨f, o⟩, hf, rfl⟩ := Option.map_eq_some_iff.mp hr
  cases (hs.1.fifo.enq (Nat.zero_le 1) hf).1 with
  | pushed hlt _ _ _ =>
      refine ⟨EnqResult.noConfusion, iff_of_false (by simp) (by omega), fun h => by simp at h⟩
  | refused hfull hsame =>
      subst hsame
      exact ⟨EnqResult.noConfusion, iff_of_true rfl (hfull.trans hmax), fun _ => rfl⟩

/-- Two workers run two jobs, one of them after a wait, and are joined. -/
theorem pool_drains_twoJobs : ∃ s : TracedPool 2,
    s.Drained ∧ accepted s.trace = [⟨1, 1⟩, ⟨1, 2⟩, ⟨0, 0⟩, ⟨0, 0⟩] ∧
      completed s.trace = [(1, ⟨1, 1⟩), (0, ⟨1, 2⟩)] := by
  obtain ⟨s, hs, hp⟩ := Machine.exists_reachable_of_run (M := thrPoolMachine 2)
    (p := fun s => decide (s.pool.Joined ∧ accepted s.trace = [⟨1, 1⟩, ⟨1, 2⟩, ⟨0, 0⟩, ⟨0, 0⟩] ∧
      completed s.trace = [(1, ⟨1, 1⟩), (0, ⟨1, 2⟩)]))
    [.takeJob 0 none, .addJob ⟨1, 1⟩ (some 0), .addJob ⟨1, 2⟩ none, .takeJob 1 none, .destroy,
      .resume 0 none, .pill 0 none, .finish 1, .takeJob 1 none, .pill 0 none, .finish 0,
      .takeJob 0 none, .join, .join] (by decide)
  obtain ⟨hj, ha, hc⟩ := of_decide_eq_true hp
  exact ⟨s, (pool_drains (by decide) hs).2.2.2.2.2.1 hj, ha, hc⟩

end TracedPool

end RpcLock
