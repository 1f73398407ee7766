import RpcLock.ThrPool.Steps
import Mathlib.Algebra.BigOperators.Group.Finset.Basic
import Mathlib.Algebra.BigOperators.Fin

/-!
# The accounts of the thread pool

What has been accepted, taken and run, over whole traces.  The entries taken and
those in the queue are the entries accepted, in order.  What a worker took is
what it ran and what it holds.  The pills are the last entries, as many as the
destructor has added.
-/

namespace RpcLock

/-- What a worker has taken and not run: its job, or the pill it exited on. -/
def WorkerState.Holds : WorkerState → List Job → Prop
  | .running j, l => l = [j] ∧ j.isPill = false
  | .exited, l => ∃ j, l = [j] ∧ j.isPill = true
  | _, l => l = []

/-- The pills the destructor has added. -/
def Dtor.added (n : Nat) : Dtor → Nat
  | .notCalled => 0
  | .pills i => i
  | .waiting i _ => i
  | .joining _ => n

@[simp] theorem added_notCalled (n : Nat) : Dtor.notCalled.added n = 0 := rfl
@[simp] theorem added_pills (n i : Nat) : (Dtor.pills i).added n = i := rfl
@[simp] theorem added_waiting (n i : Nat) (j : Job) : (Dtor.waiting i j).added n = i := rfl
@[simp] theorem added_joining (n i : Nat) : (Dtor.joining i).added n = n := rfl

/-- The loop counters are in range. -/
def Dtor.InRange (n : Nat) : Dtor → Prop
  | .notCalled => True
  | .pills i => i < n
  | .waiting i _ => i < n
  | .joining i => i ≤ n

/-- Some jobs and then some pills. -/
def JobsThenPills (l : List Job) (k : Nat) : Prop :=
  ∃ jobs pills, l = jobs ++ pills ∧ (∀ j ∈ jobs, j.isPill = false) ∧
    (∀ j ∈ pills, j.isPill = true) ∧ pills.length = k

theorem JobsThenPills.job {l : List Job} {j : Job} (h : JobsThenPills l 0)
    (hj : j.isPill = false) : JobsThenPills (l ++ [j]) 0 := by
  obtain ⟨jobs, pills, rfl, hjobs, -, hlen⟩ := h
  obtain rfl := List.eq_nil_of_length_eq_zero hlen
  refine ⟨jobs ++ [j], [], by simp, ?_, by simp, rfl⟩
  intro e he
  rcases List.mem_append.mp he with he | he
  · exact hjobs e he
  · rwa [List.mem_singleton.mp he]

theorem JobsThenPills.pill {l : List Job} {k : Nat} {j : Job} (h : JobsThenPills l k)
    (hj : j.isPill = true) : JobsThenPills (l ++ [j]) (k + 1) := by
  obtain ⟨jobs, pills, rfl, hjobs, hpills, hlen⟩ := h
  refine ⟨jobs, pills ++ [j], by simp, hjobs, ?_, by simp [hlen]⟩
  intro e he
  rcases List.mem_append.mp he with he | he
  · exact hpills e he
  · rwa [List.mem_singleton.mp he]

theorem JobsThenPills.countP {l : List Job} {k : Nat} (h : JobsThenPills l k) :
    l.countP Job.isPill = k := by
  obtain ⟨jobs, pills, rfl, hjobs, hpills, rfl⟩ := h
  rw [List.countP_append, List.countP_eq_length.mpr hpills, List.countP_eq_zero.mpr, Nat.zero_add]
  intro j hj
  simp [hjobs j hj]

/-- Once all pills are taken from the front nothing is left. -/
theorem JobsThenPills.eq_nil {xs q : List Job} {k : Nat} (h : JobsThenPills (xs ++ q) k)
    (hk : 0 < k) (hxs : xs.countP Job.isPill = k) : q = [] := by
  have hcount := h.countP
  rw [List.countP_append, hxs] at hcount
  obtain ⟨jobs, pills, heq, -, hpills, hlen⟩ := h
  rcases List.append_eq_append_iff.mp heq with ⟨as, -, hq⟩ | ⟨bs, -, hp⟩
  · -- all pills are in `q`
    have hle : pills.countP Job.isPill ≤ q.countP Job.isPill := by
      rw [hq, List.countP_append]
      exact Nat.le_add_left _ _
    rw [List.countP_eq_length.mpr hpills] at hle
    omega
  · -- all of `q` are pills
    have hall : ∀ j ∈ q, j.isPill = true := fun j hj =>
      hpills j (hp ▸ List.mem_append_right bs hj)
    have := List.countP_eq_length.mpr hall
    exact List.eq_nil_of_length_eq_zero (by omega)

/-! ## The entries of one worker -/

section

variable {n : Nat} (i : Fin n)

@[simp] theorem ofWorker_nil : ofWorker i [] = [] := rfl

@[simp] theorem ofWorker_append (l l' : List (Fin n × Job)) :
    ofWorker i (l ++ l') = ofWorker i l ++ ofWorker i l' := by
  simp [ofWorker]

@[simp] theorem ofWorker_singleton (k : Fin n) (j : Job) :
    ofWorker i [(k, j)] = if k = i then [j] else [] := by
  by_cases hk : k = i <;> simp [ofWorker, hk]

/-- The workers together took what was taken. -/
theorem sum_countP_ofWorker (q : Job → Bool) (l : List (Fin n × Job)) :
    ∑ i, (ofWorker i l).countP q = (l.map Prod.snd).countP q := by
  induction l with
  | nil => simp
  | cons x l ih =>
      obtain ⟨k, j⟩ := x
      have hcons : ∀ i, (ofWorker i ((k, j) :: l)).countP q =
          (if k = i then [j].countP q else 0) + (ofWorker i l).countP q := by
        intro i
        rw [← List.singleton_append, ofWorker_append, List.countP_append, ofWorker_singleton]
        split <;> rfl
      simp only [hcons, Finset.sum_add_distrib, ih, Finset.sum_ite_eq, Finset.mem_univ, if_true]
      simp only [List.map_cons, List.countP_cons, List.countP_nil]
      omega

end

/-! ## The invariant -/

namespace ThrPool

open PoolTrace

variable {n : Nat} {p p' : ThrPool n} {tr es : PoolTrace n}

/-- The books of a pool with the trace `tr`. -/
structure Accounts (p : ThrPool n) (tr : PoolTrace n) : Prop where
  order : accepted tr = (taken tr).map Prod.snd ++ p.jobq.q
  worker : ∀ i, ∃ l, ofWorker i (taken tr) = ofWorker i (completed tr) ++ l ∧ (p.th i).Holds l
  jobs : ∀ x ∈ completed tr, x.2.isPill = false
  pills : JobsThenPills (accepted tr) (p.dtor.added n)
  range : p.dtor.InRange n
  joined : ∀ k, p.dtor = .joining k → ∀ i : Fin n, i < k → p.th i = .exited

theorem Accounts.init : (init : ThrPool n).Accounts [] where
  order := rfl
  worker _ := ⟨[], rfl, rfl⟩
  jobs x hx := by cases hx
  pills := ⟨[], [], rfl, by simp, by simp, rfl⟩
  range := trivial
  joined k h := by cases h

/-! ## The loop of the destructor -/

theorem added_loop {i : Nat} (hi : i ≤ n) : (loop n i).added n = i := by
  unfold loop
  split
  · rfl
  · next hlt => exact Nat.le_antisymm (Nat.not_lt.mp hlt) hi

theorem inRange_loop (n i : Nat) : (loop n i).InRange n := by
  unfold loop
  split
  · assumption
  · exact Nat.zero_le n

theorem loop_joining {i k : Nat} (h : loop n i = .joining k) : k = 0 := by
  unfold loop at h
  split at h
  · cases h
  · cases h
    rfl

/-- The pill that is being added. -/
theorem Accounts.adding {i : Nat} {j : Job} (hs : p.Accounts tr)
    (hi : p.dtor = .pills i ∨ p.dtor = .waiting i j) : i < n ∧ JobsThenPills (accepted tr) i := by
  have hpills := hs.pills
  have hrange := hs.range
  rcases hi with hi | hi <;> rw [hi] at hpills hrange <;> exact ⟨hrange, hpills⟩

/-! ## One worker -/

theorem not_exited {x : WorkerState} (h : x = .taking ∨ x = .waiting) : x ≠ .exited := by
  rcases h with rfl | rfl <;> exact WorkerState.noConfusion

/-- The books of the workers when one of them, which holds nothing, takes `l`. -/
theorem Accounts.worker_update {i : Fin n} {x : WorkerState} {l : List Job} (hs : p.Accounts tr)
    (hi : p.th i = .taking ∨ p.th i = .waiting) (hx : x.Holds l)
    (htaken : ∀ k, ofWorker k (taken es) = if i = k then l else [])
    (hcompleted : completed es = []) (k : Fin n) :
    ∃ l, ofWorker k (taken (tr ++ es)) = ofWorker k (completed (tr ++ es)) ++ l ∧
      (Function.update p.th i x k).Holds l := by
  obtain ⟨l₀, heq, hl₀⟩ := hs.worker k
  by_cases hk : k = i
  · subst hk
    have hnil : l₀ = [] := by rcases hi with hi | hi <;> rw [hi] at hl₀ <;> exact hl₀
    refine ⟨l, ?_, by rwa [Function.update_self]⟩
    simp [htaken, hcompleted, heq, hnil]
  · refine ⟨l₀, ?_, by rwa [Function.update_of_ne hk]⟩
    simp [htaken, hcompleted, heq, Ne.symm hk]

/-- A thread that has exited stays so. -/
theorem Accounts.joined_update {i : Fin n} {x : WorkerState} (hs : p.Accounts tr)
    (hi : p.th i ≠ .exited) (k : Nat) (hk : p.dtor = .joining k) (j : Fin n) (hj : j < k) :
    Function.update p.th i x j = .exited := by
  have hexit := hs.joined k hk j hj
  have hji : j ≠ i := by
    rintro rfl
    exact hi hexit
  rw [Function.update_of_ne hji, hexit]

/-- No thread is joined right after the loop test. -/
theorem joined_loop {th : Fin n → WorkerState} (i k : Nat) (hk : loop n i = .joining k)
    (j : Fin n) (hj : j < k) : th j = .exited := by
  rw [loop_joining hk] at hj
  exact absurd hj (Nat.not_lt_zero _)

/-! ## One step -/

theorem Accounts.step (hs : p.Accounts tr) (h : Step p p' es) : p'.Accounts (tr ++ es) := by
  have hworker := hs.worker
  have hjobs := hs.jobs
  have hpills := hs.pills
  cases h with
  | @accept f j hd hj hq =>
      rw [hd] at hpills
      refine ⟨by simp [hs.order, hq], by simpa using hworker, by simpa using hjobs, ?_,
        hs.range, hs.joined⟩
      simpa [hd] using hpills.job hj
  | refuse hd =>
      exact ⟨by simpa using hs.order, by simpa using hworker, by simpa using hjobs,
        by simpa using hpills, hs.range, hs.joined⟩
  | @park f i hi hq =>
      exact ⟨by simpa [hq] using hs.order,
        hs.worker_update hi (show WorkerState.waiting.Holds [] from rfl) (by simp) rfl,
        by simpa using hjobs, by simpa using hpills, hs.range, hs.joined_update (not_exited hi)⟩
  | @take f i j hi hj hq =>
      exact ⟨by simp [hs.order, hq],
        hs.worker_update hi (show (WorkerState.running j).Holds [j] from ⟨rfl, hj⟩) (by simp) rfl,
        by simpa using hjobs, by simpa using hpills, hs.range, hs.joined_update (not_exited hi)⟩
  | @exit f i j hi hj hq =>
      exact ⟨by simp [hs.order, hq],
        hs.worker_update hi (show WorkerState.exited.Holds [j] from ⟨j, rfl, hj⟩) (by simp) rfl,
        by simpa using hjobs, by simpa using hpills, hs.range, hs.joined_update (not_exited hi)⟩
  | wake hq =>
      exact ⟨by simpa [hq] using hs.order, by simpa using hworker, by simpa using hjobs,
        by simpa using hpills, hs.range, hs.joined⟩
  | @finish i j hi =>
      obtain ⟨l₀, heq, hl₀⟩ := hworker i
      rw [hi] at hl₀
      obtain ⟨rfl, hj⟩ := hl₀
      refine ⟨by simpa using hs.order, fun k => ?_, ?_, by simpa using hpills, hs.range,
        hs.joined_update (by rw [hi]; exact WorkerState.noConfusion)⟩
      · by_cases hk : k = i
        · subst hk
          exact ⟨[], by simp [heq], by simp [WorkerState.Holds]⟩
        · obtain ⟨l, heq, hl⟩ := hworker k
          exact ⟨l, by simp [heq, Ne.symm hk], by simpa [Function.update_of_ne hk] using hl⟩
      · intro x hx
        rw [completed_append, completed_ran, List.mem_append, List.mem_singleton] at hx
        rcases hx with hx | rfl
        · exact hjobs x hx
        · exact hj
  | destroy hd =>
      rw [hd] at hpills
      exact ⟨by simpa using hs.order, by simpa using hworker, by simpa using hjobs,
        by simpa [added_loop (Nat.zero_le n)] using hpills, inRange_loop n 0, joined_loop 0⟩
  | @push f i j hi hj hq =>
      obtain ⟨hlt, hadded⟩ := hs.adding hi
      refine ⟨by simp [hs.order, hq], by simpa using hworker, by simpa using hjobs, ?_,
        inRange_loop n (i + 1), joined_loop (i + 1)⟩
      simpa [added_loop hlt] using hadded.pill hj
  | @pillWaits f i j hi hj hq =>
      obtain ⟨hlt, hadded⟩ := hs.adding hi
      refine ⟨by simpa [hq] using hs.order, by simpa using hworker, by simpa using hjobs,
        by simpa using hadded, hlt, ?_⟩
      intro k hk
      cases hk
  | @join i hi hd hexit =>
      rw [hd] at hpills
      refine ⟨by simpa using hs.order, by simpa using hworker, by simpa using hjobs,
        by simpa using hpills, hi, ?_⟩
      intro k hk j hjk
      cases hk
      rcases Nat.lt_succ_iff_lt_or_eq.mp hjk with hlt | heq
      · exact hs.joined i hd j hlt
      · obtain rfl : j = ⟨i, hi⟩ := Fin.ext heq
        exact hexit

end ThrPool

end RpcLock
