import RpcLock.Rpcc.Outcome
import Mathlib.Algebra.Order.BigOperators.Group.List
import Mathlib.Data.Finset.Insert

/-!
# `cancel` comes to its end

`cancel` completes the calls it finds in `calls_` and waits on `destroy_wait_c_`
until they have left.  From then on `destroy_wait_` keeps new calls out, so that
the entries only go, and each one that goes signals the waiting thread.

The signal wakes one thread.  That is enough as long as `cancel` is not called
while another thread is in it: the last call to go wakes one of two, and nobody
wakes the other.

`cancel` does not reach a thread that is blocked in `connection::send`.  Such a
thread leaves `calls_` when its send returns, and `cancel` waits for that.
-/

namespace RpcLock.Rpcc.Callers

variable {s s' : Callers} {a : CallersAct} {t k : Nat} {ca : Caller}

/-- No thread calls `cancel` while another one waits in it. -/
def NoOverlap (s : Callers) : CallersAct → Prop
  | .cancel _ => s.destroyWaitC.threads = []
  | _ => True

instance (s : Callers) : (a : CallersAct) → Decidable (s.NoOverlap a)
  | .cancel _ => inferInstanceAs (Decidable (s.destroyWaitC.threads = []))
  | .call _ _ _ | .leave _ | .erase _ _ | .ret _ | .bound _ | .gotPdu _ | .wake _ | .resume _ =>
      inferInstanceAs (Decidable True)

/-- The calls in `calls_` are done. -/
def AllDone (s : Callers) : Prop :=
  ∀ p ∈ s.calls, ∀ ca, s.callers p.2 = some ca → ca.done = true

/-- What a step does to `destroy_wait_`, `destroy_wait_c_` and `calls_`. -/
inductive Waits (s : Callers) : CallersAct → Callers → Prop where
  | quiet {a : CallersAct} {s' : Callers} :
      s'.destroyWait = s.destroyWait → s'.destroyWaitC = s.destroyWaitC →
      (s.destroyWait = true → s'.calls = s.calls) →
      (s.AllDone → s.destroyWait = true → s'.AllDone) → Waits s a s'
  | erased {t : Nat} {woken : Option Nat} {s' : Callers} {x : UInt32} :
      s'.destroyWait = s.destroyWait → s'.calls = eraseXid s.calls x →
      (s.destroyWait = true → s.destroyWaitC.signal woken = some s'.destroyWaitC) →
      (s.destroyWait = false → s'.destroyWaitC = s.destroyWaitC) → (s.AllDone → s'.AllDone) →
      Waits s (.erase t woken) s'
  | cancelled {k : Nat} {s' : Callers} : s'.AllDone → s' = s.cancelAll.awaitEmpty k →
      Waits s (.cancel k) s'
  | woken {k : Nat} {c : CondVar Nat} : s.destroyWaitC.wake k = some c →
      Waits s (.wake k) { s with destroyWaitC := c }
  | resumed {k : Nat} {c : CondVar Nat} : s.destroyWaitC.resume k = some c →
      Waits s (.resume k) ({ s with destroyWaitC := c }.awaitEmpty k)

/-- A step that changes one caller, and completes it if it was done before. -/
theorem AllDone.update (h : s.AllDone) (hca : s.callers t = some ca) (ca' : Caller)
    (hdone : ca.done = true → ca'.done = true) (hcalls : ∀ p ∈ s'.calls, p ∈ s.calls)
    (hcallers : s'.callers = Function.update s.callers t (some ca')) : s'.AllDone := by
  intro p hp c hc
  rw [hcallers] at hc
  by_cases hpt : p.2 = t
  · rw [hpt, Function.update_self] at hc
    cases hc
    exact hdone (h p (hcalls p hp) ca (hpt ▸ hca))
  · rw [Function.update_of_ne hpt] at hc
    exact h p (hcalls p hp) c hc

theorem allDone_cancelAll : s.cancelAll.AllDone := by
  intro p hp ca hca
  have hmem : p.2 ∈ s.calls.map Prod.snd := List.mem_map_of_mem hp
  simp only [cancelAll, if_pos hmem] at hca
  obtain ⟨ca₀, -, rfl⟩ := Option.map_eq_some_iff.mp hca
  rfl

theorem done_gotPdu (r : Reply) (h : ca.done = true) : (ca.gotPdu r).done = true := by
  unfold Caller.gotPdu
  rw [if_pos h]
  exact h

theorem allDone_awaitEmpty : (s.awaitEmpty k).AllDone ↔ s.AllDone := by
  unfold AllDone
  rw [awaitEmpty_calls, awaitEmpty_callers]

theorem waits_call {proc : UInt32} {junk : Int} :
    Waits s (.call t proc junk) (s.call t proc junk) := by
  unfold call
  split
  · exact .quiet rfl rfl (fun _ => rfl) fun h _ => h
  · split
    · exact .quiet rfl rfl (fun _ => rfl) fun h _ => h
    · next hw =>
        exact .quiet rfl rfl (fun h => absurd h hw) fun _ h => absurd h hw

theorem waits_erase {woken : Option Nat} (hca : s.callers t = some ca)
    (hn : s.erase t ca woken = some s') : Waits s (.erase t woken) s' := by
  have hsub : ∀ p ∈ eraseXid s.calls ca.xid, p ∈ s.calls := fun p hp => (mem_eraseXid.mp hp).1
  unfold erase at hn
  dsimp only at hn
  split at hn
  · next hw =>
      obtain ⟨c, hc, rfl⟩ := Option.map_eq_some_iff.mp hn
      exact .erased rfl rfl (fun _ => hc) (fun h => absurd hw (by rw [h]; decide)) fun h =>
        h.update hca { ca with phase := .erased } (fun hd => hd) hsub rfl
  · next hw =>
      split at hn
      · cases hn
        exact .erased rfl rfl (fun h => absurd h hw) (fun _ => rfl) fun h =>
          h.update hca { ca with phase := .erased } (fun hd => hd) hsub rfl
      · cases hn

theorem waits_modify {f : Caller → Caller} (hdone : ∀ ca, ca.done = true → (f ca).done = true) :
    Waits s a (s.modify t f) := by
  refine .quiet rfl rfl (fun _ => rfl) fun h _ => ?_
  cases hca : s.callers t with
  | none =>
      intro p hp c hc
      have hne : p.2 ≠ t := by
        rintro he
        simp only [modify, hca, Option.map_none, he, Function.update_self] at hc
        cases hc
      simp only [modify, Function.update_of_ne hne] at hc
      exact h p hp c hc
  | some ca => exact h.update hca (f ca) (hdone ca) (fun _ hp => hp) (modify_callers hca)

theorem waits_gotPdu (r : Reply) : Waits s (.gotPdu r) (s.gotPdu r) := by
  unfold gotPdu
  dsimp only
  split
  · exact .quiet rfl rfl (fun _ => rfl) fun h _ => h
  · next t _ =>
      have hm : Waits { s with window := updateXidRep s.window r.xid } (.gotPdu r)
          (modify { s with window := updateXidRep s.window r.xid } t (Caller.gotPdu r)) :=
        waits_modify fun _ => done_gotPdu r
      cases hm with
      | quiet hw hc hcalls hdone => exact .quiet hw hc hcalls hdone

theorem waits_of_step (hn : s.step a = some s') : Waits s a s' := by
  cases a with
  | call t proc junk =>
      simp only [step] at hn
      split at hn
      · cases hn
        exact waits_call
      · cases hn
  | leave t =>
      simp only [step] at hn
      split at hn
      · split at hn
        · cases hn
          exact waits_modify fun _ h => h
        · cases hn
      · cases hn
  | erase t woken =>
      simp only [step] at hn
      split at hn
      · next ca hca =>
          split at hn
          · exact waits_erase hca hn
          · cases hn
      · cases hn
  | ret t =>
      simp only [step] at hn
      split at hn
      · split at hn
        · cases hn
          exact waits_modify fun _ h => h
        · cases hn
      · cases hn
  | bound t =>
      simp only [step] at hn
      split at hn
      · split at hn
        · cases hn
          exact .quiet rfl rfl (fun _ => rfl) fun h _ => h
        · cases hn
      · cases hn
  | gotPdu r =>
      cases hn
      exact waits_gotPdu r
  | cancel k =>
      simp only [step] at hn
      split at hn
      · cases hn
      · cases hn
        exact .cancelled (allDone_awaitEmpty.mpr allDone_cancelAll) rfl
  | wake k =>
      obtain ⟨c, hc, rfl⟩ := Option.map_eq_some_iff.mp hn
      exact .woken hc
  | resume k =>
      obtain ⟨c, hc, rfl⟩ := Option.map_eq_some_iff.mp hn
      exact .resumed hc

/-! ## The invariant -/

/-- One thread at most waits in `cancel`, and while it is parked a call is left
that will wake it. -/
structure Waiting (s : Callers) : Prop where
  waits : s.destroyWaitC.threads ≠ [] → s.destroyWait = true
  done : s.destroyWait = true → s.AllDone
  single : s.destroyWaitC.threads.length ≤ 1
  covered : s.destroyWaitC.parked ≠ [] → s.calls ≠ []

theorem length_threads (c : CondVar Nat) : c.threads.length = c.parked.length + c.woken.length :=
  List.length_append

/-- A thread that goes round the loop of `cancel`. -/
theorem Waiting.awaitEmpty (hthreads : s.destroyWaitC.threads = []) (hdone : s.AllDone) :
    (s.awaitEmpty k).Waiting := by
  unfold Callers.awaitEmpty
  split
  · next hcalls =>
      refine ⟨fun h => absurd hthreads h, fun _ => hdone, by simp [hthreads], fun hp => ?_⟩
      exact absurd (List.append_eq_nil_iff.mp hthreads).1 hp
  · next hcalls =>
      exact ⟨fun _ => rfl, fun _ => hdone, by simp [hthreads], fun _ => hcalls⟩

theorem Waiting.step (h : s.Waiting) (hg : s.NoOverlap a) (hn : s.step a = some s') :
    s'.Waiting := by
  have hsingle := h.single
  rw [length_threads] at hsingle
  cases waits_of_step hn with
  | quiet hw hc hcalls hdone =>
      refine ⟨by rw [hw, hc]; exact h.waits, fun hd => ?_, by rw [hc]; exact h.single, fun hp => ?_⟩
      · exact hdone (h.done (hw ▸ hd)) (hw ▸ hd)
      · rw [hc] at hp
        have hthreads : s.destroyWaitC.threads ≠ [] := fun hnil =>
          hp (List.append_eq_nil_iff.mp hnil).1
        rw [hcalls (h.waits hthreads)]
        exact h.covered hp
  | @erased t woken _ x hw hcalls hsignal hkeep hdone =>
      cases hd : s.destroyWait with
      | false =>
          have hthreads : s.destroyWaitC.threads = [] := by
            by_contra hne
            exact absurd (h.waits hne) (by rw [hd]; decide)
          have hc := hkeep hd
          refine ⟨fun hne => absurd (hc ▸ hthreads) hne, fun hd' => ?_, by rw [hc]; exact h.single,
            fun hp => ?_⟩
          · exact absurd (hw ▸ hd') (by rw [hd]; decide)
          · rw [hc] at hp
            exact absurd (List.append_eq_nil_iff.mp hthreads).1 hp
      | true =>
          have hs := hsignal hd
          have hlen := (CondVar.threads_signal hs).length_eq
          refine ⟨fun _ => hw.trans hd, fun _ => hdone (h.done hd), by rw [hlen]; exact h.single,
            fun hp => ?_⟩
          -- the signal of the last call to go has woken the only thread
          obtain ⟨hp₀, hwoken⟩ := CondVar.length_woken_signal hs hp
          have h₁ := List.length_pos_iff.mpr hp
          rw [length_threads, length_threads] at hlen
          omega
  | cancelled hdone he =>
      have hthreads : s.destroyWaitC.threads = [] := hg
      rw [he]
      exact Waiting.awaitEmpty hthreads (allDone_awaitEmpty.mp (he ▸ hdone))
  | @woken k c hc =>
      have hlen := (CondVar.threads_wake hc).length_eq
      obtain ⟨hk, rfl⟩ := CondVar.wake_inv hc
      have hne : s.destroyWaitC.threads ≠ [] := List.ne_nil_of_mem (List.mem_append_left _ hk)
      refine ⟨fun _ => h.waits hne, h.done, by rw [hlen]; exact h.single, fun hp => ?_⟩
      have h₁ := List.length_pos_iff.mpr hp
      rw [length_threads] at hlen
      simp only [List.length_cons, length_threads] at hlen h₁
      omega
  | @resumed k c hc =>
      have hlen := (CondVar.threads_resume hc).length_eq
      have hne : s.destroyWaitC.threads ≠ [] := by
        intro hnil
        rw [hnil] at hlen
        cases hlen
      refine Waiting.awaitEmpty (List.eq_nil_of_length_eq_zero ?_) (h.done (h.waits hne))
      have := h.single
      simp only [List.length_cons] at hlen
      simp only
      omega

/-- What is left to do for a caller in `calls_`. -/
def leaves (callers : Nat → Option Caller) (p : UInt32 × Nat) : Nat :=
  if (callers p.2).any (·.phase = .looping) then 1 else 0

/-- What is left to do before nobody waits in `cancel`. -/
def pendingWork (s : Callers) : Nat :=
  3 * s.calls.length + (s.calls.map (leaves s.callers)).sum + s.destroyWaitC.woken.length

theorem exists_resume (hcalls : s.calls = []) {k : Nat} (hk : k ∈ s.destroyWaitC.woken) :
    ∃ s', s.step (.resume k) = some s' ∧ s'.pendingWork < s.pendingWork := by
  obtain ⟨c, hc⟩ := CondVar.exists_resume hk
  have hn : s.step (.resume k) = some ({ s with destroyWaitC := c }.awaitEmpty k) := by
    simp only [step, hc, Option.map_some]
  refine ⟨_, hn, ?_⟩
  have := CondVar.length_woken_resume hc
  simp only [pendingWork, awaitEmpty, hcalls, if_true, List.length_nil, List.map_nil, List.sum_nil]
  omega

/-- With two threads in `cancel` the signal of the last call wakes one of them.
The other one is parked while no call is left that could wake it. -/
theorem cancel_overlap_strands : ∃ s, callersMachine.Reachable s ∧ s.destroyWaitC.parked = [8] ∧
    s.destroyWaitC.woken = [] ∧ s.calls = [] ∧ s.destroyWait = true := by
  obtain ⟨s, hs, hp⟩ := @Machine.exists_reachable_of_run _ _ callersMachine
    (fun s => decide (s.destroyWaitC.parked = [8] ∧ s.destroyWaitC.woken = [] ∧ s.calls = [] ∧
      s.destroyWait = true))
    [.call 0 RpcConst.bind 5, .cancel 8, .cancel 9, .leave 0, .erase 0 (some 9), .resume 9]
    (by decide)
  exact ⟨s, hs, of_decide_eq_true hp⟩

end RpcLock.Rpcc.Callers
