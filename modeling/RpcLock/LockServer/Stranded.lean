import RpcLock.LockServer.LockServer

/-!
# Waiters and the signal of `release`

`release` signals `lock_cond_` once, and the condition variable is shared by all
locks.  The woken thread may want another lock.  It then finds that lock held
and waits again, and nobody takes the lock that was released.

A release is right when nobody parked wants its lock, when somebody woken wants
it, or when the signal wakes somebody who does.  Runs of right releases strand
nobody, and the first release that is not right does.
-/

namespace RpcLock.LockServer

/-- A parked `acquire` of a free lock comes with a woken one. -/
def NoStranded (s : LockServer) : Prop :=
  ∀ lid, s.lockMap lid = none → s.lockCond.Covered fun a => a.lid = lid

/-- Every unfinished `acquire` is parked, and one of them waits for a free lock. -/
def Wedged (s : LockServer) : Prop :=
  s.lockCond.woken = [] ∧ ∃ a ∈ s.lockCond.parked, s.lockMap a.lid = none

instance (s : LockServer) : Decidable s.Wedged := inferInstanceAs (Decidable (_ ∧ _))

/-- The release reaches somebody who wants its lock, if there is one. -/
def SignalsRight (s : LockServer) : LockAct → Prop
  | .release clt lid w => s.lockMap lid = some clt →
      (∀ a ∈ s.lockCond.parked, ¬ a.lid = lid) ∨ (∃ b ∈ s.lockCond.woken, b.lid = lid) ∨
        ∃ a ∈ w, a.lid = lid
  | _ => True

instance (s : LockServer) (b : LockAct) : Decidable (s.SignalsRight b) :=
  match b with
  | .release _ _ _ => inferInstanceAs (Decidable (_ → _))
  | .acquire _ | .resume _ | .spurious _ => .isTrue trivial

variable {s s' : LockServer} {b : LockAct}

theorem noStranded_init : init.NoStranded := fun _ _ => CondVar.covered_empty

theorem NoStranded.not_wedged (h : s.NoStranded) : ¬ s.Wedged := by
  rintro ⟨hnil, a, ha, hfree⟩
  obtain ⟨b, hb, -⟩ := h a.lid hfree ⟨a, ha, rfl⟩
  rw [hnil] at hb
  cases hb

/-- A free lock stays free or is granted by a step, and only a release frees one. -/
theorem noStranded_next (h : s.NoStranded) (hn : s.next b = some s') :
    s'.NoStranded ↔ s.SignalsRight b := by
  cases step_of_next hn with
  | @grant a hfree =>
      refine iff_of_true (fun lid hl => ?_) trivial
      by_cases hla : lid = a.lid
      · subst hla
        simp at hl
      · exact h lid (by simpa [hla] using hl)
  | @park a c hheld =>
      refine iff_of_true (fun lid hl => (h lid hl).park ?_) trivial
      rintro rfl
      simp [hheld] at hl
  | @grantWoken a c hc hfree =>
      refine iff_of_true (fun lid hl => ?_) trivial
      by_cases hla : lid = a.lid
      · subst hla
        simp at hl
      · exact (h lid (by simpa [hla] using hl)).resume (Ne.symm hla) hc
  | @parkWoken a c d hc hheld =>
      refine iff_of_true (fun lid hl => ?_) trivial
      have hla : a.lid ≠ lid := by
        rintro rfl
        simp [hheld] at hl
      exact ((h lid hl).resume hla hc).park hla
  | spurious hc => exact iff_of_true (fun lid hl => (h lid hl).wake hc) trivial
  | @release clt lid w c hheld hc =>
      have hiff := CondVar.covered_signal_iff (P := fun a => a.lid = lid) hc
      constructor
      · intro hs _
        exact hiff.mp (hs lid (by simp))
      · intro hr l hl
        by_cases hll : l = lid
        · subst hll
          exact hiff.mpr (hr hheld)
        · have hc' := h l (by simpa [hll] using hl)
          rcases CondVar.signal_inv hc with ⟨-, -, rfl⟩ | ⟨x, -, hw⟩
          · exact hc'
          · exact hc'.wake hw
  | @retry clt lid hne => exact iff_of_true h fun hheld => absurd hheld hne

/-- Where all waiters want the released lock, its signal is right. -/
theorem signalsRight_of_alike {clt : Int32} {lid : UInt64} {w : Option Acquire}
    (h : ∀ a ∈ s.lockCond.parked, a.lid = lid)
    (hn : s.next (.release clt lid w) = some s') : s.SignalsRight (.release clt lid w) := by
  intro hheld
  cases step_of_next hn with
  | release _ hc =>
      rcases CondVar.signal_inv hc with ⟨-, hnil, -⟩ | ⟨x, rfl, hw⟩
      · exact .inl (by simp [hnil])
      · exact .inr (.inr ⟨x, rfl, h x (CondVar.wake_inv hw).1⟩)
  | retry hne => exact absurd hheld hne

/-- As long as every release was right, nobody is stranded, and the next step
strands somebody exactly if it is a release that is not right. -/
theorem no_stranded_waiter (h : lockMachine.ReachedVia SignalsRight s) :
    s.NoStranded ∧ ¬ s.Wedged ∧
      ∀ b s', s.next b = some s' → (s'.NoStranded ↔ s.SignalsRight b) := by
  have hs : s.NoStranded :=
    h.invariant noStranded_init fun _ _ _ hs hr hn => (noStranded_next hs hn).mpr hr
  exact ⟨hs, hs.not_wedged, fun _ _ => noStranded_next hs⟩

/-! ## Two locks -/

/-- Client 1 holds the locks 1 and 2, and client 2 waits for both. -/
def contended : List LockAct :=
  [.acquire ⟨1, 1, 1⟩, .acquire ⟨2, 1, 2⟩, .acquire ⟨3, 2, 1⟩, .acquire ⟨4, 2, 2⟩]

/-- The release of lock 1 wakes the waiter of lock 1. -/
theorem no_stranded_waiter_contended : ∃ s, lockMachine.ReachedVia SignalsRight s ∧
    s.lockCond.parked = [⟨4, 2, 2⟩] ∧ s.lockMap 1 = none ∧ s.NoStranded := by
  obtain ⟨s, hs, hp⟩ := @Machine.exists_reachedVia_of_run _ _ lockMachine SignalsRight _
    (fun s => decide (s.lockCond.parked = [⟨4, 2, 2⟩] ∧ s.lockMap 1 = none))
    (contended ++ [.release 1 1 (some ⟨3, 2, 1⟩)]) (by decide)
  obtain ⟨hparked, hfree⟩ := of_decide_eq_true hp
  exact ⟨s, hs, hparked, hfree, (no_stranded_waiter hs).1⟩

/-- The release of lock 1 wakes the waiter of lock 2, which waits again.  Lock 1
is free, its waiter is parked, and no wakeup is pending. -/
theorem strands_waiter : ∃ s, lockMachine.Reachable s ∧ s.Wedged := by
  obtain ⟨s, hs, hp⟩ := @Machine.exists_reachable_of_run _ _ lockMachine
    (fun s => decide s.Wedged)
    (contended ++ [.release 1 1 (some ⟨4, 2, 2⟩), .resume ⟨4, 2, 2⟩]) (by decide)
  exact ⟨s, hs, of_decide_eq_true hp⟩

end RpcLock.LockServer
