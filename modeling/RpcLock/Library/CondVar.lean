import Mathlib.Data.List.Basic

/-!
# Condition variables

A condition variable with the threads inside `pthread_cond_wait` on it.  A
thread is parked until a signal, a broadcast or a spurious wakeup wakes it, and
a woken thread still has to get the mutex back before it goes on.  Which thread
a signal wakes is a choice of the scheduler, so `signal` takes it as an
argument.

`Covered c P` says that a parked thread of the kind `P` is never alone: if there
is one, a thread of that kind has been woken.  When `P` is the threads that
could go on, this is the absence of lost wakeups.
-/

/-- The threads inside `pthread_cond_wait` on one condition variable. -/
structure CondVar (α : Type*) where
  parked : List α
  /-- Woken, and about to take the mutex. -/
  woken : List α
deriving DecidableEq, Repr

namespace CondVar

variable {α : Type*}

def empty : CondVar α := ⟨[], []⟩

/-- `pthread_cond_wait` releases the mutex and parks the thread. -/
def park (c : CondVar α) (a : α) : CondVar α := { c with parked := a :: c.parked }

/-- `pthread_cond_broadcast`. -/
def broadcast (c : CondVar α) : CondVar α := ⟨[], c.parked ++ c.woken⟩

/-- All threads inside the wait. -/
def threads (c : CondVar α) : List α := c.parked ++ c.woken

section

variable [DecidableEq α]

/-- A parked thread is woken, by a signal or for no reason. -/
def wake (c : CondVar α) (a : α) : Option (CondVar α) :=
  if a ∈ c.parked then some ⟨c.parked.erase a, a :: c.woken⟩ else none

/-- `pthread_cond_signal`.  It wakes one thread, and none only if none is
parked. -/
def signal (c : CondVar α) : Option α → Option (CondVar α)
  | some a => c.wake a
  | none => if c.parked.isEmpty then some c else none

/-- A woken thread has the mutex again. -/
def resume (c : CondVar α) (a : α) : Option (CondVar α) :=
  if a ∈ c.woken then some { c with woken := c.woken.erase a } else none

end

/-- A parked thread of the kind `P` comes with a woken one. -/
def Covered (c : CondVar α) (P : α → Prop) : Prop :=
  (∃ a ∈ c.parked, P a) → ∃ b ∈ c.woken, P b

variable {c c' : CondVar α} {a : α} {w : Option α} {P : α → Prop}

theorem covered_empty : (empty : CondVar α).Covered P := by
  rintro ⟨a, ha, -⟩
  cases ha

theorem Covered.park (h : c.Covered P) (ha : ¬ P a) : (c.park a).Covered P := by
  rintro ⟨b, hb, hp⟩
  rcases List.mem_cons.mp hb with rfl | hb
  · exact absurd hp ha
  · exact h ⟨b, hb, hp⟩

variable [DecidableEq α]

theorem wake_inv (h : c.wake a = some c') :
    a ∈ c.parked ∧ c' = ⟨c.parked.erase a, a :: c.woken⟩ := by
  unfold wake at h
  split at h
  · next ha =>
      cases h
      exact ⟨ha, rfl⟩
  · cases h

theorem resume_inv (h : c.resume a = some c') :
    a ∈ c.woken ∧ c' = { c with woken := c.woken.erase a } := by
  unfold resume at h
  split at h
  · next ha =>
      cases h
      exact ⟨ha, rfl⟩
  · cases h

theorem signal_inv (h : c.signal w = some c') :
    (w = none ∧ c.parked = [] ∧ c' = c) ∨ ∃ a, w = some a ∧ c.wake a = some c' := by
  cases w with
  | some a => exact .inr ⟨a, rfl, h⟩
  | none =>
      simp only [signal] at h
      split at h
      · next he =>
          cases h
          exact .inl ⟨rfl, List.isEmpty_iff.mp he, rfl⟩
      · cases h

/-- A signal is always possible. -/
theorem exists_signal (c : CondVar α) : ∃ w c', c.signal w = some c' := by
  obtain ⟨parked, woken⟩ := c
  cases parked with
  | nil => exact ⟨none, _, rfl⟩
  | cons a as =>
      exact ⟨some a, ⟨(a :: as).erase a, a :: woken⟩, if_pos List.mem_cons_self⟩

theorem Covered.wake (h : c.Covered P) (hw : c.wake a = some c') : c'.Covered P := by
  obtain ⟨-, rfl⟩ := wake_inv hw
  rintro ⟨b, hb, hp⟩
  obtain ⟨d, hd, hpd⟩ := h ⟨b, List.mem_of_mem_erase hb, hp⟩
  exact ⟨d, List.mem_cons_of_mem a hd, hpd⟩

/-- A thread of another kind may go on. -/
theorem Covered.resume (h : c.Covered P) (ha : ¬ P a) (hr : c.resume a = some c') :
    c'.Covered P := by
  obtain ⟨-, rfl⟩ := resume_inv hr
  intro hp
  obtain ⟨d, hd, hpd⟩ := h hp
  have hda : d ≠ a := by
    rintro rfl
    exact ha hpd
  exact ⟨d, (List.mem_erase_of_ne hda).mpr hd, hpd⟩

/-! ## The threads in the wait -/

omit [DecidableEq α] in
@[simp] theorem threads_empty : (empty : CondVar α).threads = [] := rfl

omit [DecidableEq α] in
@[simp] theorem threads_park (c : CondVar α) (a : α) : (c.park a).threads = a :: c.threads := rfl

theorem threads_wake (h : c.wake a = some c') : c'.threads.Perm c.threads := by
  obtain ⟨ha, rfl⟩ := wake_inv h
  exact List.perm_middle.trans ((List.perm_cons_erase ha).symm.append_right c.woken)

theorem threads_signal (h : c.signal w = some c') : c'.threads.Perm c.threads := by
  rcases signal_inv h with ⟨-, -, rfl⟩ | ⟨a, -, hw⟩
  · exact .refl _
  · exact threads_wake hw

theorem threads_resume (h : c.resume a = some c') : c.threads.Perm (a :: c'.threads) := by
  obtain ⟨ha, rfl⟩ := resume_inv h
  exact ((List.perm_cons_erase ha).append_left c.parked).trans List.perm_middle

/-- A signal that leaves threads parked has woken one. -/
theorem length_woken_signal (h : c.signal w = some c') (hp : c'.parked ≠ []) :
    c.parked ≠ [] ∧ c'.woken.length = c.woken.length + 1 := by
  rcases signal_inv h with ⟨-, hnil, rfl⟩ | ⟨a, -, hw⟩
  · exact absurd hnil hp
  · obtain ⟨ha, rfl⟩ := wake_inv hw
    exact ⟨List.ne_nil_of_mem ha, rfl⟩

theorem length_woken_signal_le (h : c.signal w = some c') :
    c'.woken.length ≤ c.woken.length + 1 := by
  rcases signal_inv h with ⟨-, -, rfl⟩ | ⟨a, -, hw⟩
  · exact Nat.le_succ _
  · obtain ⟨-, rfl⟩ := wake_inv hw
    exact Nat.le_refl _

theorem length_woken_resume (h : c.resume a = some c') :
    c'.woken.length + 1 = c.woken.length := by
  obtain ⟨ha, rfl⟩ := resume_inv h
  exact List.length_erase_add_one ha

theorem exists_resume (ha : a ∈ c.woken) : ∃ c', c.resume a = some c' := ⟨_, if_pos ha⟩

/-- What a signal must wake for the kind `P` to be covered, whether or not it was
before. -/
theorem covered_signal_iff (h : c.signal w = some c') :
    c'.Covered P ↔
      (∀ a ∈ c.parked, ¬ P a) ∨ (∃ b ∈ c.woken, P b) ∨ ∃ a ∈ w, P a := by
  rcases signal_inv h with ⟨rfl, hnil, rfl⟩ | ⟨x, rfl, hw⟩
  · simp [Covered, hnil]
  · obtain ⟨hx, rfl⟩ := wake_inv hw
    constructor
    · intro hc
      by_cases hpx : P x
      · exact .inr (.inr ⟨x, rfl, hpx⟩)
      · refine or_iff_not_imp_left.mpr fun hsome => .inl ?_
        push Not at hsome
        obtain ⟨a, ha, hp⟩ := hsome
        have hax : a ≠ x := by
          rintro rfl
          exact hpx hp
        obtain ⟨b, hb, hpb⟩ := hc ⟨a, (List.mem_erase_of_ne hax).mpr ha, hp⟩
        rcases List.mem_cons.mp hb with rfl | hb
        · exact absurd hpb hpx
        · exact ⟨b, hb, hpb⟩
    · rintro (hnone | ⟨b, hb, hp⟩ | ⟨a, ha, hp⟩) ⟨d, hd, hpd⟩
      · exact absurd hpd (hnone d (List.mem_of_mem_erase hd))
      · exact ⟨b, List.mem_cons_of_mem x hb, hp⟩
      · cases ha
        exact ⟨x, List.mem_cons_self, hp⟩

end CondVar
