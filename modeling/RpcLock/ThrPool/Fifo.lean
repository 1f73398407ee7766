import RpcLock.Library.CondVar

/-!
# The bounded queue

`fifo<T>` is a queue under a mutex `m_` with two condition variables: `deq` waits
on `non_empty_c_` while the queue is empty, and a blocking `enq` waits on
`has_space_c_` while it is full.  A step is one critical section: the entry of
`enq` or `deq` up to its return or its wait, or the same code after the wait.
The thread a signal wakes is an argument.

`Fifo.Inv` says that nothing is lost between the two sides: when a thread is
parked although it could go on, enough others have been woken.
-/

namespace RpcLock

/-- `fifo<T>`.  The threads `ρ` call `deq`, the threads `ω` call `enq`. -/
structure Fifo (α ρ ω : Type*) where
  q : List α
  /-- q went non-empty -/
  nonEmptyC : CondVar ρ
  /-- q is no longer overfull -/
  hasSpaceC : CondVar ω
  /-- The maximum capacity of the queue, and no limit if it is zero. -/
  max : Nat

/-- Where a critical section of `enq` ends. -/
inductive EnqResult where
  | returned (b : Bool)
  /-- In `pthread_cond_wait`. -/
  | waits
deriving DecidableEq, Repr

namespace Fifo

variable {α ρ ω : Type*}

/-- `fifo<T>::fifo`. -/
def init (limit : Nat) : Fifo α ρ ω where
  q := []
  nonEmptyC := .empty
  hasSpaceC := .empty
  max := limit

section

variable [DecidableEq ρ]

/-- `enq` by the thread `t`.  `w` is the thread the signal wakes. -/
def enq (f : Fifo α ρ ω) (t : ω) (e : α) (blocking : Bool) (w : Option ρ) :
    Option (Fifo α ρ ω × EnqResult) :=
  if f.max = 0 ∨ f.q.length < f.max then
    (f.nonEmptyC.signal w).map fun c =>
      ({ f with q := f.q ++ [e], nonEmptyC := c }, .returned true)
  else if w.isSome then
    none
  else if blocking then
    some ({ f with hasSpaceC := f.hasSpaceC.park t }, .waits)
  else
    some (f, .returned false)

/-- A spurious wakeup of a thread in `deq`. -/
def wakeDeq (f : Fifo α ρ ω) (t : ρ) : Option (Fifo α ρ ω) :=
  (f.nonEmptyC.wake t).map fun c => { f with nonEmptyC := c }

end

section

variable [DecidableEq ω]

/-- `deq` by the thread `t`, with the entry it returns.  There is none when the
thread waits. -/
def deq (f : Fifo α ρ ω) (t : ρ) (w : Option ω) : Option (Fifo α ρ ω × Option α) :=
  match f.q with
  | [] =>
      if w.isSome then none else some ({ f with nonEmptyC := f.nonEmptyC.park t }, none)
  | e :: rest =>
      if f.max ≠ 0 ∧ rest.length < f.max then
        (f.hasSpaceC.signal w).map fun c => ({ f with q := rest, hasSpaceC := c }, some e)
      else if w.isSome then
        none
      else
        some ({ f with q := rest }, some e)

/-- A spurious wakeup of a thread in `enq`. -/
def wakeEnq (f : Fifo α ρ ω) (t : ω) : Option (Fifo α ρ ω) :=
  (f.hasSpaceC.wake t).map fun c => { f with hasSpaceC := c }

end

variable [DecidableEq ρ] [DecidableEq ω]

/-- A woken `deq` has the mutex again and goes round its loop. -/
def resumeDeq (f : Fifo α ρ ω) (t : ρ) (w : Option ω) : Option (Fifo α ρ ω × Option α) :=
  (f.nonEmptyC.resume t).bind fun c => { f with nonEmptyC := c }.deq t w

/-- A woken `enq` has the mutex again and goes round its loop. -/
def resumeEnq (f : Fifo α ρ ω) (t : ω) (e : α) (blocking : Bool) (w : Option ρ) :
    Option (Fifo α ρ ω × EnqResult) :=
  (f.hasSpaceC.resume t).bind fun c => { f with hasSpaceC := c }.enq t e blocking w

/-! ## No entry and no space is forgotten -/

/-- A queue that `k` woken threads in `deq` and `l` woken threads in `enq` have
locked.  Parked threads in `deq` come with a woken one for each entry, parked
threads in `enq` with a woken one for each free place. -/
structure Inv (f : Fifo α ρ ω) (k l : Nat) : Prop where
  pos : 0 < f.max
  length_le : f.q.length ≤ f.max
  entries : f.nonEmptyC.parked ≠ [] → f.q.length ≤ f.nonEmptyC.woken.length + k
  space : f.hasSpaceC.parked ≠ [] → f.max ≤ f.q.length + f.hasSpaceC.woken.length + l

variable {f f' : Fifo α ρ ω} {k l : Nat}

omit [DecidableEq ρ] [DecidableEq ω] in
theorem Inv.init {limit : Nat} (h : 0 < limit) : (init limit : Fifo α ρ ω).Inv 0 0 where
  pos := h
  length_le := Nat.zero_le _
  entries h := absurd rfl h
  space h := absurd rfl h

omit [DecidableEq ω] in
theorem Inv.resumedDeq {t : ρ} {c : CondVar ρ} (hinv : f.Inv 0 0)
    (h : f.nonEmptyC.resume t = some c) : { f with nonEmptyC := c }.Inv 1 0 := by
  obtain ⟨ht, rfl⟩ := CondVar.resume_inv h
  have hlen := List.length_erase_add_one ht
  refine ⟨hinv.pos, hinv.length_le, fun hp => ?_, hinv.space⟩
  have := hinv.entries hp
  simp only
  omega

omit [DecidableEq ρ] in
theorem Inv.resumedEnq {t : ω} {c : CondVar ω} (hinv : f.Inv 0 0)
    (h : f.hasSpaceC.resume t = some c) : { f with hasSpaceC := c }.Inv 0 1 := by
  obtain ⟨ht, rfl⟩ := CondVar.resume_inv h
  have hlen := List.length_erase_add_one ht
  refine ⟨hinv.pos, hinv.length_le, hinv.entries, fun hp => ?_⟩
  have := hinv.space hp
  simp only
  omega

omit [DecidableEq ω] in
theorem Inv.wokenDeq {t : ρ} {c : CondVar ρ} (hinv : f.Inv 0 0)
    (h : f.nonEmptyC.wake t = some c) : { f with nonEmptyC := c }.Inv 0 0 := by
  obtain ⟨ht, rfl⟩ := CondVar.wake_inv h
  refine ⟨hinv.pos, hinv.length_le, fun _ => ?_, hinv.space⟩
  have := hinv.entries (List.ne_nil_of_mem ht)
  simp only [List.length_cons]
  omega

omit [DecidableEq ρ] in
theorem Inv.wokenEnq {t : ω} {c : CondVar ω} (hinv : f.Inv 0 0)
    (h : f.hasSpaceC.wake t = some c) : { f with hasSpaceC := c }.Inv 0 0 := by
  obtain ⟨ht, rfl⟩ := CondVar.wake_inv h
  refine ⟨hinv.pos, hinv.length_le, hinv.entries, fun _ => ?_⟩
  have := hinv.space (List.ne_nil_of_mem ht)
  simp only [List.length_cons]
  omega

/-! ## What the critical sections do -/

/-- What `enq` leaves, by its result. -/
inductive Enqueued (f : Fifo α ρ ω) (t : ω) (e : α) (f' : Fifo α ρ ω) : Bool → EnqResult → Prop where
  | pushed {b} : f.q.length < f.max → f'.q = f.q ++ [e] → f'.hasSpaceC = f.hasSpaceC →
      f'.nonEmptyC.woken.length ≤ f.nonEmptyC.woken.length + 1 →
      Enqueued f t e f' b (.returned true)
  | parked : f.q.length = f.max → f'.q = f.q → f'.nonEmptyC = f.nonEmptyC →
      f'.hasSpaceC = f.hasSpaceC.park t → Enqueued f t e f' true .waits
  | refused : f.q.length = f.max → f' = f → Enqueued f t e f' false (.returned false)

omit [DecidableEq ω] in
/-- `enq` on a queue that a woken `enq` may have locked. -/
theorem Inv.enq {t : ω} {e : α} {b : Bool} {w : Option ρ} {r : EnqResult} (hinv : f.Inv 0 l)
    (hl : l ≤ 1) (h : f.enq t e b w = some (f', r)) :
    Enqueued f t e f' b r ∧ f'.Inv 0 0 ∧ f'.max = f.max ∧
      f'.nonEmptyC.threads.Perm f.nonEmptyC.threads := by
  have hpos := hinv.pos
  have hle := hinv.length_le
  unfold Fifo.enq at h
  split at h
  · next hspace =>
      obtain ⟨c, hc, hr⟩ := Option.map_eq_some_iff.mp h
      cases hr
      have hlt : f.q.length < f.max := hspace.resolve_left (by omega)
      refine ⟨.pushed hlt rfl rfl (CondVar.length_woken_signal_le hc),
        ⟨hpos, ?_, fun hp => ?_, fun hp => ?_⟩, rfl, CondVar.threads_signal hc⟩
      · simp only [List.length_append, List.length_singleton]
        omega
      · obtain ⟨hp₀, hlen⟩ := CondVar.length_woken_signal hc hp
        have := hinv.entries hp₀
        simp only [List.length_append, List.length_singleton]
        omega
      · have := hinv.space hp
        simp only [List.length_append, List.length_singleton]
        omega
  · next hfull =>
      have heq : f.q.length = f.max := by omega
      split at h
      · cases h
      split at h
      · next hb =>
          cases h
          subst hb
          refine ⟨.parked heq rfl rfl rfl, ⟨hpos, hle, hinv.entries, fun _ => ?_⟩, rfl, .refl _⟩
          exact heq ▸ Nat.le_trans (Nat.le_add_right _ _) (Nat.le_add_right _ _)
      · next hb =>
          cases h
          obtain rfl : b = false := by simpa using hb
          refine ⟨.refused heq rfl, ⟨hpos, hle, hinv.entries, fun _ => ?_⟩, rfl, .refl _⟩
          exact heq ▸ Nat.le_trans (Nat.le_add_right _ _) (Nat.le_add_right _ _)

/-- What `deq` leaves, by its result. -/
inductive Dequeued (f : Fifo α ρ ω) (t : ρ) (f' : Fifo α ρ ω) : Option α → Prop where
  | parked : f.q = [] → f'.q = [] → f'.nonEmptyC = f.nonEmptyC.park t →
      f'.hasSpaceC = f.hasSpaceC → Dequeued f t f' none
  | popped {e} : f.q = e :: f'.q → f'.nonEmptyC = f.nonEmptyC →
      f'.hasSpaceC.woken.length ≤ f.hasSpaceC.woken.length + 1 → Dequeued f t f' (some e)

omit [DecidableEq ρ] in
/-- `deq` on a queue that a woken `deq` may have locked. -/
theorem Inv.deq {t : ρ} {w : Option ω} {r : Option α} (hinv : f.Inv k 0) (hk : k ≤ 1)
    (h : f.deq t w = some (f', r)) :
    Dequeued f t f' r ∧ f'.Inv 0 0 ∧ f'.max = f.max ∧
      f'.hasSpaceC.threads.Perm f.hasSpaceC.threads := by
  have hpos := hinv.pos
  have hle := hinv.length_le
  unfold Fifo.deq at h
  split at h
  · next hq =>
      split at h
      · cases h
      · cases h
        refine ⟨.parked hq hq rfl rfl, ⟨hpos, hle, fun _ => ?_, hinv.space⟩, rfl, .refl _⟩
        simp [hq]
  · next e rest hq =>
      simp only [hq, List.length_cons] at hle
      have hsignals : f.max ≠ 0 ∧ rest.length < f.max := ⟨by omega, by omega⟩
      rw [if_pos hsignals] at h
      obtain ⟨c, hc, hr⟩ := Option.map_eq_some_iff.mp h
      cases hr
      refine ⟨.popped hq rfl (CondVar.length_woken_signal_le hc),
        ⟨hpos, by simp only; omega, fun hp => ?_, fun hp => ?_⟩, rfl, CondVar.threads_signal hc⟩
      · have := hinv.entries hp
        simp only [hq, List.length_cons] at this
        simp only
        omega
      · obtain ⟨hp₀, hlen⟩ := CondVar.length_woken_signal hc hp
        have := hinv.space hp₀
        simp only [hq, List.length_cons] at this
        simp only
        omega

/-! ## The sections can be entered -/

omit [DecidableEq ω] in
/-- `enq` never fails a `VERIFY`. -/
theorem exists_enq (f : Fifo α ρ ω) (t : ω) (e : α) (b : Bool) : ∃ w r, f.enq t e b w = some r := by
  by_cases hspace : f.max = 0 ∨ f.q.length < f.max
  · obtain ⟨w, c, hc⟩ := f.nonEmptyC.exists_signal
    exact ⟨w, _, by rw [Fifo.enq, if_pos hspace, hc, Option.map_some]⟩
  · cases b with
    | true => exact ⟨none, _, by rw [Fifo.enq, if_neg hspace]; rfl⟩
    | false => exact ⟨none, _, by rw [Fifo.enq, if_neg hspace]; rfl⟩

omit [DecidableEq ρ] in
/-- `deq` never fails a `VERIFY`. -/
theorem exists_deq (f : Fifo α ρ ω) (t : ρ) : ∃ w r, f.deq t w = some r := by
  cases hq : f.q with
  | nil => exact ⟨none, _, by rw [Fifo.deq, hq]; rfl⟩
  | cons e rest =>
      by_cases hsignals : f.max ≠ 0 ∧ rest.length < f.max
      · obtain ⟨w, c, hc⟩ := f.hasSpaceC.exists_signal
        exact ⟨w, _, by simp only [Fifo.deq, hq]; rw [if_pos hsignals, hc, Option.map_some]⟩
      · exact ⟨none, _, by simp only [Fifo.deq, hq]; rw [if_neg hsignals]; rfl⟩

end Fifo

end RpcLock
