import RpcLock.ThrPool.ThrPool

/-!
# The steps of the thread pool

`Runs` reads the step function back, with the sections of the queue as they are
called.  `Waits` ties the threads inside the two condition variables to what the
threads are doing.  Under it a step is one of `Step`: what it does to the queue,
to one thread or to the destructor, and what it shows.
-/

namespace RpcLock

/-- Whether the destructor is in the wait of `enq`. -/
def Dtor.isWaiting : Dtor → Bool
  | .waiting _ _ => true
  | _ => false

namespace ThrPool

variable {n : Nat} {p p' : ThrPool n} {es : PoolTrace n}

/-- Who waits where. -/
structure Waits (p : ThrPool n) : Prop where
  fifo : p.jobq.Inv 0 0
  max : p.jobq.max = 100 * n
  nodup : p.jobq.nonEmptyC.threads.Nodup
  workers : ∀ i, i ∈ p.jobq.nonEmptyC.threads ↔ p.th i = .waiting
  dtor : p.jobq.hasSpaceC.threads.length = p.dtor.isWaiting.toNat
  /-- The destructor waits with a pill. -/
  pill : ∀ i j, p.dtor = .waiting i j → j.isPill = true

/-- What a label stands for, by the section of the queue it runs. -/
inductive Runs (p : ThrPool n) : ThrPoolAct n → ThrPool n × PoolTrace n → Prop where
  | addJob {j w f o} : p.dtor = .notCalled → j.isPill = false →
      p.jobq.enq () j false w = some (f, o) →
      Runs p (.addJob j w) ({ p with jobq := f }, enqEvents j o)
  | takeJob {i w r} : p.th i = .taking → p.jobq.deq i w = some r →
      Runs p (.takeJob i w) (p.afterDeq i r)
  | resume {i w c r} : p.th i = .waiting → p.jobq.nonEmptyC.resume i = some c →
      Fifo.deq { p.jobq with nonEmptyC := c } i w = some r → Runs p (.resume i w) (p.afterDeq i r)
  | spurious {i c} : p.jobq.nonEmptyC.wake i = some c →
      Runs p (.spurious i) ({ p with jobq := { p.jobq with nonEmptyC := c } }, [])
  | finish {i j} : p.th i = .running j →
      Runs p (.finish i) ({ p with th := Function.update p.th i .taking }, [.ran i j])
  | destroy : p.dtor = .notCalled → Runs p .destroy ({ p with dtor := loop n 0 }, [])
  | pill {i a w r} : p.dtor = .pills i → p.jobq.enq () ⟨0, a⟩ true w = some r →
      Runs p (.pill a w) (p.afterPill i ⟨0, a⟩ r)
  | resumePill {i j w c r} : p.dtor = .waiting i j → p.jobq.hasSpaceC.resume () = some c →
      Fifo.enq { p.jobq with hasSpaceC := c } () j true w = some r →
      Runs p (.resumePill w) (p.afterPill i j r)
  | spuriousPill {c} : p.jobq.hasSpaceC.wake () = some c →
      Runs p .spuriousPill ({ p with jobq := { p.jobq with hasSpaceC := c } }, [])
  | join {i} (hi : i < n) : p.dtor = .joining i → p.th ⟨i, hi⟩ = .exited →
      Runs p .join ({ p with dtor := .joining (i + 1) }, [])

theorem runs_of_next {a : ThrPoolAct n} {x : ThrPool n × PoolTrace n} (h : p.next a = some x) :
    Runs p a x := by
  cases a with
  | addJob j w =>
      simp only [ThrPool.next] at h
      split at h
      case isFalse => cases h
      case isTrue hg =>
        obtain ⟨r, hr, rfl⟩ := Option.map_eq_some_iff.mp h
        obtain ⟨⟨f, o⟩, hf, rfl⟩ := Option.map_eq_some_iff.mp hr
        exact .addJob hg.1 hg.2 hf
  | takeJob i w =>
      simp only [ThrPool.next] at h
      split at h
      case isFalse => cases h
      case isTrue hi =>
        obtain ⟨r, hr, rfl⟩ := Option.map_eq_some_iff.mp h
        exact .takeJob hi hr
  | resume i w =>
      simp only [ThrPool.next] at h
      split at h
      case isFalse => cases h
      case isTrue hi =>
        obtain ⟨r, hr, rfl⟩ := Option.map_eq_some_iff.mp h
        obtain ⟨c, hc, hr⟩ := Option.bind_eq_some_iff.mp hr
        exact .resume hi hc hr
  | spurious i =>
      obtain ⟨f, hf, rfl⟩ := Option.map_eq_some_iff.mp h
      obtain ⟨c, hc, rfl⟩ := Option.map_eq_some_iff.mp hf
      exact .spurious hc
  | finish i =>
      simp only [ThrPool.next] at h
      split at h
      case h_2 => cases h
      case h_1 j hi =>
        cases h
        exact .finish hi
  | destroy =>
      simp only [ThrPool.next] at h
      split at h
      case isFalse => cases h
      case isTrue hd =>
        cases h
        exact .destroy hd
  | pill a w =>
      simp only [ThrPool.next] at h
      split at h
      case h_2 => cases h
      case h_1 i hi =>
        obtain ⟨r, hr, rfl⟩ := Option.map_eq_some_iff.mp h
        exact .pill hi hr
  | resumePill w =>
      simp only [ThrPool.next] at h
      split at h
      case h_2 => cases h
      case h_1 i j hi =>
        obtain ⟨r, hr, rfl⟩ := Option.map_eq_some_iff.mp h
        obtain ⟨c, hc, hr⟩ := Option.bind_eq_some_iff.mp hr
        exact .resumePill hi hc hr
  | spuriousPill =>
      obtain ⟨f, hf, rfl⟩ := Option.map_eq_some_iff.mp h
      obtain ⟨c, hc, rfl⟩ := Option.map_eq_some_iff.mp hf
      exact .spuriousPill hc
  | join =>
      simp only [ThrPool.next] at h
      split at h
      case h_2 => cases h
      case h_1 i hi =>
        split at h
        case isFalse => cases h
        case isTrue hlt =>
          split at h
          case isFalse => cases h
          case isTrue hexit =>
            cases h
            exact .join hlt hi hexit

/-- The outcomes of a step. -/
inductive Step (p : ThrPool n) : ThrPool n → PoolTrace n → Prop where
  | accept {f : Fifo Job (Fin n) Unit} {j} :
      p.dtor = .notCalled → j.isPill = false → f.q = p.jobq.q ++ [j] →
      Step p { p with jobq := f } [.enq j true]
  | refuse {j} : p.dtor = .notCalled → Step p p [.enq j false]
  | park {f : Fifo Job (Fin n) Unit} {i} :
      p.th i = .taking ∨ p.th i = .waiting → f.q = p.jobq.q →
      Step p { p with jobq := f, th := Function.update p.th i .waiting } []
  | take {f : Fifo Job (Fin n) Unit} {i j} :
      p.th i = .taking ∨ p.th i = .waiting → j.isPill = false → p.jobq.q = j :: f.q →
      Step p { p with jobq := f, th := Function.update p.th i (.running j) } [.deq i j]
  | exit {f : Fifo Job (Fin n) Unit} {i j} :
      p.th i = .taking ∨ p.th i = .waiting → j.isPill = true → p.jobq.q = j :: f.q →
      Step p { p with jobq := f, th := Function.update p.th i .exited } [.deq i j]
  | wake {f : Fifo Job (Fin n) Unit} : f.q = p.jobq.q → Step p { p with jobq := f } []
  | finish {i j} : p.th i = .running j →
      Step p { p with th := Function.update p.th i .taking } [.ran i j]
  | destroy : p.dtor = .notCalled → Step p { p with dtor := loop n 0 } []
  | push {f : Fifo Job (Fin n) Unit} {i j} :
      p.dtor = .pills i ∨ p.dtor = .waiting i j → j.isPill = true → f.q = p.jobq.q ++ [j] →
      Step p { p with jobq := f, dtor := loop n (i + 1) } [.enq j true]
  | pillWaits {f : Fifo Job (Fin n) Unit} {i j} :
      p.dtor = .pills i ∨ p.dtor = .waiting i j → j.isPill = true → f.q = p.jobq.q →
      Step p { p with jobq := f, dtor := .waiting i j } []
  | join {i} (hi : i < n) : p.dtor = .joining i → p.th ⟨i, hi⟩ = .exited →
      Step p { p with dtor := .joining (i + 1) } []

theorem isWaiting_loop (n i : Nat) : (loop n i).isWaiting = false := by
  unfold loop
  split <;> rfl

theorem loop_ne_waiting (n i k : Nat) (j : Job) : loop n i ≠ .waiting k j := by
  unfold loop
  split <;> exact Dtor.noConfusion

theorem Waits.init (hn : 0 < n) : (init : ThrPool n).Waits where
  fifo := .init (Nat.mul_pos (by decide) hn)
  max := rfl
  nodup := List.nodup_nil
  workers i := by simp [ThrPool.init, Fifo.init]
  dtor := rfl
  pill i j h := by cases h

/-! ## The sections of the queue -/

/-- A section of `deq` by the worker `i`, which is not in the wait. -/
theorem Waits.afterDeq {i : Fin n} {f₀ : Fifo Job (Fin n) Unit} {w : Option Unit}
    {r : Fifo Job (Fin n) Unit × Option Job} {k : Nat} (hw : p.Waits) (hinv : f₀.Inv k 0)
    (hk : k ≤ 1) (hq : f₀.q = p.jobq.q) (hmax : f₀.max = p.jobq.max)
    (hspace : f₀.hasSpaceC = p.jobq.hasSpaceC)
    (hnodup : (i :: f₀.nonEmptyC.threads).Nodup)
    (hothers : ∀ j, j ≠ i → (j ∈ f₀.nonEmptyC.threads ↔ p.th j = .waiting))
    (hi : p.th i = .taking ∨ p.th i = .waiting) (h : f₀.deq i w = some r) :
    (p.afterDeq i r).1.Waits ∧ Step p (p.afterDeq i r).1 (p.afterDeq i r).2 := by
  obtain ⟨f, o⟩ := r
  obtain ⟨hd, hinv', hmax', hperm⟩ := hinv.deq hk h
  have hdtor : f.hasSpaceC.threads.length = p.dtor.isWaiting.toNat := by
    rw [hperm.length_eq, hspace]
    exact hw.dtor
  have hout : i ∉ f₀.nonEmptyC.threads := (List.nodup_cons.mp hnodup).1
  -- the worker is inside the wait afterwards just when it is `.waiting`
  have hworkers : ∀ {x : WorkerState} {l : List (Fin n)}, (i ∈ l ↔ x = .waiting) →
      (∀ j, j ≠ i → (j ∈ l ↔ j ∈ f₀.nonEmptyC.threads)) →
      ∀ j, j ∈ l ↔ Function.update p.th i x j = .waiting := by
    intro x l hself hne j
    by_cases hji : j = i
    · subst hji
      simpa using hself
    · rw [Function.update_of_ne hji, hne j hji]
      exact hothers j hji
  cases hd with
  | parked h₀ h₁ hpark hsame =>
      simp only [ThrPool.afterDeq]
      refine ⟨⟨hinv', hmax'.trans (hmax.trans hw.max), ?_, hworkers ?_ ?_, hdtor, hw.pill⟩,
        .park hi ?_⟩
      · rw [hpark]
        exact hnodup
      · simp [hpark]
      · intro j hji
        simp [hpark, hji]
      · rw [h₁, ← hq, h₀]
  | @popped e h₀ hsame _ =>
      cases hp : e.isPill with
      | true =>
          simp only [ThrPool.afterDeq, hp, if_true]
          refine ⟨⟨hinv', hmax'.trans (hmax.trans hw.max), ?_, hworkers ?_ ?_, hdtor, hw.pill⟩,
            .exit hi hp (hq.symm.trans h₀)⟩
          · exact hsame ▸ (List.nodup_cons.mp hnodup).2
          · simp [hsame, hout]
          · simp [hsame]
      | false =>
          simp only [ThrPool.afterDeq, hp, Bool.false_eq_true, if_false]
          refine ⟨⟨hinv', hmax'.trans (hmax.trans hw.max), ?_, hworkers ?_ ?_, hdtor, hw.pill⟩,
            .take hi hp (hq.symm.trans h₀)⟩
          · exact hsame ▸ (List.nodup_cons.mp hnodup).2
          · simp [hsame, hout]
          · simp [hsame]

/-- A section of `enq` by the destructor, which is not in the wait. -/
theorem Waits.afterPill {i : Nat} {j : Job} {f₀ : Fifo Job (Fin n) Unit} {w : Option (Fin n)}
    {r : Fifo Job (Fin n) Unit × EnqResult} {l : Nat} (hw : p.Waits) (hinv : f₀.Inv 0 l)
    (hl : l ≤ 1) (hq : f₀.q = p.jobq.q) (hmax : f₀.max = p.jobq.max)
    (hentries : f₀.nonEmptyC = p.jobq.nonEmptyC) (hout : f₀.hasSpaceC.threads = [])
    (hi : p.dtor = .pills i ∨ p.dtor = .waiting i j) (hj : j.isPill = true)
    (h : f₀.enq () j true w = some r) :
    (p.afterPill i j r).1.Waits ∧ Step p (p.afterPill i j r).1 (p.afterPill i j r).2 := by
  obtain ⟨f, o⟩ := r
  obtain ⟨he, hinv', hmax', hperm⟩ := hinv.enq hl h
  rw [hentries] at hperm
  have hworkers : ∀ i, i ∈ f.nonEmptyC.threads ↔ p.th i = .waiting :=
    fun i => hperm.mem_iff.trans (hw.workers i)
  have hnodup : f.nonEmptyC.threads.Nodup := hperm.nodup_iff.mpr hw.nodup
  cases he with
  | pushed _ h₁ hsame _ =>
      refine ⟨⟨hinv', hmax'.trans (hmax.trans hw.max), hnodup, hworkers, ?_, ?_⟩,
        .push hi hj (by rw [h₁, hq])⟩
      · simp only [ThrPool.afterPill, isWaiting_loop, hsame, hout]
        rfl
      · intro k e hk
        exact absurd hk (loop_ne_waiting _ _ _ _)
  | parked _ h₁ _ hpark =>
      refine ⟨⟨hinv', hmax'.trans (hmax.trans hw.max), hnodup, hworkers, ?_, ?_⟩,
        .pillWaits hi hj (h₁.trans hq)⟩
      · simp only [ThrPool.afterPill, hpark, CondVar.threads_park, hout]
        rfl
      · intro k e hk
        cases hk
        exact hj

/-- A condition variable with one thread in the wait is empty when it goes on. -/
theorem Waits.resumed_threads {c : CondVar Unit} (hw : p.Waits)
    (h : p.jobq.hasSpaceC.resume () = some c) : c.threads = [] := by
  have hlen := (CondVar.threads_resume h).length_eq
  have hdtor := hw.dtor
  have hle : p.dtor.isWaiting.toNat ≤ 1 := Bool.toNat_le _
  rw [List.length_cons] at hlen
  exact List.eq_nil_of_length_eq_zero (by omega)

theorem Waits.threads_of_pills {i : Nat} (hw : p.Waits) (h : p.dtor = .pills i) :
    p.jobq.hasSpaceC.threads = [] :=
  List.eq_nil_of_length_eq_zero (by rw [hw.dtor, h]; rfl)

/-! ## One step -/

/-- Every step keeps `Waits` and is one of `Step`. -/
theorem Waits.next {a : ThrPoolAct n} {x : ThrPool n × PoolTrace n} (hw : p.Waits)
    (h : p.next a = some x) : x.1.Waits ∧ Step p x.1 x.2 := by
  cases runs_of_next h with
  | addJob hd hj hf =>
      obtain ⟨he, hinv', hmax', hperm⟩ := hw.fifo.enq (Nat.zero_le 1) hf
      cases he with
      | pushed _ hq hsame _ =>
          refine ⟨⟨hinv', hmax'.trans hw.max, hperm.nodup_iff.mpr hw.nodup,
            fun i => hperm.mem_iff.trans (hw.workers i), ?_, hw.pill⟩, .accept hd hj hq⟩
          simp only [hsame]
          exact hw.dtor
      | refused _ hsame =>
          subst hsame
          exact ⟨hw, .refuse hd⟩
  | @takeJob i w r hi hr =>
      have hout : i ∉ p.jobq.nonEmptyC.threads := by
        rw [hw.workers i, hi]
        exact WorkerState.noConfusion
      exact hw.afterDeq hw.fifo (Nat.zero_le 1) rfl rfl rfl
        (List.nodup_cons.mpr ⟨hout, hw.nodup⟩) (fun j _ => hw.workers j) (.inl hi) hr
  | @resume i w c r hi hc hr =>
      have hperm := CondVar.threads_resume hc
      have hothers : ∀ j, j ≠ i → (j ∈ c.threads ↔ p.th j = .waiting) := by
        intro j hji
        rw [← hw.workers j, hperm.mem_iff, List.mem_cons, or_iff_right hji]
      exact hw.afterDeq (hw.fifo.resumedDeq hc) (Nat.le_refl 1) rfl rfl rfl
        (hperm.nodup_iff.mp hw.nodup) hothers (.inr hi) hr
  | spurious hc =>
      have hperm := CondVar.threads_wake hc
      exact ⟨⟨hw.fifo.wokenDeq hc, hw.max, hperm.nodup_iff.mpr hw.nodup,
        fun i => hperm.mem_iff.trans (hw.workers i), hw.dtor, hw.pill⟩, .wake rfl⟩
  | @finish i j hi =>
      refine ⟨⟨hw.fifo, hw.max, hw.nodup, fun k => ?_, hw.dtor, hw.pill⟩, .finish hi⟩
      rw [hw.workers k]
      by_cases hki : k = i
      · subst hki
        simp [hi]
      · simp [Function.update_of_ne hki]
  | destroy hd =>
      refine ⟨⟨hw.fifo, hw.max, hw.nodup, hw.workers, ?_, ?_⟩, .destroy hd⟩
      · simp only [isWaiting_loop]
        have hdtor := hw.dtor
        rwa [hd] at hdtor
      · intro k e hk
        exact absurd hk (loop_ne_waiting _ _ _ _)
  | pill hi hr =>
      exact hw.afterPill hw.fifo (Nat.zero_le 1) rfl rfl rfl (hw.threads_of_pills hi) (.inl hi) rfl
        hr
  | @resumePill i j w c r hi hc hr =>
      exact hw.afterPill (hw.fifo.resumedEnq hc) (Nat.le_refl 1) rfl rfl rfl
        (hw.resumed_threads hc) (.inr hi) (hw.pill i j hi) hr
  | spuriousPill hc =>
      exact ⟨⟨hw.fifo.wokenEnq hc, hw.max, hw.nodup, hw.workers,
        (CondVar.threads_wake hc).length_eq.trans hw.dtor, hw.pill⟩, .wake rfl⟩
  | join hlt hi hexit =>
      have hdtor := hw.dtor
      rw [hi] at hdtor
      refine ⟨⟨hw.fifo, hw.max, hw.nodup, hw.workers, hdtor, ?_⟩, .join hlt hi hexit⟩
      intro k e hk
      cases hk

end ThrPool

end RpcLock
