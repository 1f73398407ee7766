import RpcLock.LockServer.Pool
import Mathlib.Data.Fintype.Card

/-!
# A pool without a free thread

The pool wedges when its last thread goes to wait in `acquire` while all others
are parked and no wakeup is pending, and in no other way.  Six blocked requests
are enough for that, where the tester counts on ten.  With fewer `acquire`
requests at work and in front of it than threads, a release can run.
-/

namespace RpcLock

namespace Pool

/-- All threads are parked in `acquire`, and no wakeup is pending. -/
def Wedged {n : Nat} (s : Pool n) : Prop :=
  s.locks.lockCond.woken = [] ∧ ∀ i, ∃ a ∈ s.locks.lockCond.parked, s.workers i = .waiting a

instance {n : Nat} (s : Pool n) : Decidable s.Wedged := inferInstanceAs (Decidable (_ ∧ _))

/-- Every thread but `i` is parked in `acquire`. -/
def OthersParked {n : Nat} (s : Pool n) (i : Fin n) : Prop :=
  ∀ j, j ≠ i → ∃ a ∈ s.locks.lockCond.parked, s.workers j = .waiting a

/-- The thread whose `acquire` the step runs, the lock it asks for, and its own
pending wakeup. -/
def asks {n : Nat} (s : Pool n) : PoolAct n → Option (Fin n × UInt64 × List Acquire)
  | .run i _ =>
      match s.workers i with
      | .taken (.acquire _ lid) => some (i, lid, [])
      | _ => none
  | .resume i =>
      match s.workers i with
      | .waiting a => some (i, a.lid, [a])
      | _ => none
  | _ => none

/-- The step sends the last thread of the pool to wait: it asks for a lock that is
held, every other thread is parked in `acquire`, and no wakeup is pending but its
own. -/
def ParksLast {n : Nat} (s : Pool n) (a : PoolAct n) : Prop :=
  ∃ q ∈ s.asks a, s.locks.lockMap q.2.1 ≠ none ∧ s.OthersParked q.1 ∧
    s.locks.lockCond.woken = q.2.2

/-- Thread `i` can take a job, enter its handler or go on after a wakeup. -/
def CanMove {n : Nat} (s : Pool n) (i : Fin n) : Prop :=
  ∃ a s', (a = .take i ∨ a = .resume i ∨ ∃ w, a = .run i w) ∧ (poolMachine n).next s a = some s'

instance {n : Nat} (s : Pool n) (i : Fin n) : Decidable (s.OthersParked i) :=
  inferInstanceAs (Decidable (∀ _, _))

instance {n : Nat} (s : Pool n) (a : PoolAct n) : Decidable (s.ParksLast a) :=
  inferInstanceAs (Decidable (∃ q ∈ s.asks a, _))

variable {n : Nat} {s s' : Pool n} {i : Fin n}

/-! ## How the pool wedges -/

theorem wedged_addJob (s : Pool n) (r : LockRequest) : (s.addJob r).Wedged ↔ s.Wedged := by
  unfold addJob
  split <;> exact Iff.rfl

/-- A step into a wedged pool sends its last thread to wait. -/
theorem not_wedged_next {a : PoolAct n} (h : s.Seated) (hs : ¬ s.Wedged) (hn : Step s a s')
    (hg : ¬ s.ParksLast a) : ¬ s'.Wedged := by
  intro hw
  cases hn with
  | arrive => exact hs ((wedged_addJob s _).mp hw)
  | take _ _ | grant _ _ | release _ _ | grantWoken _ _ _ =>
      obtain ⟨b, -, hb⟩ := hw.2 _
      rw [setWorker_workers_self] at hb
      cases hb
  | spurious _ hc =>
      obtain ⟨-, rfl⟩ := CondVar.wake_inv hc
      cases hw.1
  | @park i clt lid w hwi hheld =>
      refine hg ⟨(i, lid, []), by simp [asks, hwi], hheld, fun j hj => ?_, hw.1⟩
      obtain ⟨b, hb, hjb⟩ := hw.2 j
      rw [setWorker_workers_ne _ _ hj] at hjb
      rcases List.mem_cons.mp hb with rfl | hb
      · exact absurd (Fin.ext (h.own j _ hjb)).symm hj
      · exact ⟨b, hb, hjb⟩
  | @parkWoken i a c hwi hc hheld =>
      obtain ⟨ha, rfl⟩ := CondVar.resume_inv hc
      have hwoken : s.locks.lockCond.woken = [a] := by
        have herase : s.locks.lockCond.woken.erase a = [] := hw.1
        have hperm := List.perm_cons_erase ha
        rw [herase] at hperm
        exact List.perm_singleton.mp hperm
      refine hg ⟨(i, a.lid, [a]), by simp [asks, hwi], hheld, fun j hj => ?_, hwoken⟩
      obtain ⟨b, hb, hjb⟩ := hw.2 j
      rw [setWorker_workers_ne _ _ hj] at hjb
      rcases List.mem_cons.mp hb with rfl | hb
      · exact absurd (Fin.ext ((h.own j _ hjb).symm.trans (h.own i _ hwi))) hj
      · exact ⟨b, hb, hjb⟩

/-- Such a step does wedge the pool, and the lock it asked for has a holder. -/
theorem wedged_of_parksLast {a : PoolAct n} (hn : Step s a s') (hp : s.ParksLast a) :
    s'.Wedged ∧ ∃ clt lid, s'.locks.lockMap lid = some clt := by
  obtain ⟨q, hq, hheld, hothers, hwoken⟩ := hp
  cases hn with
  | arrive | take _ _ | spurious _ _ => cases hq
  | @grant i clt lid w hwi hfree =>
      simp only [asks, hwi, Option.mem_some_iff] at hq
      subst hq
      exact absurd hfree hheld
  | @release i clt lid w l hwi hl => simp [asks, hwi] at hq
  | @grantWoken i a c hwi hc hfree =>
      simp only [asks, hwi, Option.mem_some_iff] at hq
      subst hq
      exact absurd hfree hheld
  | @park i clt lid w hwi _ =>
      simp only [asks, hwi, Option.mem_some_iff] at hq
      subst hq
      obtain ⟨c, hc⟩ := Option.ne_none_iff_exists'.mp hheld
      refine ⟨⟨hwoken, fun j => ?_⟩, c, lid, hc⟩
      by_cases hj : j = i
      · subst hj
        exact ⟨_, List.mem_cons_self, setWorker_workers_self _ _ _⟩
      · obtain ⟨b, hb, hjb⟩ := hothers j hj
        exact ⟨b, List.mem_cons_of_mem _ hb, (setWorker_workers_ne _ _ hj).trans hjb⟩
  | @parkWoken i a c hwi hcr _ =>
      simp only [asks, hwi, Option.mem_some_iff] at hq
      subst hq
      obtain ⟨-, rfl⟩ := CondVar.resume_inv hcr
      obtain ⟨c, hc⟩ := Option.ne_none_iff_exists'.mp hheld
      refine ⟨⟨?_, fun j => ?_⟩, c, a.lid, hc⟩
      · change s.locks.lockCond.woken.erase a = []
        rw [hwoken, List.erase_cons_head]
      · by_cases hj : j = i
        · subst hj
          exact ⟨a, List.mem_cons_self, setWorker_workers_self _ _ _⟩
        · obtain ⟨b, hb, hjb⟩ := hothers j hj
          exact ⟨b, List.mem_cons_of_mem _ hb, (setWorker_workers_ne _ _ hj).trans hjb⟩

/-- A wedged pool takes no job: requests still come in, and nothing but a spurious
wakeup moves a thread. -/
theorem Wedged.next_inv {a : PoolAct n} (hw : s.Wedged) (hn : Step s a s') :
    (∃ r, a = .arrive r ∧ s'.Wedged) ∨ ∃ i, a = .spurious i := by
  cases hn with
  | @arrive r => exact .inl ⟨r, rfl, (wedged_addJob s r).mpr hw⟩
  | @spurious i a c hwi hc => exact .inr ⟨i, rfl⟩
  | @take i r rest hwi hq =>
      obtain ⟨a, -, ha⟩ := hw.2 i
      simp [hwi] at ha
  | @grant i clt lid w hwi hfree =>
      obtain ⟨a, -, ha⟩ := hw.2 i
      simp [hwi] at ha
  | @park i clt lid w hwi hheld =>
      obtain ⟨a, -, ha⟩ := hw.2 i
      simp [hwi] at ha
  | @release i clt lid w l hwi hl =>
      obtain ⟨a, -, ha⟩ := hw.2 i
      simp [hwi] at ha
  | @grantWoken i a c hwi hc hfree =>
      have hmem := (CondVar.resume_inv hc).1
      rw [hw.1] at hmem
      cases hmem
  | @parkWoken i a c hwi hc hheld =>
      have hmem := (CondVar.resume_inv hc).1
      rw [hw.1] at hmem
      cases hmem

/-- A woken thread goes on. -/
theorem canMove_of_woken {a : Acquire} (h : s.Seated) (ha : a ∈ s.locks.lockCond.woken) :
    ∃ i, s.CanMove i := by
  obtain ⟨i, hi⟩ := (h.threads a).mp (List.mem_append_right _ ha)
  obtain ⟨c, hc⟩ := CondVar.exists_resume ha
  have hn : (poolMachine n).next s (.resume i) =
      some (s.afterAcquire i a (LockServer.acquire { s.locks with lockCond := c } a)) := by
    simp only [poolMachine, next, hi, LockServer.next, hc, Option.map_some]
  exact ⟨i, _, _, .inr (.inl rfl), hn⟩

/-- While there is a job, some thread can move unless the pool is wedged. -/
theorem exists_canMove (h : s.Seated) (hq : s.jobq ≠ []) (hw : ¬ s.Wedged) : ∃ i, s.CanMove i := by
  by_cases hwoken : s.locks.lockCond.woken = []
  · obtain ⟨i, hi⟩ := not_forall.mp fun hall => hw ⟨hwoken, hall⟩
    cases hwi : s.workers i with
    | idle =>
        obtain ⟨r, rest, hr⟩ := List.exists_cons_of_ne_nil hq
        exact ⟨i, _, _, .inl rfl, next_take hwi hr⟩
    | waiting a =>
        have ha : a ∈ s.locks.lockCond.threads := (h.threads a).mpr ⟨i, hwi⟩
        rcases List.mem_append.mp ha with ha | ha
        · exact absurd ⟨a, ha, hwi⟩ hi
        · exact canMove_of_woken h ha
    | taken r =>
        cases r with
        | acquire clt lid =>
            have hidle : s.locks.busy i = false := by
              rw [← Bool.not_eq_true, h.busy_iff, hwi]
              rintro ⟨a, ⟨⟩⟩
            have hn : (poolMachine n).next s (.run i none) =
                some (s.afterAcquire i ⟨i, clt, lid⟩ (s.locks.acquire ⟨i, clt, lid⟩)) := by
              simp [poolMachine, next, hwi, LockServer.next, hidle]
            exact ⟨i, _, _, .inr (.inr ⟨none, rfl⟩), hn⟩
        | release clt lid =>
            obtain ⟨w, l, hl, -⟩ := exists_release s.locks clt lid
            exact ⟨i, _, _, .inr (.inr ⟨w, rfl⟩), next_release hwi hl⟩
  · obtain ⟨a, as, ha⟩ := List.exists_cons_of_ne_nil hwoken
    exact canMove_of_woken h (ha ▸ List.mem_cons_self)

/-- The pool wedges through nothing but its last thread going to wait.  In runs
without such a step, a release in the queue is never left with all threads parked,
and some thread can move.  After such a step the pool is wedged, and the release of
the lock's holder comes into a wedged pool. -/
theorem release_not_blocked (hpos : 0 < n) :
    (∀ s : Pool n, (poolMachine n).ReachedVia (fun s a => ¬ s.ParksLast a) s →
      ¬ s.Wedged ∧ (s.jobq ≠ [] → ∃ i, s.CanMove i)) ∧
    ∀ (s s' : Pool n) (a : PoolAct n), (poolMachine n).Reachable s →
      (poolMachine n).next s a = some s' → s.ParksLast a →
      s'.Wedged ∧ ∃ clt lid t, s'.locks.lockMap lid = some clt ∧
        (poolMachine n).next s' (.arrive (.release clt lid)) = some t ∧
        t.Wedged ∧ t.locks.lockMap lid = some clt ∧
        (s'.jobq.length < 100 * n → .release clt lid ∈ t.jobq) := by
  refine ⟨fun s h => ?_, fun s s' a h hn hp => ?_⟩
  · have hinv : s.Seated ∧ ¬ s.Wedged := by
      refine h.invariant (P := fun s => s.Seated ∧ ¬ s.Wedged) ⟨seated_init, ?_⟩ ?_
      · rintro ⟨-, hall⟩
        obtain ⟨a, ha, -⟩ := hall ⟨0, hpos⟩
        cases ha
      · rintro s s' a ⟨hs, hw⟩ hg hn
        have hstep := step_of_next hs hn
        exact ⟨seated_next hs hstep, not_wedged_next hs hw hstep hg⟩
    exact ⟨hinv.2, fun hq => exists_canMove hinv.1 hq hinv.2⟩
  · obtain ⟨hw, clt, lid, hheld⟩ := wedged_of_parksLast (step_of_next (reachable_seated h) hn) hp
    have hsend : s'.sendable (.release clt lid) = true := decide_eq_true hheld
    have harrive : (poolMachine n).next s' (.arrive (.release clt lid)) =
        some (s'.addJob (.release clt lid)) := if_pos hsend
    have hlocks : (s'.addJob (.release clt lid)).locks = s'.locks := locks_addJob _ _
    refine ⟨hw, clt, lid, _, hheld, harrive, (wedged_addJob s' _).mpr hw, ?_, fun hlen => ?_⟩
    · rw [hlocks]
      exact hheld
    · rw [addJob, if_pos hlen]
      exact List.mem_append_right _ List.mem_cons_self

/-! ## A release that can run -/

/-- The threads busy with an `acquire`. -/
def acquiring (s : Pool n) : Finset (Fin n) :=
  Finset.univ.filter fun i => (s.workers i).acquiring = true

@[simp] theorem mem_acquiring : i ∈ s.acquiring ↔ (s.workers i).acquiring = true := by
  simp [acquiring]

/-- A thread changes the count by its own. -/
theorem card_acquiring_setWorker (s : Pool n) (i : Fin n) (x : Worker) :
    (s.setWorker i x).acquiring.card ≤ s.acquiring.card + x.acquiring.toNat := by
  have hsub : (s.setWorker i x).acquiring ⊆
      if x.acquiring then insert i s.acquiring else s.acquiring := by
    intro j hj
    rw [mem_acquiring] at hj
    by_cases hji : j = i
    · subst hji
      rw [setWorker_workers_self] at hj
      simp [hj]
    · rw [setWorker_workers_ne s x hji] at hj
      split
      · exact Finset.mem_insert_of_mem (mem_acquiring.mpr hj)
      · exact mem_acquiring.mpr hj
  refine (Finset.card_le_card hsub).trans ?_
  split
  · next hx => simpa [hx] using Finset.card_insert_le i s.acquiring
  · exact Nat.le_add_right _ _

/-- With fewer `acquire` handlers at work than threads, some thread is free of them. -/
theorem exists_not_acquiring (h : s.acquiring.card < n) :
    ∃ i, (s.workers i).acquiring = false := by
  by_contra hall
  push Not at hall
  have huniv : s.acquiring = Finset.univ := by
    ext i
    simpa using hall i
  rw [huniv, Finset.card_univ, Fintype.card_fin] at h
  exact Nat.lt_irrefl n h

/-- `s'` can be reached, and no lock was granted on the way. -/
structure Drains (s s' : Pool n) : Prop where
  reaches : (poolMachine n).Reaches s s'
  locks : ∀ k, s'.locks.lockMap k = s.locks.lockMap k ∨ s'.locks.lockMap k = none

theorem Drains.refl (s : Pool n) : s.Drains s := ⟨.refl s, fun _ => .inl rfl⟩

theorem Drains.trans {t : Pool n} (h : s.Drains s') (h' : s'.Drains t) : s.Drains t where
  reaches := h.reaches.trans h'.reaches
  locks k := by
    rcases h'.locks k with he | hnone
    · rw [he]
      exact h.locks k
    · exact .inr hnone

/-- A thread that has taken a release runs it. -/
theorem drains_run {clt : Int32} {lid : UInt64} (hw : s.workers i = .taken (.release clt lid)) :
    ∃ l, l.lockMap lid ≠ some clt ∧ s.Drains ({ s with locks := l }.setWorker i .idle) := by
  obtain ⟨w, l, hl, hne, hlocks⟩ := exists_release s.locks clt lid
  exact ⟨l, hne, .single (next_release hw hl), hlocks⟩

/-- An idle thread takes the first job. -/
theorem drains_take {q : LockRequest} {rest : List LockRequest} (hw : s.workers i = .idle)
    (hq : s.jobq = q :: rest) : s.Drains ({ s with jobq := rest }.setWorker i (.taken q)) :=
  ⟨.single (next_take hw hq), fun _ => .inl rfl⟩

/-- Some thread can be made idle without another thread becoming busy. -/
theorem exists_idle (h : s.acquiring.card < n) : ∃ s' i, s.Drains s' ∧ s'.workers i = .idle ∧
    s'.jobq = s.jobq ∧ s'.acquiring.card ≤ s.acquiring.card := by
  obtain ⟨i, hi⟩ := exists_not_acquiring h
  cases hw : s.workers i with
  | idle => exact ⟨s, i, .refl s, hw, rfl, le_rfl⟩
  | waiting a => simp [hw, Worker.acquiring] at hi
  | taken r =>
      cases r with
      | acquire clt lid => simp [hw, Worker.acquiring, LockRequest.isAcquire] at hi
      | release clt lid =>
          obtain ⟨l, -, hd⟩ := drains_run hw
          exact ⟨_, i, hd, setWorker_workers_self _ _ _, rfl,
            card_acquiring_setWorker { s with locks := l } i .idle⟩

/-- The `acquire` requests in front of a job. -/
def ahead (pre : List LockRequest) : Nat := (pre.filter LockRequest.isAcquire).length

@[simp] theorem ahead_cons (q : LockRequest) (pre : List LockRequest) :
    ahead (q :: pre) = ahead pre + q.isAcquire.toNat := by
  rw [ahead, List.filter_cons]
  cases q.isAcquire <;> simp [ahead]

/-- With fewer `acquire` requests at work and ahead of it than threads, a job in the
queue can reach a thread. -/
theorem exists_taken {r : LockRequest} (pre post : List LockRequest) (s : Pool n)
    (hq : s.jobq = pre ++ r :: post) (h : ahead pre + s.acquiring.card < n) :
    ∃ s' i, s.Drains s' ∧ s'.workers i = .taken r := by
  induction pre generalizing s with
  | nil =>
      obtain ⟨s₁, i, hr, hi, hj, -⟩ := exists_idle ((Nat.le_add_left _ _).trans_lt h)
      exact ⟨_, i, hr.trans (drains_take hi (hj.trans hq)), setWorker_workers_self _ _ _⟩
  | cons q pre ih =>
      obtain ⟨s₁, i, hr, hi, hj, hle⟩ := exists_idle ((Nat.le_add_left _ _).trans_lt h)
      have hj' : s₁.jobq = q :: (pre ++ r :: post) := hj.trans hq
      -- the job leaves the queue and becomes the thread's own
      have hcard := card_acquiring_setWorker { s₁ with jobq := pre ++ r :: post } i (.taken q)
      have hcount : ahead pre +
          ({ s₁ with jobq := pre ++ r :: post }.setWorker i (.taken q)).acquiring.card < n := by
        rw [ahead_cons] at h
        have hq' : (Worker.taken q).acquiring.toNat = q.isAcquire.toNat := rfl
        have hs₁ : ({ s₁ with jobq := pre ++ r :: post } : Pool n).acquiring.card =
            s₁.acquiring.card := rfl
        omega
      obtain ⟨s₂, k, hr₂, hk⟩ := ih _ rfl hcount
      exact ⟨s₂, k, (hr.trans (drains_take hi hj')).trans hr₂, hk⟩

/-- With fewer `acquire` requests at work and ahead of it than threads, the release
of a holder can run.  So it is in particular when at most `n` requests are
outstanding. -/
theorem release_can_run {clt : Int32} {lid : UInt64} {pre post : List LockRequest}
    (hq : s.jobq = pre ++ .release clt lid :: post) (hheld : s.locks.lockMap lid = some clt)
    (h : ahead pre + s.acquiring.card < n) :
    ∃ s', (poolMachine n).Reaches s s' ∧ s'.locks.lockMap lid = none := by
  obtain ⟨s₁, i, hd, hi⟩ := exists_taken pre post s hq h
  obtain ⟨l, hne, hrun⟩ := drains_run hi
  have hall := hd.trans hrun
  refine ⟨_, hall.reaches, ?_⟩
  rcases hall.locks lid with he | hnone
  · exact absurd (he.trans hheld) hne
  · exact hnone

/-! ## Seven clients -/

/-- Client 1 gets lock 1, and a client asks for it through each thread in `is`. -/
def crowd (n : Nat) (is : List (Fin n)) (i₀ : Fin n) : List (PoolAct n) :=
  [.arrive (.acquire 1 1), .take i₀, .run i₀ none] ++
  is.flatMap fun i => [.arrive (.acquire (2 + Int32.ofNat i) 1), .take i, .run i none]

/-- Five waiting clients leave a thread for the release, and the sixth takes it. -/
theorem release_not_blocked_six :
    (∃ s : Pool 6, (poolMachine 6).Reachable s ∧ .release 1 1 ∈ s.jobq ∧
      s.locks.lockMap 1 = some 1 ∧ ¬ s.Wedged ∧ ∃ i, s.CanMove i) ∧
    ∃ s : Pool 6, (poolMachine 6).Reachable s ∧ s.Wedged := by
  constructor
  · obtain ⟨s, hs, hp⟩ := @Machine.exists_reachedVia_of_run _ _ (poolMachine 6)
      (fun s a => ¬ s.ParksLast a) _
      (fun s => decide (.release 1 1 ∈ s.jobq ∧ s.locks.lockMap 1 = some 1))
      (crowd 6 [0, 1, 2, 3, 4] 0 ++ [.arrive (.release 1 1)]) (by decide)
    obtain ⟨hq, hheld⟩ := of_decide_eq_true hp
    obtain ⟨hw, hmove⟩ := (release_not_blocked (by decide)).1 s hs
    exact ⟨s, hs.reachable, hq, hheld, hw, hmove (List.ne_nil_of_mem hq)⟩
  · obtain ⟨s, hs, hp⟩ := @Machine.exists_reachable_of_run _ _ (poolMachine 6)
      (fun s => decide (s.ParksLast (.run 5 none) ∧
        ((poolMachine 6).next s (.run 5 none)).isSome = true))
      (crowd 6 [0, 1, 2, 3, 4] 0 ++ [.arrive (.acquire 7 1), .take 5]) (by decide)
    obtain ⟨hlast, hsome⟩ := of_decide_eq_true hp
    obtain ⟨s', hn⟩ := Option.isSome_iff_exists.mp hsome
    exact ⟨s', hs.step hn, ((release_not_blocked (by decide)).2 s s' _ hs hn hlast).1⟩

/-- Six waiting clients take all threads, and the release of the holder stays in
the queue. -/
theorem wedges : ∃ s : Pool 6, (poolMachine 6).Reachable s ∧
    .release 1 1 ∈ s.jobq ∧ s.locks.lockMap 1 = some 1 ∧ s.Wedged := by
  obtain ⟨s, hs, hp⟩ := @Machine.exists_reachable_of_run _ _ (poolMachine 6)
    (fun s => decide (.release 1 1 ∈ s.jobq ∧ s.locks.lockMap 1 = some 1 ∧ s.Wedged))
    (crowd 6 [0, 1, 2, 3, 4, 5] 0 ++ [.arrive (.release 1 1)]) (by decide)
  exact ⟨s, hs, of_decide_eq_true hp⟩

end Pool

end RpcLock
