import RpcLock.Library.GracePeriod
import RpcLock.PollMgr.Steps
import RpcLock.PollMgr.HighFd

/-!
# `block_remove_fd`

The promise of `block_remove_fd` is a grace period.  The live descriptors are
those in the sets of `SelectAIO`, the poll thread holds those it has copied and
not yet worked off, and a removal is released by the broadcast at the head of
`wait_loop`, where the poll thread holds nothing.
-/

namespace RpcLock.PollMgr

variable {s s' : PollMgr} {a : PollMgrAct} {t fd : Nat} {x : Remover}

/-! ## The sets -/

/-- Without a flag left over, `fd` is in no set any more. -/
theorem not_watched_unwatchFd {a a' : SelectAio} {gone : Bool}
    (h : a.unwatchFd fd .rdwr = some (a', gone)) : ¬ a'.Watched fd := by
  obtain ⟨a₁, h₁, he⟩ := Option.map_eq_some_iff.mp h
  cases h₁
  cases he
  simp [SelectAio.Watched]

/-! ## The waits -/

/-- The removals that are under way. -/
structure Removing (s : PollMgr) : Prop where
  nodup : s.changedone.threads.Nodup
  waiting : ∀ t ∈ s.changedone.threads, ∃ fd, s.removers t = some ⟨fd, .waiting⟩
  started : ∀ t fd, s.mutex = some (.remove t fd) → s.removers t = some ⟨fd, .started⟩
  /-- The next pass of the poll thread wakes whoever waits. -/
  pending : s.changedone.parked ≠ [] → s.pendingChange = true

/-- The thread is past its wait. -/
def Released (s : PollMgr) (t : Nat) (x : Remover) : Prop :=
  s.removers t = some x ∧ (t ∈ s.changedone.woken ∨ x.phase = .returned)

/-- Thread `t` has started to remove `fd`. -/
def Removes (s : PollMgr) (t fd : Nat) : Prop := (s.removers t).map Remover.fd = some fd

theorem removes_iff : s.Removes t fd ↔ ∃ x, s.removers t = some x ∧ x.fd = fd :=
  Option.map_eq_some_iff

theorem setRemover_removers_self (s : PollMgr) (t : Nat) (x : Remover) :
    (s.setRemover t x).removers t = some x := Function.update_self ..

theorem setRemover_removers_ne (s : PollMgr) (x : Remover) {t u : Nat} (h : u ≠ t) :
    (s.setRemover t x).removers u = s.removers u := Function.update_of_ne h ..

theorem setRemover_removers_cases {u : Nat} {y : Remover}
    (h : (s.setRemover t x).removers u = some y) :
    (u = t ∧ y = x) ∨ (u ≠ t ∧ s.removers u = some y) := by
  by_cases hu : u = t
  · subst hu
    rw [setRemover_removers_self] at h
    exact .inl ⟨rfl, (Option.some.inj h).symm⟩
  · rw [setRemover_removers_ne _ _ hu] at h
    exact .inr ⟨hu, h⟩

theorem removing_init (pipefd : Nat) : Removing (init pipefd) where
  nodup := List.nodup_nil
  waiting := by simp [init]
  started := by simp [init]
  pending := by simp [init, CondVar.empty]

/-- Only who waits is woken. -/
theorem Removing.not_woken (h : s.Removing) (ht : ∀ fd, s.removers t ≠ some ⟨fd, .waiting⟩) :
    t ∉ s.changedone.woken := by
  intro hw
  obtain ⟨fd, hfd⟩ := h.waiting t (List.mem_append_right _ hw)
  exact ht fd hfd

/-- Steps that leave the waits alone. -/
theorem Removing.frame (h : s.Removing) (hc : s'.changedone = s.changedone)
    (hr : s'.removers = s.removers) (hp : s'.pendingChange = s.pendingChange)
    (hm : ∀ t fd, s'.mutex = some (.remove t fd) → s.mutex = some (.remove t fd)) :
    s'.Removing where
  nodup := by rw [hc]; exact h.nodup
  waiting := by rw [hc, hr]; exact h.waiting
  started t fd ht := by rw [hr]; exact h.started t fd (hm t fd ht)
  pending := by rw [hc, hp]; exact h.pending

theorem Removing.removeUnwatch (h : s.Removing) {aio : SelectAio} (ht : s.removers t = none) :
    ({ s with aio := aio, mutex := some (.remove t fd) }.setRemover t ⟨fd, .started⟩).Removing where
  nodup := h.nodup
  waiting u hu := by
    obtain ⟨fd', hfd⟩ := h.waiting u hu
    have hut : u ≠ t := by
      rintro rfl
      rw [ht] at hfd
      cases hfd
    exact ⟨fd', (setRemover_removers_ne _ _ hut).trans hfd⟩
  started u fd' hm := by
    cases hm
    exact setRemover_removers_self _ _ _
  pending := h.pending

theorem Removing.removeWait (h : s.Removing) (hm : s.mutex = some (.remove t fd)) :
    (s.removeWait t fd).Removing := by
  have hstarted := h.started t fd hm
  have hne : ∀ u ∈ s.changedone.threads, u ≠ t := by
    rintro u hu rfl
    obtain ⟨fd', hfd⟩ := h.waiting u hu
    rw [hstarted] at hfd
    cases hfd
  exact
    { nodup := List.nodup_cons.mpr ⟨fun ht => hne t ht rfl, h.nodup⟩
      waiting := by
        intro u hu
        rcases List.mem_cons.mp hu with rfl | hu
        · exact ⟨fd, setRemover_removers_self _ _ _⟩
        · obtain ⟨fd', hfd⟩ := h.waiting u hu
          exact ⟨fd', (setRemover_removers_ne _ _ (hne u hu)).trans hfd⟩
      started := fun _ _ hm => by cases hm
      pending := fun _ => rfl }

theorem Removing.removeReturn (h : s.Removing) {c : CondVar Nat} (hm : s.mutex = none)
    (hc : s.changedone.resume t = some c) :
    ({ s with changedone := c }.removeReturn t x.fd).Removing := by
  have hperm := CondVar.threads_resume hc
  have hnodup : (t :: c.threads).Nodup := hperm.nodup_iff.mp h.nodup
  obtain ⟨-, rfl⟩ := CondVar.resume_inv hc
  exact
    { nodup := hnodup.of_cons
      waiting := by
        intro u hu
        have hut : u ≠ t := by
          rintro rfl
          exact (List.nodup_cons.mp hnodup).1 hu
        obtain ⟨fd', hfd⟩ := h.waiting u (hperm.mem_iff.mpr (List.mem_cons_of_mem _ hu))
        exact ⟨fd', (setRemover_removers_ne _ _ hut).trans hfd⟩
      started := fun u fd' hu => by
        have hu : s.mutex = some (.remove u fd') := hu
        rw [hm] at hu
        cases hu
      pending := h.pending }

/-- A broadcast leaves everybody inside the wait. -/
theorem threads_head (s : PollMgr) : s.head.changedone.threads = s.changedone.threads := by
  unfold head
  dsimp only
  split <;> simp [CondVar.threads, CondVar.broadcast]

theorem Removing.head (h : s.Removing) : s.head.Removing where
  nodup := by rw [threads_head]; exact h.nodup
  waiting := by rw [threads_head]; exact h.waiting
  started := h.started
  pending hp := by
    unfold PollMgr.head at hp ⊢
    dsimp only at hp ⊢
    split at hp
    · exact absurd rfl hp
    · next hno => exact absurd (h.pending hp) hno

theorem Removing.move (h : s.Removing) (hm : s.Move a s') : s'.Removing := by
  cases hm with
  | add => exact h.frame rfl rfl rfl fun _ _ hm => by cases hm
  | del _ => exact h.frame rfl rfl rfl fun _ _ hm => by cases hm
  | store hm => exact h.frame rfl rfl rfl hm
  | removeUnwatch _ ht _ => exact h.removeUnwatch ht
  | removeWait hm => exact h.removeWait hm
  | removeReturn hm hx hc => exact h.removeReturn hm hc
  | head _ _ => exact h.head
  | poll _ => exact h.frame rfl rfl rfl fun _ _ => id

theorem removing_of_reachable {pipefd : Nat} (h : (pollMgrMachine pipefd).Reachable s) :
    s.Removing :=
  h.invariant (removing_init pipefd) fun _ _ _ hs hn => hs.move (next_move hn)

/-- A removal that waits is woken by the next pass of the poll thread. -/
theorem woken_of_head {pipefd : Nat} (h : (pollMgrMachine pipefd).Reachable s)
    (ht : t ∈ s.changedone.parked) : t ∈ s.head.changedone.woken := by
  have hpending := (removing_of_reachable h).pending (List.ne_nil_of_mem ht)
  simp only [head, hpending, if_true]
  exact List.mem_append_left _ ht

/-! ## The grace period -/

theorem removes_setRemover {u : Nat} (hx : ∀ y, s.removers t = some y → y.fd = x.fd)
    (h : s.Removes u fd) : (s.setRemover t x).Removes u fd := by
  obtain ⟨y, hy, rfl⟩ := removes_iff.mp h
  by_cases hu : u = t
  · subst hu
    exact removes_iff.mpr ⟨x, setRemover_removers_self _ _ _, (hx y hy).symm⟩
  · exact removes_iff.mpr ⟨y, (setRemover_removers_ne _ _ hu).trans hy, rfl⟩

theorem removes_move (h : s.Removing) (hm : s.Move a s') (hr : s.Removes t fd) :
    s'.Removes t fd := by
  cases hm with
  | removeUnwatch _ ht _ =>
      refine removes_setRemover (fun y hy => ?_) hr
      cases hy.symm.trans ht
  | removeWait hm =>
      refine removes_setRemover (fun y hy => ?_) hr
      cases hy.symm.trans (h.started _ _ hm)
      rfl
  | removeReturn _ hx _ =>
      refine removes_setRemover (fun y hy => ?_) hr
      cases hy.symm.trans hx
      rfl
  | _ => exact hr

/-- What has been removed is not watched until someone adds it again. -/
theorem watched_move (h : s.Removing) (hm : s.Move a s') (hr : s'.Removes t fd)
    (hg : NoReAdd t fd s a) (hw : s'.aio.Watched fd) : s.Removes t fd ∧ s.aio.Watched fd := by
  cases hm with
  | add =>
      rcases SelectAio.watched_watchFd.mp hw with rfl | hw
      · exact absurd hr (hg rfl)
      · exact ⟨hr, hw⟩
  | del hu => exact ⟨hr, SelectAio.watched_unwatchFd hu hw⟩
  | store _ => exact ⟨hr, hw⟩
  | removeUnwatch _ _ hu =>
      obtain ⟨y, hy, rfl⟩ := removes_iff.mp hr
      rcases setRemover_removers_cases hy with ⟨-, rfl⟩ | ⟨-, hy⟩
      · exact absurd hw (not_watched_unwatchFd hu)
      · exact ⟨removes_iff.mpr ⟨y, hy, rfl⟩, SelectAio.watched_unwatchFd hu hw⟩
  | removeWait hm =>
      obtain ⟨y, hy, rfl⟩ := removes_iff.mp hr
      rcases setRemover_removers_cases hy with ⟨rfl, rfl⟩ | ⟨-, hy⟩
      · exact ⟨removes_iff.mpr ⟨_, h.started _ _ hm, rfl⟩, hw⟩
      · exact ⟨removes_iff.mpr ⟨y, hy, rfl⟩, hw⟩
  | removeReturn _ hx _ =>
      obtain ⟨y, hy, rfl⟩ := removes_iff.mp hr
      rcases setRemover_removers_cases hy with ⟨rfl, rfl⟩ | ⟨-, hy⟩
      · exact ⟨removes_iff.mpr ⟨_, hx, rfl⟩, hw⟩
      · exact ⟨removes_iff.mpr ⟨y, hy, rfl⟩, hw⟩
  | head _ _ => exact ⟨hr, hw⟩
  | poll _ => exact ⟨hr, hw⟩

theorem mem_readyCallbacks {pipefd high i : Nat} {trfds twfds : Finset Nat}
    (h : i ∈ (readyCallbacks pipefd high trfds twfds).map Callback.fd) :
    i ∈ trfds ∨ i ∈ twfds := by
  obtain ⟨c, hc, rfl⟩ := List.mem_map.mp h
  cases c with
  | read fd => exact .inl (read_mem_readyCallbacks.mp hc).2.1
  | write fd => exact .inr (write_mem_readyCallbacks.mp hc).2.1

theorem mentions_advance {p : PollPhase} (h : s.Advance p) {i : Nat} (hi : p.Mentions i) :
    s.poll.Mentions i ∨ s.aio.Watched i := by
  cases h with
  | copy _ => exact .inr hi
  | interrupted _ | finish _ => cases hi
  | ready hp hr hw =>
      rw [hp]
      rcases mem_readyCallbacks hi with hi | hi
      · exact .inl (.inl (hr hi))
      · exact .inl (.inr (hw hi))
  | test hp _ | enter hp =>
      rw [hp]
      exact .inl hi
  | skip hp _ | leave hp =>
      rw [hp]
      exact .inl (List.mem_cons_of_mem _ hi)

theorem mentions_move (hm : s.Move a s') {i : Nat} (hi : s'.poll.Mentions i) :
    s.poll.Mentions i ∨ s.aio.Watched i := by
  cases hm with
  | head _ _ => cases hi
  | poll h => exact mentions_advance h hi
  | _ => exact .inl hi

theorem released_move (h : s.Removing) (hm : s.Move a s') (hrel : s'.Released t x) :
    (∃ ph, s.Released t ⟨x.fd, ph⟩) ∨ s.Removes t x.fd ∧ ¬ s'.poll.Mentions x.fd := by
  obtain ⟨hx, hrel⟩ := hrel
  cases hm with
  | removeUnwatch _ ht _ =>
      rcases setRemover_removers_cases hx with ⟨rfl, rfl⟩ | ⟨-, hx⟩
      · exact absurd (hrel.resolve_right nofun) (h.not_woken fun fd => by simp [ht])
      · exact .inl ⟨x.phase, hx, hrel⟩
  | removeWait hm =>
      rcases setRemover_removers_cases hx with ⟨rfl, rfl⟩ | ⟨-, hx⟩
      · exact absurd (hrel.resolve_right nofun)
          (h.not_woken fun fd => by simp [h.started _ _ hm])
      · exact .inl ⟨x.phase, hx, hrel⟩
  | @removeReturn u y _ _ hy hc =>
      obtain ⟨hwoken, rfl⟩ := CondVar.resume_inv hc
      rcases setRemover_removers_cases hx with ⟨rfl, rfl⟩ | ⟨-, hx⟩
      · exact .inl ⟨y.phase, hy, .inl hwoken⟩
      · exact .inl ⟨x.phase, hx, hrel.imp_left List.mem_of_mem_erase⟩
  | head _ _ =>
      -- the poll thread holds nothing where it wakes the removers
      exact .inr ⟨removes_iff.mpr ⟨x, hx, rfl⟩, id⟩
  | _ => exact .inl ⟨x.phase, hx, hrel⟩

/-- A thread that is past its wait stays past it. -/
theorem released_mono (h : s.Removing) (hm : s.Move a s') (hrel : s.Released t x) :
    ∃ ph, s'.Released t ⟨x.fd, ph⟩ := by
  obtain ⟨hx, hrel⟩ := hrel
  cases hm with
  | removeUnwatch _ ht _ =>
      refine ⟨x.phase, (setRemover_removers_ne _ _ ?_).trans hx, hrel⟩
      rintro rfl
      rw [ht] at hx
      cases hx
  | removeWait hm =>
      refine ⟨x.phase, (setRemover_removers_ne _ _ ?_).trans hx, hrel⟩
      rintro rfl
      have hstarted := h.started _ _ hm
      cases hx.symm.trans hstarted
      exact h.not_woken (fun fd => by simp [hstarted]) (hrel.resolve_right nofun)
  | @removeReturn u y c _ hy hc =>
      obtain ⟨hwoken, rfl⟩ := CondVar.resume_inv hc
      by_cases htu : t = u
      · subst htu
        cases hx.symm.trans hy
        exact ⟨.returned, setRemover_removers_self _ _ _, .inr rfl⟩
      · refine ⟨x.phase, (setRemover_removers_ne _ _ htu).trans hx, hrel.imp_left fun hw => ?_⟩
        exact (List.mem_erase_of_ne htu).mpr hw
  | head _ _ =>
      refine ⟨x.phase, hx, hrel.imp_left fun hw => ?_⟩
      unfold head
      dsimp only
      split
      · exact List.mem_append_right _ hw
      · exact hw
  | _ => exact ⟨x.phase, hx, hrel⟩

/-- Removals are retirements, and the round of the poll thread is their grace
period.  The items are the removals, each by its thread and its descriptor. -/
def gracePeriod (pipefd : Nat) :
    (pollMgrMachine pipefd).GracePeriod (Nat × Nat) fun i => NoReAdd i.1 i.2 where
  live s := {i | s.aio.Watched i.2}
  held s := {i | s.poll.Mentions i.2}
  retired s := {i | s.Removes i.1 i.2}
  released s := {i | ∃ ph, s.Released i.1 ⟨i.2, ph⟩}
  inv := Removing
  inv_init := removing_init pipefd
  retired_init := by simp [Removes, pollMgrMachine, init]
  released_init := by simp [Released, pollMgrMachine, init]
  inv_step h hn := h.move (next_move hn)
  retired_step h hn _ hi := removes_move h (next_move hn) hi
  live_step h hn _ hr hg hw := watched_move h (next_move hn) hr hg hw
  held_step _ hn _ hi := mentions_move (next_move hn) hi
  released_mono h hn := fun _ ⟨_, hi⟩ => released_mono h (next_move hn) hi
  released_step h hn := fun _ ⟨_, hi⟩ => released_move h (next_move hn) hi

/-! ## The promise -/

theorem mentions_of_inside (h : s.poll.Inside fd) : s.poll.Mentions fd := by
  obtain ⟨c, due, hp, rfl⟩ := h
  rw [hp]
  exact List.mem_cons_self

/-- Nobody adds `fd` again once thread `t` has started to remove it, in a
`block_remove_fd(fd)` among any number of others.  Past its wait, the poll thread
does not even remember `fd`, so no other removal has released it early.  Once it has
returned, the poll thread is in no callback for `fd`, then and in every later state. -/
theorem block_remove_fd_returned {pipefd : Nat}
    (h : (pollMgrMachine pipefd).ReachedVia (NoReAdd t fd) s) :
    (∀ ph, s.Released t ⟨fd, ph⟩ → ¬ s.poll.Mentions fd) ∧
    (s.removers t = some ⟨fd, .returned⟩ →
      ∀ s', (pollMgrMachine pipefd).ReachesVia (NoReAdd t fd) s s' → ¬ s'.poll.Inside fd) := by
  have hsafe := (gracePeriod pipefd).safe (i := (t, fd)) h
  refine ⟨fun ph hrel => (hsafe.released ⟨ph, hrel⟩).2, fun hx s' hs hin => ?_⟩
  obtain ⟨hsafe', hrel'⟩ := hsafe.later ⟨.returned, hx, .inr rfl⟩ hs
  exact (hsafe'.released hrel').2 (mentions_of_inside hin)

/-- The removal of 5 starts while `select` has it, and the removal of 6 while the
poll thread is in the callback for 5.  Both return, and 6 is added again. -/
def twoRemovals : List PollMgrAct :=
  [.addWatch 5 .rdonly 50, .addStore, .addWatch 6 .rdwr 60, .addStore, .head, .copy,
    .removeUnwatch 1 5, .removeWait, .select (.ready {5, 6} {6}), .check, .call,
    .removeUnwatch 2 6, .removeWait, .callReturn, .check, .call, .callReturn, .check, .call,
    .callReturn, .check, .head, .removeReturn 1, .removeReturn 2, .addWatch 6 .rdonly 61,
    .addStore]

theorem block_remove_fd_returned_twoRemovals :
    ∃ s, (pollMgrMachine 3).ReachedVia (NoReAdd 1 5) s ∧ s.aio.Watched 6 ∧
      s.removers 2 = some ⟨6, .returned⟩ ∧
      ∀ s', (pollMgrMachine 3).ReachesVia (NoReAdd 1 5) s s' → ¬ s'.poll.Inside 5 := by
  obtain ⟨s, hs, hp⟩ := @Machine.exists_reachedVia_of_run _ _ (pollMgrMachine 3) (NoReAdd 1 5) _
    (fun s => decide (s.aio.Watched 6 ∧ s.removers 2 = some ⟨6, .returned⟩ ∧
      s.removers 1 = some ⟨5, .returned⟩)) twoRemovals (by decide)
  obtain ⟨hwatched, hback, hx⟩ := of_decide_eq_true hp
  exact ⟨s, hs, hwatched, hback, (block_remove_fd_returned hs).2 hx⟩

end RpcLock.PollMgr
