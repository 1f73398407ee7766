import RpcLock.PollMgr.Removal

/-!
# Descriptors that come back

The promise of `block_remove_fd` with a weaker assumption than that `fd` is never
added again: nobody adds it while the removal is under way (`Retiring`).  When the
removal returns, neither the sets nor a copy of them has `fd`, and `callbacks_[fd]`
is not what it was (`Clear`), until someone adds it again.
-/

namespace RpcLock

/-- `select` works on a copy that has `fd`. -/
def PollPhase.Copied : PollPhase → Nat → Prop
  | .selecting trfds twfds _, fd => fd ∈ trfds ∨ fd ∈ twfds
  | _, _ => False

theorem PollPhase.mentions_of_copied {p : PollPhase} {fd : Nat} (h : p.Copied fd) :
    p.Mentions fd := by
  cases p with
  | selecting _ _ _ => exact h
  | _ => cases h

namespace PollMgr

variable {m m' : PollMgr} {a : PollMgrAct} {k fd ch : Nat} {flag : PollFlag}

/-! ## What a step leaves alone -/

/-- A critical section is ended by its own last step. -/
theorem mutex_exec {x : Section} (h : m.Exec a m') (hx : m.mutex = some x) :
    m'.mutex = some x ∨ (∃ fd ch, x = .add fd ch ∧ a = .addStore) ∨
      (∃ fd gone, x = .del fd gone ∧ a = .delStore) ∨
      ∃ t fd, x = .remove t fd ∧ a = .removeWait := by
  cases h with
  | addWatch hm _ | delUnwatch hm _ | removeUnwatch hm _ _ | removeReturn hm _ _ | head hm _ =>
      cases hx.symm.trans hm
  | addStore hm _ =>
      cases hx.symm.trans hm
      exact .inr (.inl ⟨_, _, rfl, rfl⟩)
  | delStore hm =>
      cases hx.symm.trans hm
      exact .inr (.inr (.inl ⟨_, _, rfl, rfl⟩))
  | removeWait hm =>
      cases hx.symm.trans hm
      exact .inr (.inr (.inr ⟨_, _, rfl, rfl⟩))
  | loop _ _ _ _ | call _ | callReturn _ => exact .inl hx

/-- A descriptor is watched from an `add_callback` on. -/
theorem watched_exec (h : m.Exec a m') (hw : m'.aio.Watched fd) :
    m.aio.Watched fd ∨ ∃ flag ch, a = .addWatch fd flag ch := by
  cases h with
  | @addWatch fd' flag ch _ _ =>
      rcases SelectAio.watched_watchFd.mp hw with rfl | hw
      · exact .inr ⟨flag, ch, rfl⟩
      · exact .inl hw
  | delUnwatch _ hu | removeUnwatch _ _ hu => exact .inl (SelectAio.watched_unwatchFd hu hw)
  | @delStore fd' gone _ =>
      cases gone <;> exact .inl hw
  | _ => exact .inl hw

theorem aborted_exec (h : m.Exec a m') : m'.aborted = m.aborted := by
  cases h with
  | @delStore fd' gone _ => cases gone <;> rfl
  | _ => rfl

/-- Only `addStore` puts a pointer into `callbacks_`. -/
theorem callbacks_exec {c : Nat} (h : m.Exec a m') (hc : m'.callbacks fd = some c) :
    m.callbacks fd = some c ∨ a = .addStore ∧ m.mutex = some (.add fd c) := by
  have hupd : ∀ {i : Nat}, Function.update m.callbacks i none fd = some c →
      m.callbacks fd = some c := by
    intro i hi
    by_cases hfi : fd = i
    · rw [hfi, Function.update_self] at hi
      cases hi
    · rwa [Function.update_of_ne hfi] at hi
  cases h with
  | @addStore fd' ch hm _ =>
      have hc : Function.update m.callbacks fd' (some ch) fd = some c := hc
      by_cases hf : fd = fd'
      · subst hf
        rw [Function.update_self] at hc
        cases hc
        exact .inr ⟨rfl, hm⟩
      · rw [Function.update_of_ne hf] at hc
        exact .inl hc
  | @delStore fd' gone _ =>
      cases gone with
      | true => exact .inl (hupd hc)
      | false => exact .inl hc
  | removeReturn _ _ _ => exact .inl (hupd hc)
  | _ => exact .inl hc

theorem copied_exec (h : m.Exec a m') (hc : m'.poll.Copied fd) :
    m.poll.Copied fd ∨ m.aio.Watched fd := by
  cases h with
  | @loop a p n _ hp _ _ =>
      cases hp with
      | copy _ => exact .inr hc
      | _ => cases hc
  | @delStore fd' gone _ =>
      cases gone <;> exact .inl hc
  | head _ _ | call _ | callReturn _ => cases hc
  | _ => exact .inl hc

theorem mentions_exec (h : m.Exec a m') (hm : m'.poll.Mentions fd) :
    m.poll.Mentions fd ∨ m.aio.Watched fd := mentions_move h.move hm

theorem enters_exec {c : Callback} {due : List Callback} (h : m.Exec a m')
    (hp : m'.poll = .inside c due) : m.poll = .inside c due ∨ a = .call := by
  cases h with
  | loop _ _ _ hnc => exact absurd ⟨c, due, hp⟩ hnc
  | call _ => exact .inr rfl
  | @delStore _ gone _ => cases gone <;> exact .inl hp
  | head _ _ | callReturn _ => cases hp
  | _ => exact .inl hp

theorem stays_exec {c : Callback} {due : List Callback} (h : m.Exec a m')
    (hp : m.poll = .inside c due) : m'.poll = .inside c due ∨ a = .callReturn := by
  cases h with
  | loop _ _ hnc _ => exact absurd ⟨c, due, hp⟩ hnc
  | callReturn _ => exact .inr rfl
  | @delStore _ gone _ => cases gone <;> exact .inl hp
  | head _ hp' | call hp' => cases hp.symm.trans hp'
  | _ => exact .inl hp

/-- How a descriptor that is about to be called can lose its callback. -/
theorem checked_exec {c : Callback} {due : List Callback} (h : m.Exec a m')
    (hp : m'.poll = .checked c due) (hcb : m'.callbacks c.fd = none) :
    m.poll = .checked c due ∧ (m.callbacks c.fd = none ∨ a = .delStore ∨
      ∃ t ph, a = .removeReturn t ∧ m.removers t = some ⟨c.fd, ph⟩) := by
  cases h with
  | @addStore fd ch _ _ =>
      have hcb : Function.update m.callbacks fd (some ch) c.fd = none := hcb
      by_cases hf : c.fd = fd
      · rw [hf, Function.update_self] at hcb
        cases hcb
      · rw [Function.update_of_ne hf] at hcb
        exact ⟨hp, .inl hcb⟩
  | @delStore _ gone _ => cases gone <;> exact ⟨hp, .inr (.inl rfl)⟩
  | @removeReturn t x _ _ hx _ =>
      have hcb : Function.update m.callbacks x.fd none c.fd = none := hcb
      by_cases hf : c.fd = x.fd
      · exact ⟨hp, .inr (.inr ⟨t, x.phase, rfl, by rw [hf]; exact hx⟩)⟩
      · rw [Function.update_of_ne hf] at hcb
        exact ⟨hp, .inl hcb⟩
  | loop _ hadv _ _ =>
      cases hadv with
      | test _ hsome =>
          cases hp
          have hcb : m.callbacks c.fd = none := hcb
          rw [hcb] at hsome
          cases hsome
      | _ => cases hp
  | head _ _ | call _ | callReturn _ => cases hp
  | _ => exact ⟨hp, .inl hcb⟩

/-- The poll thread wakes the removals at the head of its loop only. -/
theorem woken_exec (h : m.Exec a m') (hk : k ∈ m'.changedone.woken) :
    k ∈ m.changedone.woken ∨ m'.poll = .clear := by
  cases h with
  | @delStore _ gone _ => cases gone <;> exact .inl hk
  | removeReturn _ _ hc =>
      obtain ⟨-, rfl⟩ := CondVar.resume_inv hc
      exact .inl (List.mem_of_mem_erase hk)
  | head _ _ => exact .inr rfl
  | _ => exact .inl hk

theorem removing_exec (h : m.Removing) (hx : m.Exec a m') : m'.Removing := h.move hx.move

/-! ## A removal -/

/-- The removal of `fd` by thread `k` is under way, and nobody has added `fd` since. -/
structure Retiring (m : PollMgr) (k fd : Nat) : Prop where
  remover : ∃ ph, m.removers k = some ⟨fd, ph⟩ ∧ ph ≠ .returned
  unwatched : ¬ m.aio.Watched fd
  woken : k ∈ m.changedone.woken → ¬ m.poll.Mentions fd

/-- Neither the sets nor a copy of them has `fd`, and `callbacks_[fd]` is not `c`. -/
structure Clear (m : PollMgr) (c fd : Nat) : Prop where
  callback : m.callbacks fd ≠ some c
  unwatched : ¬ m.aio.Watched fd
  uncopied : ¬ m.poll.Copied fd

theorem Clear.exec {c : Nat} (hc : m.Clear c fd) (h : m.Exec a m')
    (hw : ∀ flag ch, a ≠ .addWatch fd flag ch)
    (hs : a = .addStore → m.mutex ≠ some (.add fd c)) : m'.Clear c fd where
  callback hcb := by
    rcases callbacks_exec h hcb with hcb | ⟨ha, hm⟩
    · exact hc.callback hcb
    · exact hs ha hm
  unwatched hwt := by
    rcases watched_exec h hwt with hwt | ⟨flag, ch, ha⟩
    · exact hc.unwatched hwt
    · exact hw flag ch ha
  uncopied hcp := by
    rcases copied_exec h hcp with hcp | hwt
    · exact hc.uncopied hcp
    · exact hc.unwatched hwt

theorem retiring_removeUnwatch (h : m.Exec (.removeUnwatch k fd) m') (hr : m.Removing) :
    m'.Retiring k fd := by
  cases h with
  | removeUnwatch _ hk hu =>
      refine ⟨⟨.started, setRemover_removers_self _ _ _, nofun⟩, not_watched_unwatchFd hu,
        fun hw => ?_⟩
      -- `k` was in no wait before
      exact absurd hw (hr.not_woken fun fd' => by simp [hk])
  | loop ha _ _ _ => cases ha

theorem Retiring.exec (hk : m.Retiring k fd) (h : m.Exec a m') (hr : m.Removing)
    (hw : ∀ flag ch, a ≠ .addWatch fd flag ch) (hret : a ≠ .removeReturn k) :
    m'.Retiring k fd where
  remover := by
    obtain ⟨ph, hx, hph⟩ := hk.remover
    cases h with
    | @delStore _ gone _ => cases gone <;> exact ⟨ph, hx, hph⟩
    | removeUnwatch _ ht _ =>
        refine ⟨ph, (setRemover_removers_ne _ _ ?_).trans hx, hph⟩
        rintro rfl
        cases hx.symm.trans ht
    | @removeWait t fd' hm =>
        by_cases htk : k = t
        · subst htk
          cases hx.symm.trans (hr.started _ _ hm)
          exact ⟨.waiting, setRemover_removers_self _ _ _, nofun⟩
        · exact ⟨ph, (setRemover_removers_ne _ _ htk).trans hx, hph⟩
    | removeReturn _ _ _ =>
        refine ⟨ph, (setRemover_removers_ne _ _ ?_).trans hx, hph⟩
        rintro rfl
        exact hret rfl
    | _ => exact ⟨ph, hx, hph⟩
  unwatched hwt := by
    rcases watched_exec h hwt with hwt | ⟨flag, ch, ha⟩
    · exact hk.unwatched hwt
    · exact hw flag ch ha
  woken hwk hm := by
    rcases woken_exec h hwk with hwk | hclear
    · rcases mentions_exec h hm with hm | hwt
      · exact hk.woken hwk hm
      · exact hk.unwatched hwt
    · rw [hclear] at hm
      cases hm

/-- The removal returns. -/
theorem clear_removeReturn {c : Nat} (hk : m.Retiring k fd) (h : m.Exec (.removeReturn k) m') :
    m'.Clear c fd ∧ ¬ m.poll.Mentions fd ∧ m'.poll = m.poll := by
  cases h with
  | removeReturn _ hx hc =>
      obtain ⟨ph, hy, -⟩ := hk.remover
      cases hx.symm.trans hy
      obtain ⟨hwk, rfl⟩ := CondVar.resume_inv hc
      have hm := hk.woken hwk
      refine ⟨⟨?_, hk.unwatched, fun hcp => hm (PollPhase.mentions_of_copied hcp)⟩, hm, rfl⟩
      show Function.update m.callbacks fd none fd ≠ some c
      simp
  | loop ha _ _ _ => cases ha

end PollMgr

end RpcLock
