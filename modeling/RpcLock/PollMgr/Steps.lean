import RpcLock.PollMgr.PollMgr

/-!
# The steps of `PollMgr`

`Exec` is what a step does when it stops the process at no `VERIFY`, and `Fails` says
where it does.  `Move` says less, by what a step means for the poll thread and for
the removals.
-/

namespace RpcLock

/-- The poll thread is in a callback. -/
def PollPhase.Calling (p : PollPhase) : Prop := ∃ c due, p = .inside c due

namespace PollMgr

variable {s s' : PollMgr} {a : PollMgrAct} {t fd : Nat}

/-- How the poll thread goes on. -/
inductive Advance (s : PollMgr) : PollPhase → Prop where
  | copy : s.poll = .clear → Advance s (.selecting s.aio.rfds s.aio.wfds s.aio.highfds)
  | interrupted {trfds twfds : Finset Nat} {high : Nat} :
      s.poll = .selecting trfds twfds high → Advance s (.looping [])
  | ready {trfds twfds r w : Finset Nat} {high : Nat} :
      s.poll = .selecting trfds twfds high → r ⊆ trfds → w ⊆ twfds →
      Advance s (.looping (readyCallbacks s.aio.pipefd high r w))
  | finish : s.poll = .looping [] → Advance s .top
  | test {c : Callback} {due : List Callback} : s.poll = .looping (c :: due) →
      (s.callbacks c.fd).isSome = true → Advance s (.checked c due)
  | skip {c : Callback} {due : List Callback} : s.poll = .looping (c :: due) →
      (s.callbacks c.fd).isSome = false → Advance s (.looping due)
  | enter {c : Callback} {due : List Callback} : s.poll = .checked c due →
      Advance s (.inside c due)
  | leave {c : Callback} {due : List Callback} : s.poll = .inside c due →
      Advance s (.looping due)

/-- The steps of `wait_loop` outside of the callbacks and the critical section. -/
def Loops : PollMgrAct → Bool
  | .copy | .select _ | .check => true
  | _ => false

/-- The steps that pass their `VERIFY`s. -/
inductive Exec (s : PollMgr) : PollMgrAct → PollMgr → Prop where
  | addWatch {fd : Nat} {flag : PollFlag} {ch : Nat} : s.mutex = none → fd < maxPollFds →
      Exec s (.addWatch fd flag ch)
        { s with aio := s.aio.watchFd fd flag, mutex := some (.add fd ch) }
  | addStore {fd ch : Nat} : s.mutex = some (.add fd ch) →
      s.callbacks fd = none ∨ s.callbacks fd = some ch →
      Exec s .addStore { s.setCallback fd (some ch) with mutex := none }
  | delUnwatch {fd : Nat} {flag : PollFlag} {aio : SelectAio} {gone : Bool} : s.mutex = none →
      s.aio.unwatchFd fd flag = some (aio, gone) →
      Exec s (.delUnwatch fd flag) { s with aio := aio, mutex := some (.del fd gone) }
  | delStore {fd : Nat} {gone : Bool} : s.mutex = some (.del fd gone) →
      Exec s .delStore (s.delStore fd gone)
  | removeUnwatch {t fd : Nat} {aio : SelectAio} {gone : Bool} : s.mutex = none →
      s.removers t = none → s.aio.unwatchFd fd .rdwr = some (aio, gone) →
      Exec s (.removeUnwatch t fd)
        ({ s with aio := aio, mutex := some (.remove t fd) }.setRemover t ⟨fd, .started⟩)
  | removeWait {t fd : Nat} : s.mutex = some (.remove t fd) →
      Exec s .removeWait (s.removeWait t fd)
  | removeReturn {t : Nat} {x : Remover} {c : CondVar Nat} : s.mutex = none →
      s.removers t = some x → s.changedone.resume t = some c →
      Exec s (.removeReturn t) ({ s with changedone := c }.removeReturn t x.fd)
  | head : s.mutex = none → s.poll = .top → Exec s .head s.head
  | loop {a : PollMgrAct} {p : PollPhase} {n : Nat} : Loops a = true → s.Advance p →
      ¬ s.poll.Calling → ¬ p.Calling →
      Exec s a { s with poll := p, aio := { s.aio with piped := n } }
  | call {c : Callback} {due : List Callback} : s.poll = .checked c due →
      Exec s .call { s with poll := .inside c due }
  | callReturn {c : Callback} {due : List Callback} : s.poll = .inside c due →
      Exec s .callReturn { s with poll := .looping due }

/-- The steps that stop the process. -/
inductive Fails (s : PollMgr) : PollMgrAct → Prop where
  /-- `VERIFY(fd < MAX_POLL_FDS)` -/
  | full {fd : Nat} {flag : PollFlag} {ch : Nat} : ¬ fd < maxPollFds →
      Fails s (.addWatch fd flag ch)
  /-- `VERIFY(!callbacks_[fd] || callbacks_[fd]==ch)` -/
  | taken {fd ch c : Nat} : s.mutex = some (.add fd ch) → s.callbacks fd = some c → c ≠ ch →
      Fails s .addStore
  | flag {fd : Nat} {flag : PollFlag} : s.aio.unwatchFd fd flag = none →
      Fails s (.delUnwatch fd flag)
  /-- `select` fails, or it reports the pipe without a byte in it. -/
  | select {r : SelectResult} : r = .failed ∨ s.aio.piped = 0 → Fails s (.select r)
  /-- `callbacks_[fd]` has become `NULL` since the test. -/
  | null {c : Callback} {due : List Callback} : s.poll = .checked c due →
      s.callbacks c.fd = none → Fails s .call

theorem not_calling_looping (due : List Callback) : ¬ (PollPhase.looping due).Calling := by
  rintro ⟨c, due', h⟩
  cases h

theorem exec_select {r : SelectResult} {trfds twfds : Finset Nat} {high : Nat}
    (hp : s.poll = .selecting trfds twfds high) (hr : r.Within trfds twfds) :
    s.Exec (.select r) (s.select high r) ∨ s.Fails (.select r) ∧ s.select high r = s.abort := by
  have hnc : ¬ s.poll.Calling := by
    rw [hp]
    rintro ⟨c, due, h⟩
    cases h
  cases r with
  | interrupted =>
      exact .inl (.loop (n := s.aio.piped) rfl (.interrupted hp) hnc (not_calling_looping _))
  | failed => exact .inr ⟨.select (.inl rfl), rfl⟩
  | ready r w =>
      have hready := Advance.ready hp hr.1 hr.2
      unfold select
      dsimp only
      split
      · split
        · next hpiped => exact .inr ⟨.select (.inr hpiped), rfl⟩
        · exact .inl (.loop rfl hready hnc (not_calling_looping _))
      · exact .inl (.loop (n := s.aio.piped) rfl hready hnc (not_calling_looping _))

theorem exec_check {due : List Callback} (hp : s.poll = .looping due) :
    s.Exec .check (s.check due) := by
  have hnc : ¬ s.poll.Calling := by
    rw [hp]
    exact not_calling_looping due
  cases due with
  | nil =>
      refine .loop (n := s.aio.piped) rfl (.finish hp) hnc ?_
      rintro ⟨c, due, h⟩
      cases h
  | cons c due =>
      by_cases hcb : (s.callbacks c.fd).isSome = true
      · have he : s.check (c :: due) = { s with poll := .checked c due } := by
          simp only [check, if_pos hcb]
        rw [he]
        refine .loop (n := s.aio.piped) rfl (.test hp hcb) hnc ?_
        rintro ⟨c, due, h⟩
        cases h
      · have he : s.check (c :: due) = { s with poll := .looping due } := by
          simp only [check, if_neg hcb]
        rw [he]
        exact .loop (n := s.aio.piped) rfl (.skip hp (by simpa using hcb)) hnc
          (not_calling_looping _)

/-- A step runs or stops the process. -/
theorem next_exec (h : s.next a = some s') : s.Exec a s' ∨ s.Fails a ∧ s' = s.abort := by
  unfold next at h
  split at h
  · cases h
  cases a with
  | addWatch fd flag ch =>
      simp only [step] at h
      split at h
      · next hm =>
          cases h
          unfold addWatch
          split
          · next hlt => exact .inl (.addWatch hm hlt)
          · next hlt => exact .inr ⟨.full hlt, rfl⟩
      · cases h
  | addStore =>
      simp only [step] at h
      split at h
      · next fd ch hm =>
          cases h
          unfold addStore
          split
          · next hc => exact .inl (.addStore hm hc)
          · next hc =>
              push Not at hc
              obtain ⟨c, hcb⟩ := Option.ne_none_iff_exists'.mp hc.1
              refine .inr ⟨.taken hm hcb ?_, rfl⟩
              rintro rfl
              exact hc.2 hcb
      · cases h
  | delUnwatch fd flag =>
      simp only [step] at h
      split at h
      · next hm =>
          cases h
          unfold delUnwatch
          split
          · next hu => exact .inr ⟨.flag hu, rfl⟩
          · next hu => exact .inl (.delUnwatch hm hu)
      · cases h
  | delStore =>
      simp only [step] at h
      split at h
      · next hm =>
          cases h
          exact .inl (.delStore hm)
      · cases h
  | removeUnwatch t fd =>
      simp only [step] at h
      split at h
      · next hm =>
          cases h
          obtain ⟨⟨aio, gone⟩, hu⟩ : ∃ e, s.aio.unwatchFd fd .rdwr = some e := ⟨_, rfl⟩
          unfold removeUnwatch
          rw [hu]
          exact .inl (.removeUnwatch hm.1 hm.2 hu)
      · cases h
  | removeWait =>
      simp only [step] at h
      split at h
      · next hm =>
          cases h
          exact .inl (.removeWait hm)
      · cases h
  | removeReturn t =>
      simp only [step] at h
      split at h
      · next hm hx =>
          obtain ⟨c, hc, rfl⟩ := Option.map_eq_some_iff.mp h
          exact .inl (.removeReturn hm hx hc)
      · cases h
  | head =>
      simp only [step] at h
      split at h
      · next hm =>
          cases h
          exact .inl (.head hm.1 hm.2)
      · cases h
  | copy =>
      simp only [step] at h
      split at h
      · next hp =>
          cases h
          refine .inl (.loop (n := s.aio.piped) rfl (.copy hp) ?_ ?_)
          · rw [hp]
            rintro ⟨c, due, h⟩
            cases h
          · rintro ⟨c, due, h⟩
            cases h
      · cases h
  | select r =>
      simp only [step] at h
      split at h
      · next hp =>
          split at h
          · next hr =>
              cases h
              exact exec_select hp hr
          · cases h
      · cases h
  | check =>
      simp only [step] at h
      split at h
      · next hp =>
          cases h
          exact .inl (exec_check hp)
      · cases h
  | call =>
      simp only [step] at h
      split at h
      · next hp =>
          cases h
          unfold call
          split
          · exact .inl (.call hp)
          · next hcb => exact .inr ⟨.null hp (by simpa using hcb), rfl⟩
      · cases h
  | callReturn =>
      simp only [step] at h
      split at h
      · next hp =>
          cases h
          exact .inl (.callReturn hp)
      · cases h

/-! ## What it means for the removals -/

/-- The steps, by what they do to the removals. -/
inductive Move (s : PollMgr) : PollMgrAct → PollMgr → Prop where
  | add {fd : Nat} {flag : PollFlag} {ch : Nat} :
      Move s (.addWatch fd flag ch)
        { s with aio := s.aio.watchFd fd flag, mutex := some (.add fd ch) }
  | del {fd : Nat} {flag : PollFlag} {aio : SelectAio} {gone : Bool} :
      s.aio.unwatchFd fd flag = some (aio, gone) →
      Move s (.delUnwatch fd flag) { s with aio := aio, mutex := some (.del fd gone) }
  /-- The end of a critical section other than a removal's, or of the process. -/
  | store {a : PollMgrAct} {f : Nat → Option Nat} {m : Option Section} {b : Bool} :
      (∀ t fd, m = some (.remove t fd) → s.mutex = some (.remove t fd)) →
      Move s a { s with callbacks := f, mutex := m, aborted := b }
  | removeUnwatch {t fd : Nat} {aio : SelectAio} {gone : Bool} :
      s.mutex = none → s.removers t = none → s.aio.unwatchFd fd .rdwr = some (aio, gone) →
      Move s (.removeUnwatch t fd)
        ({ s with aio := aio, mutex := some (.remove t fd) }.setRemover t ⟨fd, .started⟩)
  | removeWait {t fd : Nat} :
      s.mutex = some (.remove t fd) → Move s .removeWait (s.removeWait t fd)
  | removeReturn {t : Nat} {x : Remover} {c : CondVar Nat} :
      s.mutex = none → s.removers t = some x → s.changedone.resume t = some c →
      Move s (.removeReturn t) ({ s with changedone := c }.removeReturn t x.fd)
  | head : s.mutex = none → s.poll = .top → Move s .head s.head
  | poll {a : PollMgrAct} {p : PollPhase} {n : Nat} : s.Advance p →
      Move s a { s with poll := p, aio := { s.aio with piped := n } }

theorem move_poll {p : PollPhase} (h : s.Advance p) : Move s a { s with poll := p } :=
  .poll (n := s.aio.piped) h

theorem Exec.move (h : Exec s a s') : Move s a s' := by
  cases h with
  | addWatch _ _ => exact .add
  | addStore _ _ => exact .store fun _ _ h => by cases h
  | delUnwatch _ hu => exact .del hu
  | @delStore fd gone _ => cases gone <;> exact .store fun _ _ h => by cases h
  | removeUnwatch hm ht hu => exact .removeUnwatch hm ht hu
  | removeWait hm => exact .removeWait hm
  | removeReturn hm hx hc => exact .removeReturn hm hx hc
  | head hm hp => exact .head hm hp
  | loop _ hp _ _ => exact .poll hp
  | call hp => exact move_poll (.enter hp)
  | callReturn hp => exact move_poll (.leave hp)

theorem next_move (h : s.next a = some s') : Move s a s' := by
  rcases next_exec h with hx | ⟨-, rfl⟩
  · exact hx.move
  · exact .store fun _ _ h => h

end PollMgr

end RpcLock
