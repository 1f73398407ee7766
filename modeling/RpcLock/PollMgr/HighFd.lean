import RpcLock.PollMgr.Steps
import Mathlib.Order.Bounds.Basic

/-!
# The highest descriptor of `SelectAIO`

`select` looks at the descriptors below `highfds_ + 1`.  `watch_fd` raises
`highfds_` and `unwatch_fd` computes it again where the highest descriptor left
both sets, so that it is exact after every sequence of calls.

Both methods hold `SelectAIO::m_` throughout, so a call is one step.
-/

namespace RpcLock

/-- `FD_SETSIZE`, the descriptors an `fd_set` has room for. -/
def fdSetSize : Nat := 1024

/-- The flags of the callers: `CB_RDONLY`, `CB_WRONLY` or `CB_RDWR`. -/
def PollFlag.Directed : PollFlag → Prop
  | .rdonly | .wronly | .rdwr => True
  | .none | .mask => False

instance : (flag : PollFlag) → Decidable flag.Directed
  | .rdonly | .wronly | .rdwr => inferInstanceAs (Decidable True)
  | .none | .mask => inferInstanceAs (Decidable False)

@[elab_as_elim] theorem PollFlag.Directed.cases {motive : PollFlag → Prop} {flag : PollFlag}
    (hf : flag.Directed) (rdonly : motive .rdonly) (wronly : motive .wronly)
    (rdwr : motive .rdwr) : motive flag := by
  cases flag with
  | rdonly => exact rdonly
  | wronly => exact wronly
  | rdwr => exact rdwr
  | none => exact hf.elim
  | mask => exact hf.elim

/-- A call that changes what an `aio_mgr` watches. -/
inductive AioAct where
  | watchFd (fd : Nat) (flag : PollFlag)
  | unwatchFd (fd : Nat) (flag : PollFlag)
deriving DecidableEq, Repr

namespace AioAct

def fd : AioAct → Nat
  | .watchFd fd _ | .unwatchFd fd _ => fd

def flag : AioAct → PollFlag
  | .watchFd _ flag | .unwatchFd _ flag => flag

end AioAct

namespace SelectAio

def step (a : SelectAio) : AioAct → Option SelectAio
  | .watchFd fd flag => some (a.watchFd fd flag)
  | .unwatchFd fd flag => (a.unwatchFd fd flag).map Prod.fst

/-- The call has one of the three flags, and a descriptor an `fd_set` has room
for that is not the pipe's. -/
def Served (a : SelectAio) (act : AioAct) : Prop :=
  act.fd < fdSetSize ∧ act.fd ≠ a.pipefd ∧ act.flag.Directed

instance (a : SelectAio) (act : AioAct) : Decidable (a.Served act) :=
  inferInstanceAs (Decidable (_ ∧ _ ∧ _))

end SelectAio

/-- Any sequence of calls on a new `SelectAIO`. -/
def selectAioMachine (pipefd : Nat) : Machine SelectAio AioAct where
  init := .init pipefd
  next := SelectAio.step

namespace SelectAio

variable {a a' : SelectAio} {fd i : Nat} {flag : PollFlag} {gone : Bool}

/-! ## The scan -/

/-- The scan ends at the last descriptor that meets `p`, if there is one. -/
theorem scan_spec (p : Nat → Prop) [DecidablePred p] (d n : Nat) :
    let newh := (List.range n).foldl (fun newh i => if p i then i else newh) d
    (∀ i < n, p i → i ≤ newh) ∧ (newh = d ∨ p newh) := by
  induction n with
  | zero => exact ⟨fun i hi => absurd hi (Nat.not_lt_zero i), .inl rfl⟩
  | succ n ih =>
      obtain ⟨hle, hp⟩ := ih
      simp only [List.range_succ, List.foldl_append, List.foldl_cons, List.foldl_nil]
      split
      · next hn => exact ⟨fun i hi _ => Nat.le_of_lt_succ hi, .inr hn⟩
      · next hn =>
          refine ⟨fun i hi hpi => ?_, hp⟩
          rcases Nat.lt_succ_iff_lt_or_eq.mp hi with hlt | rfl
          · exact hle i hlt hpi
          · exact absurd hpi hn

/-- Where `highfds_` bounds what is watched, the scan finds the highest. -/
theorem newHigh_isGreatest (hpipe : a.pipefd ∈ a.rfds) (hbound : ∀ i, a.Watched i → i ≤ a.highfds) :
    IsGreatest {i | a.Watched i} a.newHigh := by
  obtain ⟨hle, hp⟩ := scan_spec a.Watched a.pipefd (a.highfds + 1)
  refine ⟨?_, fun i hi => hle i (Nat.lt_succ_of_le (hbound i hi)) hi⟩
  rcases hp with he | hw
  · show a.Watched a.newHigh
    unfold newHigh
    rw [he]
    exact .inl hpipe
  · exact hw

/-! ## The calls -/

theorem watched_watchFd : (a.watchFd fd flag).Watched i ↔ i = fd ∨ a.Watched i := by
  unfold Watched watchFd
  cases flag <;> simp only [Finset.mem_insert] <;> tauto

@[simp] theorem highfds_watchFd :
    (a.watchFd fd flag).highfds = if a.highfds ≤ fd then fd else a.highfds := by
  unfold watchFd
  cases flag <;> rfl

@[simp] theorem pipefd_watchFd : (a.watchFd fd flag).pipefd = a.pipefd := by
  unfold watchFd
  cases flag <;> rfl

/-- What `FD_CLR` leaves as it was. -/
theorem clear_spec (h : a.clear fd flag = some a') :
    a'.highfds = a.highfds ∧ a'.pipefd = a.pipefd ∧
      (∀ i, a'.Watched i → a.Watched i) ∧
      ∀ i ≠ fd, (i ∈ a'.rfds ↔ i ∈ a.rfds) ∧ (i ∈ a'.wfds ↔ i ∈ a.wfds) := by
  unfold clear at h
  unfold Watched
  cases flag with
  | rdonly =>
      cases h
      refine ⟨rfl, rfl, fun i hi => hi.imp_left Finset.mem_of_mem_erase, fun i hi => ?_⟩
      simp [hi]
  | wronly =>
      cases h
      refine ⟨rfl, rfl, fun i hi => hi.imp_right Finset.mem_of_mem_erase, fun i hi => ?_⟩
      simp [hi]
  | rdwr =>
      cases h
      refine ⟨rfl, rfl, fun i hi => ?_, fun i hi => ?_⟩
      · exact hi.imp Finset.mem_of_mem_erase Finset.mem_of_mem_erase
      · simp [hi]
  | none => cases h
  | mask => cases h

/-- With one of the three flags `unwatch_fd` gets past its `VERIFY`. -/
theorem clear_isSome (a : SelectAio) (fd : Nat) (hf : flag.Directed) :
    ∃ a', a.clear fd flag = some a' :=
  hf.cases ⟨_, rfl⟩ ⟨_, rfl⟩ ⟨_, rfl⟩

/-- What `unwatch_fd` leaves, and what it answers. -/
theorem unwatchFd_inv (h : a.unwatchFd fd flag = some (a', gone)) :
    ∃ a₁, a.clear fd flag = some a₁ ∧ a'.rfds = a₁.rfds ∧ a'.wfds = a₁.wfds ∧
      a'.pipefd = a₁.pipefd ∧
      a'.highfds = (if ¬ a₁.Watched fd ∧ fd = a₁.highfds then a₁.newHigh else a₁.highfds) ∧
      (gone = true ↔ ¬ a'.Watched fd) := by
  obtain ⟨a₁, h₁, he⟩ := Option.map_eq_some_iff.mp h
  cases he
  exact ⟨a₁, h₁, rfl, rfl, rfl, rfl, decide_eq_true_iff⟩

theorem watched_unwatchFd (h : a.unwatchFd fd flag = some (a', gone)) (hi : a'.Watched i) :
    a.Watched i := by
  obtain ⟨a₁, h₁, hr, hw, -⟩ := unwatchFd_inv h
  obtain ⟨-, -, hsub, -⟩ := clear_spec h₁
  unfold Watched at hi
  rw [hr, hw] at hi
  exact hsub i hi

/-! ## The highest descriptor -/

/-- The pipe is watched, and `highfds_` is the highest descriptor that is. -/
structure Exact (a : SelectAio) : Prop where
  pipe : a.pipefd ∈ a.rfds
  greatest : IsGreatest {i | a.Watched i} a.highfds

theorem exact_init (pipefd : Nat) : (init pipefd).Exact where
  pipe := Finset.mem_singleton_self _
  greatest := by
    refine ⟨.inl (Finset.mem_singleton_self _), fun i hi => ?_⟩
    rcases hi with hi | hi
    · exact (Finset.mem_singleton.mp hi).le
    · exact absurd hi (Finset.notMem_empty i)

theorem exact_watchFd (h : a.Exact) : (a.watchFd fd flag).Exact where
  pipe := by
    rw [pipefd_watchFd]
    unfold watchFd
    cases flag <;> first | exact h.pipe | exact Finset.mem_insert_of_mem h.pipe
  greatest := by
    obtain ⟨hmem, hle⟩ := h.greatest
    rw [highfds_watchFd]
    constructor
    · refine watched_watchFd.mpr ?_
      split
      · exact .inl rfl
      · exact .inr hmem
    · intro i hi
      rcases watched_watchFd.mp hi with rfl | hi
      · split
        · exact le_rfl
        · next hn => exact (Nat.lt_of_not_le hn).le
      · have := hle hi
        split <;> omega

theorem exact_unwatchFd (h : a.Exact) (hfd : fd ≠ a.pipefd)
    (hu : a.unwatchFd fd flag = some (a', gone)) : a'.Exact := by
  obtain ⟨a₁, h₁, hr, hw, hp, hhigh, -⟩ := unwatchFd_inv hu
  obtain ⟨hhigh₁, hpipe₁, hsub, hkept⟩ := clear_spec h₁
  have hwatched (i : Nat) : a'.Watched i ↔ a₁.Watched i := by
    unfold Watched
    rw [hr, hw]
  have hpipe : a₁.pipefd ∈ a₁.rfds := by
    rw [hpipe₁]
    exact (hkept _ hfd.symm).1.mpr h.pipe
  refine ⟨by rw [hp, hr]; exact hpipe, ?_⟩
  simp only [hwatched, hhigh]
  split
  · exact newHigh_isGreatest hpipe fun i hi => hhigh₁ ▸ h.greatest.2 (hsub i hi)
  · next hn =>
      rw [hhigh₁] at hn ⊢
      refine ⟨?_, fun i hi => h.greatest.2 (hsub i hi)⟩
      -- the highest descriptor is another one, or it is still watched
      by_cases he : fd = a.highfds
      · subst he
        exact not_not.mp fun hnw => hn ⟨hnw, rfl⟩
      · obtain ⟨hkr, hkw⟩ := hkept a.highfds (Ne.symm he)
        exact h.greatest.1.imp hkr.mpr hkw.mpr

theorem exact_step {act : AioAct} (h : a.Exact) (hg : a.Served act)
    (hn : a.step act = some a') : a'.Exact := by
  obtain ⟨-, hfd, -⟩ := hg
  cases act with
  | watchFd fd flag =>
      cases hn
      exact exact_watchFd h
  | unwatchFd fd flag =>
      obtain ⟨⟨a₁, gone⟩, hu, rfl⟩ := Option.map_eq_some_iff.mp hn
      exact exact_unwatchFd h hfd hu

theorem exact_of_reached {pipefd : Nat} (h : (selectAioMachine pipefd).ReachedVia Served a) :
    a.Exact :=
  h.invariant (exact_init pipefd) fun _ _ _ ha hg hn => exact_step ha hg hn

/-! ## What `select` covers -/

/-- After every sequence of calls `highfds_` is the highest descriptor in the two
sets, the pipe's included.  So `select` is told of every descriptor that is
watched, and what it finds ready gets its callback.  `unwatch_fd` answers whether
the descriptor is left in neither set. -/
theorem highfds_largest {pipefd : Nat} (h : (selectAioMachine pipefd).ReachedVia Served a) :
    a.pipefd ∈ a.rfds ∧ IsGreatest {fd | fd ∈ a.rfds ∨ fd ∈ a.wfds} a.highfds ∧
      (∀ fd ∈ a.rfds ∪ a.wfds, fd < a.highfds + 1) ∧
      (∀ trfds ⊆ a.rfds, ∀ twfds ⊆ a.wfds, ∀ fd ≠ a.pipefd,
        (fd ∈ trfds → .read fd ∈ readyCallbacks a.pipefd a.highfds trfds twfds) ∧
        (fd ∈ twfds → .write fd ∈ readyCallbacks a.pipefd a.highfds trfds twfds)) ∧
      ∀ fd flag, flag.Directed → ∃ a' gone, a.unwatchFd fd flag = some (a', gone) ∧
        (gone = true ↔ fd ∉ a'.rfds ∧ fd ∉ a'.wfds) := by
  have hexact := exact_of_reached h
  have hle (i : Nat) (hi : a.Watched i) : i ≤ a.highfds := hexact.greatest.2 hi
  refine ⟨hexact.pipe, hexact.greatest, fun fd hfd => ?_, ?_, fun fd flag hf => ?_⟩
  · exact Nat.lt_succ_of_le (hle fd (Finset.mem_union.mp hfd))
  · intro trfds hr twfds hw fd hne
    refine ⟨fun hm => ?_, fun hm => ?_⟩
    · exact read_mem_readyCallbacks.mpr ⟨hle fd (.inl (hr hm)), hm, hne⟩
    · exact write_mem_readyCallbacks.mpr ⟨hle fd (.inr (hw hm)), hm, fun hp => hne hp.1⟩
  · obtain ⟨a₁, h₁⟩ := clear_isSome a fd hf
    have hu : a.unwatchFd fd flag = some _ := congrArg (Option.map _) h₁
    obtain ⟨-, -, -, -, -, -, hgone⟩ := unwatchFd_inv hu
    exact ⟨_, _, hu, hgone.trans not_or⟩

/-- 9 leaves one set and then the other, and 7 is the highest after it. -/
def partialUnwatches : List AioAct :=
  [.watchFd 5 .rdonly, .watchFd 7 .wronly, .watchFd 9 .rdwr, .unwatchFd 9 .rdonly,
    .unwatchFd 9 .wronly]

theorem highfds_largest_partialUnwatches : ∃ a, (selectAioMachine 3).ReachedVia Served a ∧
    a.rfds = {3, 5} ∧ a.wfds = {7} ∧ IsGreatest {fd | fd ∈ a.rfds ∨ fd ∈ a.wfds} a.highfds ∧
    a.highfds = 7 := by
  obtain ⟨a, ha, hp⟩ := @Machine.exists_reachedVia_of_run _ _ (selectAioMachine 3) Served _
    (fun a => decide (a.rfds = {3, 5} ∧ a.wfds = {7} ∧ a.highfds = 7)) partialUnwatches
    (by decide)
  obtain ⟨hr, hw, hhigh⟩ := of_decide_eq_true hp
  exact ⟨a, ha, hr, hw, (highfds_largest ha).2.1, hhigh⟩

end SelectAio

/-! ## In `PollMgr` -/

namespace PollMgr

variable {s s' : PollMgr} {a : PollMgrAct}

/-- The callers keep away from the pipe's descriptor. -/
def OffPipe (s : PollMgr) : PollMgrAct → Prop
  | .addWatch fd _ _ | .delUnwatch fd _ | .removeUnwatch _ fd => fd ≠ s.aio.pipefd
  | _ => True

theorem exact_next (h : s.aio.Exact) (hg : s.OffPipe a) (hn : s.next a = some s') :
    s'.aio.Exact := by
  cases next_move hn with
  | add => exact SelectAio.exact_watchFd h
  | del hu => exact SelectAio.exact_unwatchFd h hg hu
  | store _ => exact h
  | removeUnwatch _ _ hu => exact SelectAio.exact_unwatchFd h hg hu
  | removeWait _ => exact h
  | removeReturn _ _ _ => exact h
  | head _ _ => exact h
  | poll _ => exact ⟨h.pipe, h.greatest⟩

/-- So the poll thread, whenever it copies the sets, waits for all that is in them. -/
theorem exact_of_reached {pipefd : Nat} (h : (pollMgrMachine pipefd).ReachedVia OffPipe s) :
    s.aio.Exact :=
  h.invariant (P := fun s => s.aio.Exact) (SelectAio.exact_init pipefd)
    fun _ _ _ hs hg hn => exact_next hs hg hn

end PollMgr

end RpcLock
