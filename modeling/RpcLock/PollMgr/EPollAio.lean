import RpcLock.PollMgr.WatchTable
import Mathlib.Data.BitVec

/-!
# `EPollAIO` against `SelectAIO`

`EPollAIO` keeps the flags of a descriptor in one word, and the kernel the events
of those that are registered.  A call gives `none` where a `VERIFY` fails.

Both implementations keep the table of `WatchTable`, so they answer every
`unwatch_fd` alike.  `is_watched` of `EPollAIO` does not look at the bits of the
flags: `CB_MASK` has all bits but theirs.
-/

namespace RpcLock

/-- The values of the enumeration, as `int`. -/
def PollFlag.word : PollFlag → BitVec 32
  | .none => 0x0
  | .rdonly => 0x1
  | .wronly => 0x10
  | .rdwr => 0x11
  | .mask => ~~~0x11

def epollIn : BitVec 32 := 0x001

def epollOut : BitVec 32 := 0x004

def epollEt : BitVec 32 := 1 <<< 31

/-- `EPOLL_CTL_ADD`, `EPOLL_CTL_MOD` and `EPOLL_CTL_DEL`. -/
inductive EPollOp where
  | add
  | mod
  | del
deriving DecidableEq, Repr

/-- `class EPollAIO`. -/
structure EPollAio where
  fdstatus : Nat → BitVec 32
  /-- The events the kernel has for a descriptor, behind `pollfd_`. -/
  registered : Nat → Option (BitVec 32)

namespace EPollAio

/-- `EPollAIO::EPollAIO`. -/
def init : EPollAio := ⟨fun _ => 0, fun _ => none⟩

/-- `epoll_ctl`: a descriptor is added once, and changed or deleted while it is
registered. -/
def epollCtl (e : EPollAio) (op : EPollOp) (fd : Nat) (events : BitVec 32) : Option EPollAio :=
  match op, e.registered fd with
  | .add, none => some { e with registered := Function.update e.registered fd (some events) }
  | .mod, some _ => some { e with registered := Function.update e.registered fd (some events) }
  | .del, some _ => some { e with registered := Function.update e.registered fd none }
  | _, _ => none

/-- `ev.events` for the flags in `status`. -/
def events (status : BitVec 32) : BitVec 32 :=
  let ev := epollEt
  let ev := if status &&& PollFlag.rdonly.word ≠ 0 then ev ||| epollIn else ev
  if status &&& PollFlag.wronly.word ≠ 0 then ev ||| epollOut else ev

def setStatus (e : EPollAio) (fd : Nat) (status : BitVec 32) : EPollAio :=
  { e with fdstatus := Function.update e.fdstatus fd status }

/-- `EPollAIO::watch_fd`. -/
def watchFd (e : EPollAio) (fd : Nat) (flag : PollFlag) : Option EPollAio :=
  if fd < maxPollFds then
    let op := if e.fdstatus fd ≠ 0 then EPollOp.mod else .add
    let status := e.fdstatus fd ||| flag.word
    if flag = .rdwr ∧ events status ≠ epollEt ||| epollIn ||| epollOut then none
    else (e.setStatus fd status).epollCtl op fd (events status)
  else none

/-- `EPollAIO::unwatch_fd`. -/
def unwatchFd (e : EPollAio) (fd : Nat) (flag : PollFlag) : Option (EPollAio × Bool) :=
  if fd < maxPollFds then
    let status := e.fdstatus fd &&& ~~~flag.word
    let op := if status ≠ 0 then EPollOp.mod else .del
    if flag = .rdwr ∧ op ≠ .del then none
    else ((e.setStatus fd status).epollCtl op fd (events status)).map (·, decide (op = .del))
  else none

/-- `EPollAIO::is_watched`. -/
def isWatched (e : EPollAio) (fd : Nat) (flag : PollFlag) : Option Bool :=
  if fd < maxPollFds then some (e.fdstatus fd &&& PollFlag.mask.word == flag.word) else none

/-! ## The words -/

/-- The flags of a set of directions. -/
def wordOf (ds : Finset Direction) : BitVec 32 :=
  (if .read ∈ ds then PollFlag.rdonly.word else 0) |||
    if .write ∈ ds then PollFlag.wronly.word else 0

theorem wordOf_union (ds : Finset Direction) {flag : PollFlag} (hf : flag.Directed) :
    wordOf (ds ∪ flag.directions) = wordOf ds ||| flag.word := by
  refine hf.cases ?_ ?_ ?_ <;> revert ds <;> decide

theorem wordOf_sdiff (ds : Finset Direction) {flag : PollFlag} (hf : flag.Directed) :
    wordOf (ds \ flag.directions) = wordOf ds &&& ~~~flag.word := by
  refine hf.cases ?_ ?_ ?_ <;> revert ds <;> decide

theorem wordOf_eq_zero : ∀ ds : Finset Direction, wordOf ds = 0 ↔ ds = ∅ := by decide

/-- `CB_MASK` has none of the bits of the flags. -/
theorem wordOf_and_mask : ∀ ds : Finset Direction, wordOf ds &&& PollFlag.mask.word = 0 := by
  decide

/-- Both directions are among the events once both are watched. -/
theorem events_both : ∀ ds : Finset Direction,
    events (wordOf (ds ∪ PollFlag.rdwr.directions)) = epollEt ||| epollIn ||| epollOut := by
  decide

theorem word_ne_zero {flag : PollFlag} (hf : flag.Directed) : flag.word ≠ 0 :=
  hf.cases (by decide) (by decide) (by decide)

/-! ## The refinement -/

variable {e : EPollAio} {w : WatchTable} {fd : Nat} {flag : PollFlag}

/-- The words are the table, and the kernel has the descriptors that are watched. -/
structure Refines (e : EPollAio) (w : WatchTable) : Prop where
  status : ∀ i, e.fdstatus i = wordOf (w i)
  registered : ∀ i, e.registered i = if w i = ∅ then none else some (events (wordOf (w i)))

theorem refines_init : init.Refines fun _ => ∅ := ⟨fun _ => rfl, fun _ => rfl⟩

/-- The row of `fd` is changed in the word and in the kernel. -/
theorem Refines.update (h : e.Refines w) (fd : Nat) (ds : Finset Direction) :
    Refines
      ⟨Function.update e.fdstatus fd (wordOf ds),
        Function.update e.registered fd (if ds = ∅ then none else some (events (wordOf ds)))⟩
      (Function.update w fd ds) := by
  constructor
  · intro i
    by_cases hi : i = fd
    · subst hi
      simp
    · simpa [hi] using h.status i
  · intro i
    by_cases hi : i = fd
    · subst hi
      simp
    · simpa [hi] using h.registered i

theorem Refines.registered_of_ne (h : e.Refines w) (hw : w fd ≠ ∅) :
    ∃ ev, e.registered fd = some ev := ⟨_, by rw [h.registered, if_neg hw]⟩

theorem union_directions_ne_empty (ds : Finset Direction) (hf : flag.Directed) :
    ds ∪ flag.directions ≠ ∅ := by
  refine hf.cases ?_ ?_ ?_ <;> revert ds <;> decide

/-- No `VERIFY` of `watch_fd` fails: the descriptor is registered exactly when
its word is not zero. -/
theorem refines_watchFd (h : e.Refines w) (hfd : fd < maxPollFds) (hf : flag.Directed) :
    ∃ e', e.watchFd fd flag = some e' ∧ e'.Refines (w.watchFd fd flag) := by
  have hstatus : e.fdstatus fd ||| flag.word = wordOf (w fd ∪ flag.directions) := by
    rw [wordOf_union _ hf, h.status]
  have hev : ¬ (flag = .rdwr ∧
      events (wordOf (w fd ∪ flag.directions)) ≠ epollEt ||| epollIn ||| epollOut) := by
    rintro ⟨rfl, hne⟩
    exact hne (events_both _)
  have hr := h.update fd (w fd ∪ flag.directions)
  rw [if_neg (union_directions_ne_empty _ hf)] at hr
  refine ⟨_, ?_, hr⟩
  simp only [watchFd, hfd, if_true, hstatus, hev, if_false]
  by_cases hw : w fd = ∅
  · have hz : e.fdstatus fd = 0 := by rw [h.status, wordOf_eq_zero, hw]
    have hn : e.registered fd = none := by rw [h.registered, if_pos hw]
    simp [hz, epollCtl, setStatus, hn]
  · have hz : e.fdstatus fd ≠ 0 := by rwa [h.status, Ne, wordOf_eq_zero]
    obtain ⟨ev, hn⟩ := h.registered_of_ne hw
    simp only [if_pos hz, epollCtl, setStatus, hn]

/-- Nor does one of `unwatch_fd`, on a descriptor that is watched.  It answers
whether the table has nothing left for it. -/
theorem refines_unwatchFd (h : e.Refines w) (hfd : fd < maxPollFds) (hf : flag.Directed)
    (hw : w fd ≠ ∅) :
    ∃ e', e.unwatchFd fd flag = some (e', decide (w.unwatchFd fd flag fd = ∅)) ∧
      e'.Refines (w.unwatchFd fd flag) := by
  have hstatus : e.fdstatus fd &&& ~~~flag.word = wordOf (w fd \ flag.directions) := by
    rw [wordOf_sdiff _ hf, h.status]
  obtain ⟨ev, hn⟩ := h.registered_of_ne hw
  have hr := h.update fd (w fd \ flag.directions)
  refine ⟨_, ?_, hr⟩
  simp only [unwatchFd, hfd, if_true, hstatus, WatchTable.unwatchFd_self, Ne, wordOf_eq_zero]
  by_cases hd : w fd \ flag.directions = ∅
  · simp [hd, epollCtl, setStatus, hn]
  · have hne : flag ≠ .rdwr := by
      rintro rfl
      exact hd (Finset.sdiff_eq_empty_iff_subset.mpr fun d _ => by cases d <;> decide)
    simp [hd, hne, epollCtl, setStatus, hn]

/-- `is_watched` says no to each of the three flags. -/
theorem isWatched_eq_false (h : e.Refines w) (hfd : fd < maxPollFds) (hf : flag.Directed) :
    e.isWatched fd flag = some false := by
  simp only [isWatched, hfd, if_true, h.status, wordOf_and_mask]
  exact congrArg some (beq_eq_false_iff_ne.mpr (word_ne_zero hf).symm)

end EPollAio

/-! ## The two side by side -/

/-- The implementations after the same calls, with the table of these calls. -/
structure Backends where
  select : SelectAio
  epoll : EPollAio
  table : WatchTable

namespace Backends

def init (pipefd : Nat) : Backends := ⟨.init pipefd, .init, fun _ => ∅⟩

def step (s : Backends) : AioAct → Option Backends
  | .watchFd fd flag =>
      (s.epoll.watchFd fd flag).map fun e =>
        ⟨s.select.watchFd fd flag, e, s.table.watchFd fd flag⟩
  | .unwatchFd fd flag =>
      match s.select.unwatchFd fd flag, s.epoll.unwatchFd fd flag with
      | some (a, _), some (e, _) => some ⟨a, e, s.table.unwatchFd fd flag⟩
      | _, _ => none

/-- A descriptor and a flag that both implementations are asked about. -/
def Shared (s : Backends) (fd : Nat) (flag : PollFlag) : Prop :=
  fd < maxPollFds ∧ fd ≠ s.select.pipefd ∧ flag.Directed

instance (s : Backends) (fd : Nat) (flag : PollFlag) : Decidable (s.Shared fd flag) :=
  inferInstanceAs (Decidable (_ ∧ _ ∧ _))

/-- `unwatch_fd` is called on a descriptor that is watched. -/
def Allowed (s : Backends) : AioAct → Prop
  | .watchFd fd flag => s.Shared fd flag
  | .unwatchFd fd flag => s.Shared fd flag ∧ s.table fd ≠ ∅

instance (s : Backends) : (act : AioAct) → Decidable (s.Allowed act)
  | .watchFd fd flag => inferInstanceAs (Decidable (s.Shared fd flag))
  | .unwatchFd fd flag => inferInstanceAs (Decidable (s.Shared fd flag ∧ s.table fd ≠ ∅))

end Backends

/-- Any sequence of calls, made on both. -/
def backendsMachine (pipefd : Nat) : Machine Backends AioAct where
  init := .init pipefd
  next := Backends.step

namespace Backends

variable {s s' : Backends} {act : AioAct} {fd : Nat} {flag : PollFlag}

/-- Both implementations keep the table. -/
structure Agree (s : Backends) : Prop where
  select : s.select.Refines s.table
  epoll : s.epoll.Refines s.table

/-- Both answer an `unwatch_fd` with what the table says. -/
theorem unwatchFd_answers (h : s.Agree) (hs : s.Shared fd flag) (hw : s.table fd ≠ ∅) :
    ∃ a e, s.select.unwatchFd fd flag =
        some (a, decide (s.table.unwatchFd fd flag fd = ∅)) ∧
      s.epoll.unwatchFd fd flag = some (e, decide (s.table.unwatchFd fd flag fd = ∅)) ∧
      a.Refines (s.table.unwatchFd fd flag) ∧ e.Refines (s.table.unwatchFd fd flag) := by
  obtain ⟨hfd, hpipe, hf⟩ := hs
  obtain ⟨a, ha⟩ := SelectAio.unwatchFd_answer h.select hpipe hf
  obtain ⟨e, he, hre⟩ := EPollAio.refines_unwatchFd h.epoll hfd hf hw
  exact ⟨a, e, ha, he, SelectAio.refines_unwatchFd h.select ha, hre⟩

theorem agree_step (h : s.Agree) (hg : s.Allowed act) (hn : s.step act = some s') : s'.Agree := by
  cases act with
  | watchFd fd flag =>
      obtain ⟨hfd, -, hf⟩ := hg
      obtain ⟨e, he, hre⟩ := EPollAio.refines_watchFd h.epoll hfd hf
      simp only [step, he] at hn
      cases hn
      exact ⟨SelectAio.refines_watchFd h.select hf, hre⟩
  | unwatchFd fd flag =>
      obtain ⟨a, e, ha, he, hra, hre⟩ := unwatchFd_answers h hg.1 hg.2
      simp only [step, ha, he] at hn
      cases hn
      exact ⟨hra, hre⟩

theorem agree_of_reached {pipefd : Nat} (h : (backendsMachine pipefd).ReachedVia Allowed s) :
    s.Agree :=
  h.invariant ⟨SelectAio.refines_init pipefd, EPollAio.refines_init⟩
    fun _ _ _ ha hg hn => agree_step ha hg hn

/-- After every sequence of calls both implementations get through every further
call, and answer every `unwatch_fd` alike.  `is_watched` of `SelectAIO` says
whether all the directions of the flag are watched.  The one of `EPollAIO` says the
same exactly where they are not. -/
theorem backends_agree {pipefd : Nat} (h : (backendsMachine pipefd).ReachedVia Allowed s) :
    (∀ act, s.Allowed act → (s.step act).isSome = true) ∧
      (∀ fd flag, s.Allowed (.unwatchFd fd flag) → ∃ a e gone,
        s.select.unwatchFd fd flag = some (a, gone) ∧
        s.epoll.unwatchFd fd flag = some (e, gone)) ∧
      ∀ fd flag, s.Shared fd flag →
        (s.select.isWatched fd flag = true ↔ s.table.Watches fd flag) ∧
        (s.epoll.isWatched fd flag = some (s.select.isWatched fd flag) ↔
          ¬ s.table.Watches fd flag) := by
  have hagree := agree_of_reached h
  refine ⟨fun act hg => ?_, fun fd flag hg => ?_, fun fd flag hs => ?_⟩
  · cases act with
    | watchFd fd flag =>
        obtain ⟨hfd, -, hf⟩ := hg
        obtain ⟨e, he, -⟩ := EPollAio.refines_watchFd hagree.epoll hfd hf
        simp [step, he]
    | unwatchFd fd flag =>
        obtain ⟨a, e, ha, he, -⟩ := unwatchFd_answers hagree hg.1 hg.2
        simp [step, ha, he]
  · obtain ⟨a, e, ha, he, -⟩ := unwatchFd_answers hagree hg.1 hg.2
    exact ⟨a, e, _, ha, he⟩
  · obtain ⟨hfd, hpipe, hf⟩ := hs
    have hsel := SelectAio.isWatched_iff hagree.select hpipe hf
    refine ⟨hsel, ?_⟩
    rw [EPollAio.isWatched_eq_false hagree.epoll hfd hf, ← hsel, Bool.not_eq_true]
    exact ⟨fun he => (Option.some.inj he).symm, fun he => congrArg some he.symm⟩

/-- Both directions of 5, of which one is taken out again. -/
def partialCalls : List AioAct := [.watchFd 5 .rdwr, .watchFd 6 .wronly, .unwatchFd 5 .wronly]

theorem backends_agree_partialCalls : ∃ s, (backendsMachine 3).ReachedVia Allowed s ∧
    (s.epoll.isWatched 5 .rdwr = some (s.select.isWatched 5 .rdwr)) ∧
    s.epoll.isWatched 5 .rdonly ≠ some (s.select.isWatched 5 .rdonly) := by
  obtain ⟨s, hs, hp⟩ := @Machine.exists_reachedVia_of_run _ _ (backendsMachine 3) Allowed _
    (fun s => decide (s.table 5 = {.read} ∧ s.select.pipefd = 3)) partialCalls (by decide)
  obtain ⟨htable, hpipe⟩ := of_decide_eq_true hp
  have hshared (flag : PollFlag) (hf : flag.Directed) : s.Shared 5 flag := by
    refine ⟨by decide, ?_, hf⟩
    rw [hpipe]
    decide
  obtain ⟨-, -, hall⟩ := backends_agree hs
  refine ⟨s, hs, (hall 5 .rdwr (hshared _ trivial)).2.mpr ?_, fun he => ?_⟩
  · unfold WatchTable.Watches
    rw [htable]
    decide
  · refine (hall 5 .rdonly (hshared _ trivial)).2.mp he ?_
    unfold WatchTable.Watches
    rw [htable]
    decide

/-- A descriptor that is watched, of which `EPollAIO` says that it is not. -/
theorem isWatched_differs : ¬ ∀ pipefd s, (backendsMachine pipefd).ReachedVia Allowed s →
    ∀ fd flag, s.Shared fd flag →
      s.epoll.isWatched fd flag = some (s.select.isWatched fd flag) := by
  intro hall
  obtain ⟨s, hs, hp⟩ := @Machine.exists_reachedVia_of_run _ _ (backendsMachine 3) Allowed _
    (fun s => decide (s.Shared 5 .rdonly ∧
      s.epoll.isWatched 5 .rdonly ≠ some (s.select.isWatched 5 .rdonly)))
    [.watchFd 5 .rdonly] (by decide)
  obtain ⟨hshared, hne⟩ := of_decide_eq_true hp
  exact hne (hall 3 s hs 5 .rdonly hshared)

end Backends

end RpcLock
