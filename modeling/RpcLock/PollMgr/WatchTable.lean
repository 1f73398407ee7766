import RpcLock.PollMgr.HighFd
import Mathlib.Data.Fintype.Powerset

/-!
# What an `aio_mgr` watches

A table has the directions that are watched, by descriptor.  `watch_fd` adds the
directions of its flag and `unwatch_fd` takes them out; `is_watched` asks whether
all of them are there.  This is what the two implementations are for.
-/

namespace RpcLock

inductive Direction where
  | read
  | write
deriving DecidableEq, Repr

instance : Fintype Direction := ⟨{.read, .write}, fun d => by cases d <;> decide⟩

/-- The directions a flag stands for. -/
def PollFlag.directions : PollFlag → Finset Direction
  | .rdonly => {.read}
  | .wronly => {.write}
  | .rdwr => {.read, .write}
  | .none | .mask => ∅

/-- The directions watched, by descriptor. -/
abbrev WatchTable := Nat → Finset Direction

namespace WatchTable

variable {w : WatchTable} {fd : Nat} {flag : PollFlag}

def watchFd (w : WatchTable) (fd : Nat) (flag : PollFlag) : WatchTable :=
  Function.update w fd (w fd ∪ flag.directions)

def unwatchFd (w : WatchTable) (fd : Nat) (flag : PollFlag) : WatchTable :=
  Function.update w fd (w fd \ flag.directions)

/-- All the directions of the flag are watched. -/
def Watches (w : WatchTable) (fd : Nat) (flag : PollFlag) : Prop := flag.directions ⊆ w fd

instance (w : WatchTable) (fd : Nat) (flag : PollFlag) : Decidable (w.Watches fd flag) :=
  inferInstanceAs (Decidable (flag.directions ⊆ w fd))

@[simp] theorem watchFd_self : w.watchFd fd flag fd = w fd ∪ flag.directions :=
  Function.update_self _ _ _

@[simp] theorem unwatchFd_self : w.unwatchFd fd flag fd = w fd \ flag.directions :=
  Function.update_self _ _ _

end WatchTable

/-! ## `SelectAIO` -/

namespace SelectAio

variable {a a' : SelectAio} {w : WatchTable} {fd i : Nat} {flag : PollFlag} {gone : Bool}
  {d : Direction}

/-- `SelectAIO::is_watched`. -/
def isWatched (a : SelectAio) (fd : Nat) (flag : PollFlag) : Bool :=
  match flag with
  | .rdonly => decide (fd ∈ a.rfds)
  | .wronly => decide (fd ∈ a.wfds)
  | _ => decide (fd ∈ a.rfds) && decide (fd ∈ a.wfds)

/-- The set of a direction. -/
def fds (a : SelectAio) : Direction → Finset Nat
  | .read => a.rfds
  | .write => a.wfds

/-- The two sets are the table, but for the pipe. -/
def Refines (a : SelectAio) (w : WatchTable) : Prop :=
  ∀ fd ≠ a.pipefd, ∀ d, fd ∈ a.fds d ↔ d ∈ w fd

theorem watched_iff_fds : a.Watched fd ↔ ∃ d, fd ∈ a.fds d := by
  constructor
  · rintro (h | h)
    · exact ⟨.read, h⟩
    · exact ⟨.write, h⟩
  · rintro ⟨d, h⟩
    cases d with
    | read => exact .inl h
    | write => exact .inr h

theorem mem_fds_watchFd (hf : flag.Directed) :
    i ∈ (a.watchFd fd flag).fds d ↔ i ∈ a.fds d ∨ i = fd ∧ d ∈ flag.directions := by
  refine hf.cases ?_ ?_ ?_ <;> cases d <;> simp [watchFd, fds, PollFlag.directions, or_comm]

theorem mem_fds_unwatchFd (h : a.unwatchFd fd flag = some (a', gone)) :
    i ∈ a'.fds d ↔ i ∈ a.fds d ∧ ¬ (i = fd ∧ d ∈ flag.directions) := by
  obtain ⟨a₁, h₁, hr, hw, -⟩ := unwatchFd_inv h
  have hfds : a'.fds d = a₁.fds d := by cases d <;> assumption
  rw [hfds]
  cases flag with
  | rdonly => cases h₁; cases d <;> simp [fds, PollFlag.directions, and_comm]
  | wronly => cases h₁; cases d <;> simp [fds, PollFlag.directions, and_comm]
  | rdwr => cases h₁; cases d <;> simp [fds, PollFlag.directions, and_comm]
  | none => cases h₁
  | mask => cases h₁

theorem refines_init (pipefd : Nat) : (init pipefd).Refines fun _ => ∅ := by
  intro fd hfd d
  cases d with
  | read => simpa [init, fds] using hfd
  | write => simp [init, fds]

theorem refines_watchFd (h : a.Refines w) (hf : flag.Directed) :
    (a.watchFd fd flag).Refines (w.watchFd fd flag) := by
  intro i hi d
  rw [pipefd_watchFd] at hi
  rw [mem_fds_watchFd hf, h i hi]
  by_cases he : i = fd
  · subst he
    simp
  · simp [WatchTable.watchFd, he]

theorem refines_unwatchFd (h : a.Refines w) (hu : a.unwatchFd fd flag = some (a', gone)) :
    a'.Refines (w.unwatchFd fd flag) := by
  obtain ⟨a₁, h₁, -, -, hp, -⟩ := unwatchFd_inv hu
  intro i hi d
  rw [hp, (clear_spec h₁).2.1] at hi
  rw [mem_fds_unwatchFd hu, h i hi]
  by_cases he : i = fd
  · subst he
    simp
  · simp [WatchTable.unwatchFd, he]

/-- `is_watched` answers from the table. -/
theorem isWatched_iff (h : a.Refines w) (hfd : fd ≠ a.pipefd) (hf : flag.Directed) :
    a.isWatched fd flag = true ↔ w.Watches fd flag := by
  have hr : fd ∈ a.rfds ↔ .read ∈ w fd := h fd hfd .read
  have hw : fd ∈ a.wfds ↔ .write ∈ w fd := h fd hfd .write
  unfold WatchTable.Watches
  refine hf.cases ?_ ?_ ?_
  · simp [isWatched, PollFlag.directions, hr]
  · simp [isWatched, PollFlag.directions, hw]
  · simp [isWatched, PollFlag.directions, hr, hw, Finset.insert_subset_iff]

/-- `unwatch_fd` answers whether the table has nothing left for the descriptor. -/
theorem unwatchFd_answer (h : a.Refines w) (hfd : fd ≠ a.pipefd) (hf : flag.Directed) :
    ∃ a', a.unwatchFd fd flag = some (a', decide (w.unwatchFd fd flag fd = ∅)) := by
  obtain ⟨a₁, h₁⟩ := clear_isSome a fd hf
  have hu : a.unwatchFd fd flag = some _ := congrArg (Option.map _) h₁
  obtain ⟨a₂, h₂, -, -, hp, -, hgone⟩ := unwatchFd_inv hu
  refine ⟨_, hu.trans (congrArg some (Prod.ext rfl ?_))⟩
  refine Bool.eq_iff_iff.mpr (hgone.trans ?_)
  have hpipe : fd ≠ SelectAio.pipefd _ := (hp.trans (clear_spec h₂).2.1) ▸ hfd
  rw [decide_eq_true_iff, watched_iff_fds, Finset.eq_empty_iff_forall_notMem, not_exists]
  exact forall_congr' fun d => not_congr (refines_unwatchFd h hu fd hpipe d)

end SelectAio

end RpcLock
