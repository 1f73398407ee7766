import RpcLock.Library.Machine
import RpcLock.Rpcc.Timespec
import Mathlib.Data.Nat.Log

/-!
# The retry schedule of `call1`

The loop of `call1` while no reply and no cancellation arrives.  A step is one
turn: a clock reading, the deadline computed from it, and the moment at which
`pthread_cond_timedwait` reports `ETIMEDOUT`.  What the loop transmits between
two waits only takes time, which the next reading accounts for.  The interval
doubles, so the time passed so far is at least the next interval less one
second, and the loop meets its final deadline before the interval overflows.
-/

namespace RpcLock.Rpcc

/-- `to_min`, in milliseconds. -/
def toMin : Int := 1000

/-- `curr_to.to <<= 1` on a 32-bit `int`. -/
def shl1 (x : Int) : Int := (x * 2).bmod (2 ^ 32)

/-- A timed wait of the loop. -/
structure Wait where
  /-- The value of `curr_to` behind its deadline. -/
  currTo : Int
  deadline : Timespec
  /-- When it reported `ETIMEDOUT`, in nanoseconds. -/
  woke : Int

inductive CallPhase where
  | entry
  | looping
  | timedOut
deriving DecidableEq

/-- The locals of `call1` that the schedule depends on. -/
structure Retry where
  phase : CallPhase
  /-- The first clock reading. -/
  start : Timespec
  /-- The moment up to which the clock has been observed. -/
  clock : Int
  finaldeadline : Timespec
  currTo : Int
  /-- The waits made so far. -/
  waits : List Wait

inductive RetryAct where
  /-- The first clock reading. -/
  | enter (now : Timespec)
  /-- A clock reading and the moment the wait it leads to ends. -/
  | wait (now : Timespec) (woke : Int)
  /-- The loop is left with `timeout_failure`. -/
  | giveUp

/-- What `clock_gettime` may return once the clock has shown `clock`. -/
def Timespec.Reads (now : Timespec) (clock : Int) : Prop :=
  now.Normalized ∧ 0 < now.tvSec ∧ clock ≤ now.ns

instance (now : Timespec) (clock : Int) : Decidable (now.Reads clock) :=
  inferInstanceAs (Decidable ((_ ∧ _) ∧ _ ∧ _))

namespace Retry

def init : Retry where
  phase := .entry
  start := ⟨0, 0⟩
  clock := 0
  finaldeadline := ⟨0, 0⟩
  currTo := 0
  waits := []

/-- The start of `call1` for a timeout of `timeout` milliseconds. -/
def enter (timeout : Int) (r : Retry) (now : Timespec) : Option Retry :=
  match addTimespec now timeout with
  | none => none
  | some final =>
      some { r with
        phase := .looping, start := now, clock := now.ns, finaldeadline := final
        currTo := toMin }

/-- `nextdeadline` and `finaldeadline` after a clock reading. -/
def deadlines (r : Retry) (now : Timespec) : Option (Timespec × Timespec) :=
  match addTimespec now r.currTo with
  | none => none
  | some next =>
      if cmpTimespec next r.finaldeadline > 0 then
        some (r.finaldeadline, { r.finaldeadline with tvSec := 0 })
      else some (next, r.finaldeadline)

/-- A turn of the loop that times out. -/
def turn (r : Retry) (now : Timespec) (woke : Int) : Option Retry :=
  match r.deadlines now with
  | none => none
  | some (next, final) =>
      if now.ns ≤ woke ∧ next.ns ≤ woke then
        some { r with
          clock := woke, finaldeadline := final, currTo := shl1 r.currTo
          waits := r.waits ++ [⟨r.currTo, next, woke⟩] }
      else none

end Retry

/-- `call1` with a timeout of `timeout` milliseconds and no reply. -/
def retryMachine (timeout : Int) : Machine Retry RetryAct where
  init := .init
  next r a :=
    match a with
    | .enter now =>
        if r.phase = .entry ∧ now.Reads r.clock then r.enter timeout now else none
    | .wait now woke =>
        if r.phase = .looping ∧ r.finaldeadline.tvSec ≠ 0 ∧ now.Reads r.clock then
          r.turn now woke
        else none
    | .giveUp =>
        if r.phase = .looping ∧ r.finaldeadline.tvSec = 0 then
          some { r with phase := .timedOut }
        else none

namespace Retry

variable {timeout : Int} {k : Nat} {r r' : Retry} {now : Timespec} {woke : Int}

/-! ## Doubling -/

/-- An interval that is at most the timeout and a second more fits an `int`. -/
theorem interval_lt (hto : timeout < 2 ^ 31) (h : 1000 * ((2 : Int) ^ k - 1) ≤ timeout) :
    1000 * (2 : Int) ^ k < 2 ^ 31 := by
  have hk : k < 22 := by
    by_contra hge
    have : (2 : Int) ^ 22 ≤ 2 ^ k := pow_le_pow_right₀ (by decide) (by omega)
    omega
  have : (2 : Int) ^ k ≤ 2 ^ 21 := pow_le_pow_right₀ (by decide) (by omega)
  omega

theorem shl1_interval (hto : timeout < 2 ^ 31) (h : 1000 * ((2 : Int) ^ (k + 1) - 1) ≤ timeout) :
    shl1 (1000 * 2 ^ k) = 1000 * 2 ^ (k + 1) := by
  have hlt := interval_lt hto h
  have hpos : (0 : Int) < 2 ^ k := by positivity
  rw [pow_succ] at hlt ⊢
  unfold shl1
  rw [Int.bmod_eq_of_le (by omega) (by omega)]
  ring

theorem le_log_of_interval (h : 1000 * ((2 : Int) ^ k - 1) ≤ timeout) :
    k ≤ Nat.log 2 (timeout.toNat / 1000 + 1) := by
  apply Nat.le_log_of_pow_le (by decide)
  have hcast : ((2 ^ k : Nat) : Int) = 2 ^ k := by push_cast; rfl
  omega

/-! ## The schedule -/

/-- The moment `timeout` milliseconds after the first clock reading. -/
def limit (timeout : Int) (r : Retry) : Int := r.start.ns + timeout * 1000000

/-- The schedule while `k` waits have left `finaldeadline` alone. -/
structure Running (timeout : Int) (k : Nat) (r : Retry) : Prop where
  looping : r.phase = .looping
  sec : 0 < r.finaldeadline.tvSec
  nsec : 0 ≤ r.finaldeadline.tvNsec ∧ r.finaldeadline.tvNsec ≤ 1000000000
  final : r.finaldeadline.ns = r.limit timeout
  currTo : r.currTo = 1000 * 2 ^ k
  interval : 1000 * ((2 : Int) ^ k - 1) ≤ timeout
  clock : r.start.ns + 1000 * ((2 : Int) ^ k - 1) * 1000000 ≤ r.clock

/-- The schedule once `nextdeadline` was `finaldeadline`. -/
structure Ended (timeout : Int) (r : Retry) : Prop where
  sec : r.finaldeadline.tvSec = 0
  interval : ∃ k, r.waits.length = k + 1 ∧ 1000 * ((2 : Int) ^ k - 1) ≤ timeout
  last : ∃ w, r.waits.getLast? = some w ∧ w.deadline.ns = r.limit timeout ∧ w.deadline.ns ≤ w.woke

/-- The waits made after the entry. -/
structure Waited (timeout : Int) (r : Retry) : Prop where
  deadline : ∀ w ∈ r.waits, w.deadline.ns ≤ r.limit timeout
  currTo : ∀ (i : Nat) w, r.waits[i]? = some w → w.currTo = 1000 * 2 ^ i ∧ w.currTo < 2 ^ 31

/-- What holds at every moment of a call. -/
def Schedule (timeout : Int) (r : Retry) : Prop :=
  r.Waited timeout ∧ ((r.phase = .entry ∧ r.waits = []) ∨
    r.Running timeout r.waits.length ∨ (r.phase ≠ .entry ∧ r.Ended timeout))

theorem schedule_init : Schedule timeout .init :=
  ⟨⟨by simp [init], by simp [init]⟩, .inl ⟨rfl, rfl⟩⟩

/-- The entry starts the schedule with an interval of one second. -/
theorem enter_running (h0 : 0 ≤ timeout) (hw : r.waits = []) (hread : now.Reads r.clock)
    (h : r.enter timeout now = some r') :
    r'.waits = [] ∧ r'.Running timeout 0 := by
  unfold enter at h
  cases ha : addTimespec now timeout with
  | none => simp [ha] at h
  | some final =>
      simp only [ha] at h
      cases h
      obtain ⟨⟨hn0, -⟩, hsec, -⟩ := hread
      obtain ⟨hns, hf0, hf1, hfs⟩ := addTimespec_spec h0 hn0 ha
      refine ⟨hw, rfl, ?_, ⟨hf0, hf1⟩, hns, rfl, by simpa using h0, ?_⟩
      · dsimp only
        omega
      · simp

/-- A wait behind a schedule that runs. -/
theorem Waited.append (h : r.Waited timeout) (hto : timeout < 2 ^ 31)
    (hrun : r.Running timeout r.waits.length)
    {d final : Timespec} (hd : d.ns ≤ r.limit timeout) :
    ({ r with
        clock := woke, finaldeadline := final, currTo := shl1 r.currTo
        waits := r.waits ++ [⟨r.currTo, d, woke⟩] } : Retry).Waited timeout := by
  constructor
  · intro w hw
    rcases List.mem_append.mp hw with hw | hw
    · exact h.deadline w hw
    · rw [List.mem_singleton.mp hw]
      exact hd
  · intro i w hw
    rw [List.getElem?_append] at hw
    split at hw
    · exact h.currTo i w hw
    · rename_i hi
      obtain ⟨hi0, rfl⟩ : i - r.waits.length = 0 ∧ ⟨r.currTo, d, woke⟩ = w := by
        simpa [List.getElem?_singleton] using hw
      have hlen : i = r.waits.length := by omega
      rw [hlen, hrun.currTo]
      exact ⟨rfl, interval_lt hto hrun.interval⟩

/-- The two outcomes of a clock reading. -/
theorem deadlines_cases {d final : Timespec} (h : r.deadlines now = some (d, final)) :
    ∃ next, addTimespec now r.currTo = some next ∧
      ((0 < cmpTimespec next r.finaldeadline ∧ d = r.finaldeadline ∧
          final = { r.finaldeadline with tvSec := 0 }) ∨
        (cmpTimespec next r.finaldeadline ≤ 0 ∧ d = next ∧ final = r.finaldeadline)) := by
  unfold deadlines at h
  cases ha : addTimespec now r.currTo with
  | none => simp [ha] at h
  | some next =>
      rw [ha] at h
      refine ⟨next, rfl, ?_⟩
      simp only at h
      split at h
      · rename_i hgt
        cases h
        exact .inl ⟨hgt, rfl, rfl⟩
      · rename_i hle
        cases h
        exact .inr ⟨not_lt.mp hle, rfl, rfl⟩

/-- A turn keeps the schedule: the next deadline is within the limit and the
wait uses up the interval, or the wait is the last one. -/
theorem Running.turn (h : r.Running timeout r.waits.length) (hw : r.Waited timeout)
    (hto : timeout < 2 ^ 31) (hread : now.Reads r.clock) (hn : r.turn now woke = some r') :
    r'.Waited timeout ∧
      (r'.Running timeout r'.waits.length ∨ (r'.phase ≠ .entry ∧ r'.Ended timeout)) := by
  obtain ⟨⟨hn0, -⟩, -, hclock⟩ := hread
  unfold Retry.turn at hn
  cases hd : r.deadlines now with
  | none => simp [hd] at hn
  | some ds =>
      obtain ⟨d, final⟩ := ds
      simp only [hd] at hn
      split at hn
      case isFalse => cases hn
      rename_i hwoke
      cases hn
      have hpos : (0 : Int) < 2 ^ r.waits.length := by positivity
      obtain ⟨next, ha, hcase⟩ := deadlines_cases hd
      obtain ⟨hns, hx0, hx1, -⟩ := addTimespec_spec (by rw [h.currTo]; omega) hn0 ha
      rcases hcase with ⟨-, rfl, rfl⟩ | ⟨hcmp, rfl, rfl⟩
      · refine ⟨hw.append hto h h.final.le, .inr ⟨by simp [h.looping], rfl, ?_, ?_⟩⟩
        · exact ⟨_, by simp, h.interval⟩
        · exact ⟨⟨r.currTo, r.finaldeadline, woke⟩, by simp, h.final, hwoke.2⟩
      · have hle : d.ns ≤ r.limit timeout :=
          (ns_le_of_cmp_nonpos hx1 h.nsec.1 hcmp).trans h.final.le
        have hclk := h.clock
        have hcur := h.currTo
        have hnext :
            r.start.ns + 1000 * ((2 : Int) ^ (r.waits.length + 1) - 1) * 1000000 ≤ d.ns := by
          rw [pow_succ]
          omega
        have hint : 1000 * ((2 : Int) ^ (r.waits.length + 1) - 1) ≤ timeout := by
          unfold limit at hle
          omega
        refine ⟨hw.append hto h hle, .inl ?_⟩
        simp only [List.length_append, List.length_cons, List.length_nil, Nat.zero_add]
        refine ⟨h.looping, h.sec, h.nsec, h.final, ?_, hint, ?_⟩
        · dsimp only
          rw [hcur, shl1_interval hto hint]
        · exact hnext.trans hwoke.2

/-- Every step keeps the schedule. -/
theorem schedule_next (h0 : 0 ≤ timeout) (hto : timeout < 2 ^ 31) {a : RetryAct}
    (h : r.Schedule timeout) (hn : (retryMachine timeout).next r a = some r') :
    r'.Schedule timeout := by
  obtain ⟨hw, hphase⟩ := h
  cases a with
  | enter now =>
      simp only [retryMachine] at hn
      split at hn
      case isFalse => cases hn
      rename_i hg
      have hnil : r.waits = [] := by
        rcases hphase with ⟨-, hnil⟩ | hrun | ⟨hne, -⟩
        · exact hnil
        · simp [hrun.looping] at hg
        · exact absurd hg.1 hne
      obtain ⟨hnil', hrun⟩ := enter_running h0 hnil hg.2 hn
      exact ⟨⟨by simp [hnil'], by simp [hnil']⟩, .inr (.inl (by simpa [hnil'] using hrun))⟩
  | wait now woke =>
      simp only [retryMachine] at hn
      split at hn
      case isFalse => cases hn
      rename_i hg
      have hrun : r.Running timeout r.waits.length := by
        rcases hphase with ⟨hp, -⟩ | hrun | ⟨-, hend⟩
        · simp [hp] at hg
        · exact hrun
        · exact absurd hend.sec hg.2.1
      obtain ⟨hw', hphase'⟩ := hrun.turn hw hto hg.2.2 hn
      exact ⟨hw', .inr hphase'⟩
  | giveUp =>
      simp only [retryMachine] at hn
      split at hn
      case isFalse => cases hn
      rename_i hg
      cases hn
      refine ⟨⟨hw.deadline, hw.currTo⟩, .inr (.inr ⟨by simp, ?_⟩)⟩
      rcases hphase with ⟨hp, -⟩ | hrun | ⟨-, hend⟩
      · simp [hp] at hg
      · exact absurd hg.2 hrun.sec.ne'
      · exact ⟨hend.sec, hend.interval, hend.last⟩

/-! ## Progress -/

/-- A clock reading whose deadline is representable leads to a wait, which may
end at any moment from some point on. -/
theorem Running.progress (h : r.Running timeout r.waits.length) (hread : now.Reads r.clock)
    (hfit : now.ns + r.currTo * 1000000 < 2 ^ 63 * 1000000000) :
    ∃ m, ∀ woke, m ≤ woke → ∃ r', r.turn now woke = some r' := by
  have hpos : (0 : Int) < 2 ^ r.waits.length := by positivity
  have hcur := h.currTo
  have hsec := hread.2.1
  obtain ⟨next, ha⟩ := addTimespec_isSome hread.1 (by omega) (by omega) hfit
  have hd : ∃ ds, r.deadlines now = some ds := by
    simp only [deadlines, ha]
    split <;> exact ⟨_, rfl⟩
  obtain ⟨⟨d, final⟩, hd⟩ := hd
  refine ⟨max now.ns d.ns, fun woke hm => ?_⟩
  simp only [Retry.turn, hd]
  rw [if_pos ⟨le_of_max_le_left hm, le_of_max_le_right hm⟩]
  exact ⟨_, rfl⟩

/-- The steps of a call: one to enter, one for each wait, one to return. -/
def steps (r : Retry) : Nat :=
  r.waits.length + match r.phase with
    | .entry => 0
    | .looping => 1
    | .timedOut => 2

theorem steps_next {a : RetryAct} (hn : (retryMachine timeout).next r a = some r') :
    r'.steps = r.steps + 1 := by
  cases a with
  | enter now =>
      simp only [retryMachine] at hn
      split at hn
      case isFalse => cases hn
      rename_i hg
      unfold enter at hn
      cases ha : addTimespec now timeout with
      | none => simp [ha] at hn
      | some final =>
          simp only [ha] at hn
          cases hn
          simp [steps, hg.1]
  | wait now woke =>
      simp only [retryMachine] at hn
      split at hn
      case isFalse => cases hn
      unfold Retry.turn at hn
      cases hd : r.deadlines now with
      | none => simp [hd] at hn
      | some ds =>
          simp only [hd] at hn
          split at hn
          case isFalse => cases hn
          cases hn
          simp only [steps, List.length_append, List.length_cons, List.length_nil]
          omega
  | giveUp =>
      simp only [retryMachine] at hn
      split at hn
      case isFalse => cases hn
      rename_i hg
      cases hn
      simp [steps, hg.1]

theorem Schedule.waits_le (h : r.Schedule timeout) :
    r.waits.length ≤ Nat.log 2 (timeout.toNat / 1000 + 1) + 1 := by
  rcases h.2 with ⟨-, hnil⟩ | hrun | ⟨-, hend⟩
  · simp [hnil]
  · exact (le_log_of_interval hrun.interval).trans (Nat.le_succ _)
  · obtain ⟨k, hlen, hint⟩ := hend.interval
    rw [hlen]
    exact Nat.succ_le_succ (le_log_of_interval hint)

/-- Every run of a call that gets no reply: it makes at most
`log2 (timeout / 1000 + 1) + 1` waits on intervals of `1000 * 2 ^ i`, none
beyond the limit, it returns only after a wait for exactly the limit, and until
it returns there is a next step. -/
theorem retry_on_time (h0 : 0 ≤ timeout) (hto : timeout < 2 ^ 31) (as : List RetryAct)
    (hr : (retryMachine timeout).run .init as = some r) :
    r.waits.length ≤ Nat.log 2 (timeout.toNat / 1000 + 1) + 1 ∧
      as.length ≤ r.waits.length + 2 ∧
      (∀ w ∈ r.waits, w.deadline.ns ≤ r.start.ns + timeout * 1000000) ∧
      (∀ (i : Nat) w, r.waits[i]? = some w → w.currTo = 1000 * 2 ^ i ∧ w.currTo < 2 ^ 31) ∧
      (r.phase = .timedOut → ∃ w, r.waits.getLast? = some w ∧
        w.deadline.ns = r.start.ns + timeout * 1000000 ∧ w.deadline.ns ≤ w.woke) ∧
      (r.phase = .looping → r.finaldeadline.tvSec = 0 →
        ∃ r', (retryMachine timeout).next r .giveUp = some r') ∧
      (r.phase = .looping → r.finaldeadline.tvSec ≠ 0 → ∀ now, now.Reads r.clock →
        now.ns + r.currTo * 1000000 < 2 ^ 63 * 1000000000 →
        ∃ m, ∀ woke, m ≤ woke → ∃ r', (retryMachine timeout).next r (.wait now woke) = some r') := by
  have hsched : r.Schedule timeout :=
    (Machine.ReachedVia.run .init hr).invariant schedule_init
      fun _ _ _ hs hn => schedule_next h0 hto hs hn
  have hlen := Machine.run_length steps (fun _ _ _ => steps_next) hr
  refine ⟨hsched.waits_le, ?_, hsched.1.deadline, hsched.1.currTo, ?_, ?_, ?_⟩
  · have : r.steps ≤ r.waits.length + 2 := by
      unfold steps
      split <;> omega
    have hinit : init.steps = 0 := rfl
    omega
  · intro hp
    rcases hsched.2 with ⟨he, -⟩ | hrun | ⟨-, hend⟩
    · rw [hp] at he
      cases he
    · rw [hrun.looping] at hp
      cases hp
    · exact hend.last
  · intro hp hf
    exact ⟨_, if_pos ⟨hp, hf⟩⟩
  · intro hp hf now hread hfit
    rcases hsched.2 with ⟨he, -⟩ | hrun | ⟨-, hend⟩
    · rw [hp] at he
      cases he
    · obtain ⟨m, hm⟩ := hrun.progress hread hfit
      refine ⟨m, fun woke hle => ?_⟩
      obtain ⟨r', hturn⟩ := hm woke hle
      exact ⟨r', (if_pos ⟨hp, hf, hread⟩).trans hturn⟩
    · exact absurd hend.sec hf

/-- A timeout of half a second takes one wait. -/
theorem retry_half_second :
    ∃ r, (retryMachine 500).run .init
        [.enter ⟨1, 0⟩, .wait ⟨1, 0⟩ 1500000000, .giveUp] = some r ∧
      r.waits.length ≤ Nat.log 2 ((500 : Int).toNat / 1000 + 1) + 1 := by
  have hfinal : addTimespec ⟨1, 0⟩ 500 = some ⟨1, 500000000⟩ := by
    rw [addTimespec_eq (by decide) (by decide)]
    exact carry_of_le (by decide)
  have hnext : addTimespec ⟨1, 0⟩ 1000 = some ⟨2, 0⟩ := by
    rw [addTimespec_eq (by decide) (by decide)]
    exact carry_of_le (by decide)
  obtain ⟨r, hr⟩ : ∃ r, (retryMachine 500).run .init
      [.enter ⟨1, 0⟩, .wait ⟨1, 0⟩ 1500000000, .giveUp] = some r := by
    simp [Machine.run, retryMachine, enter, turn, deadlines, hfinal, hnext, init, toMin,
      Timespec.Reads, Timespec.Normalized, Timespec.ns, cmpTimespec]
  exact ⟨r, hr, (retry_on_time (by decide) (by decide) _ hr).1⟩

end Retry

end RpcLock.Rpcc
