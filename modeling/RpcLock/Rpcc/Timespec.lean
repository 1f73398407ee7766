import Mathlib.Tactic.Ring
import Mathlib.Tactic.NormNum

/-!
# Deadlines

`add_timespec` and `cmp_timespec`.  The carry loop of `add_timespec` stops at a
nanosecond part of exactly one second, so the sum is normalized except there.
-/

namespace RpcLock.Rpcc

/-- `struct timespec`. -/
structure Timespec where
  tvSec : Int
  tvNsec : Int
deriving DecidableEq, Repr

/-- A value of `time_t`, a signed 64-bit integer whose overflow is undefined. -/
def timeT (x : Int) : Option Int := if -2 ^ 63 ≤ x ∧ x < 2 ^ 63 then some x else none

namespace Timespec

/-- The only kind `pthread_cond_timedwait` accepts. -/
def Normalized (a : Timespec) : Prop := 0 ≤ a.tvNsec ∧ a.tvNsec < 1000000000

/-- The moment it denotes, in nanoseconds. -/
def ns (a : Timespec) : Int := a.tvSec * 1000000000 + a.tvNsec

end Timespec

/-- `cmp_timespec`. -/
def cmpTimespec (a b : Timespec) : Int :=
  if a.tvSec > b.tvSec then 1
  else if a.tvSec < b.tvSec then -1
  else if a.tvNsec > b.tvNsec then 1
  else if a.tvNsec < b.tvNsec then -1
  else 0

/-- The loop of `add_timespec`. -/
def carry (sec nsec : Int) : Option Timespec :=
  if nsec > 1000000000 then
    match timeT (sec + 1) with
    | none => none
    | some sec' => carry sec' (nsec - 1000000000)
  else some ⟨sec, nsec⟩
termination_by nsec.toNat

/-- `add_timespec`, with a timeout in milliseconds: `none` when its assertion
fails or the seconds leave `time_t`. -/
def addTimespec (a : Timespec) (b : Int) : Option Timespec :=
  match timeT (a.tvSec + b.tdiv 1000) with
  | none => none
  | some sec =>
      let nsec := a.tvNsec + b.tmod 1000 * 1000000
      if nsec ≥ 0 then carry sec nsec else none

variable {sec nsec : Int} {a r : Timespec} {b : Int}

/-! ## Comparison -/

/-- One second of nanoseconds is still ordered by the seconds. -/
theorem ns_le_of_cmp_nonpos (ha : a.tvNsec ≤ 1000000000) (hr : 0 ≤ r.tvNsec)
    (h : cmpTimespec a r ≤ 0) : a.ns ≤ r.ns := by
  unfold cmpTimespec at h
  unfold Timespec.ns
  split_ifs at h <;> omega

/-! ## The carry loop -/

theorem timeT_eq_some {x y : Int} : timeT x = some y ↔ y = x ∧ -2 ^ 63 ≤ x ∧ x < 2 ^ 63 := by
  unfold timeT
  split_ifs with h
  · exact ⟨fun he => ⟨(Option.some.inj he).symm, h⟩, fun he => congrArg some he.1.symm⟩
  · simp only [false_iff, not_and]
    exact fun _ => not_and.mp h

/-- What the loop keeps: the moment, and a nanosecond part between `0` and one
second inclusive. -/
theorem carry_spec (hn : 0 ≤ nsec) (h : carry sec nsec = some r) :
    r.ns = sec * 1000000000 + nsec ∧ 0 ≤ r.tvNsec ∧ r.tvNsec ≤ 1000000000 ∧ sec ≤ r.tvSec := by
  fun_induction carry sec nsec with
  | case1 sec nsec hgt hnone => cases h
  | case2 sec nsec hgt sec' hsome ih =>
      obtain ⟨rfl, -, -⟩ := timeT_eq_some.mp hsome
      obtain ⟨hns, h0, h1, hsec⟩ := ih (by omega) h
      exact ⟨by omega, h0, h1, by omega⟩
  | case3 sec nsec hle =>
      cases h
      exact ⟨rfl, hn, by simpa using hle, le_refl _⟩

/-- The loop leaves a nanosecond part of one second alone. -/
theorem carry_of_le (h : nsec ≤ 1000000000) : carry sec nsec = some ⟨sec, nsec⟩ := by
  rw [carry, if_neg (by omega)]

theorem carry_of_lt (h : 1000000000 < nsec) (h2 : nsec ≤ 2000000000)
    (hlo : -2 ^ 63 ≤ sec + 1) (hhi : sec + 1 < 2 ^ 63) :
    carry sec nsec = some ⟨sec + 1, nsec - 1000000000⟩ := by
  rw [carry, if_pos h, timeT_eq_some.mpr ⟨rfl, hlo, hhi⟩]
  exact carry_of_le (by omega)

/-! ## The sum -/

/-- With a timeout that is not negative the assertion holds and the division
rounds down. -/
theorem addTimespec_eq (hb : 0 ≤ b) (ha : 0 ≤ a.tvNsec) :
    addTimespec a b = (timeT (a.tvSec + b / 1000)).bind fun sec =>
      carry sec (a.tvNsec + b % 1000 * 1000000) := by
  have hmod : 0 ≤ b % 1000 := Int.emod_nonneg b (by decide)
  unfold addTimespec
  rw [Int.tdiv_eq_ediv_of_nonneg hb, Int.tmod_eq_emod_of_nonneg hb]
  cases timeT (a.tvSec + b / 1000) with
  | none => rfl
  | some sec => exact if_pos (by omega)

/-- A sum that is computed denotes the exact moment, with at most one second of
nanoseconds. -/
theorem addTimespec_spec (hb : 0 ≤ b) (ha : 0 ≤ a.tvNsec) (h : addTimespec a b = some r) :
    r.ns = a.ns + b * 1000000 ∧ 0 ≤ r.tvNsec ∧ r.tvNsec ≤ 1000000000 ∧ a.tvSec ≤ r.tvSec := by
  have hmod : 0 ≤ b % 1000 := Int.emod_nonneg b (by decide)
  rw [addTimespec_eq hb ha] at h
  obtain ⟨sec, hsec, hc⟩ := Option.bind_eq_some_iff.mp h
  obtain ⟨rfl, -, -⟩ := timeT_eq_some.mp hsec
  obtain ⟨hns, h0, h1, hle⟩ := carry_spec (by omega) hc
  refine ⟨?_, h0, h1, ?_⟩
  · rw [hns]
    unfold Timespec.ns
    omega
  · omega

/-- The sum is computed as long as it is before the end of `time_t`. -/
theorem addTimespec_isSome (ha : a.Normalized) (hsec : -2 ^ 63 ≤ a.tvSec) (hb : 0 ≤ b)
    (hfit : a.ns + b * 1000000 < 2 ^ 63 * 1000000000) : ∃ r, addTimespec a b = some r := by
  obtain ⟨ha0, ha1⟩ := ha
  have hmod : 0 ≤ b % 1000 := Int.emod_nonneg b (by decide)
  have hmod' : b % 1000 < 1000 := Int.emod_lt_of_pos b (by decide)
  unfold Timespec.ns at hfit
  rw [addTimespec_eq hb ha0, timeT_eq_some.mpr ⟨rfl, by omega, by omega⟩]
  rcases le_or_gt (a.tvNsec + b % 1000 * 1000000) 1000000000 with hle | hgt
  · exact ⟨_, carry_of_le hle⟩
  · exact ⟨_, carry_of_lt hgt (by omega) (by omega) (by omega)⟩

/-- The seconds of a computed sum are in `time_t`. -/
theorem carry_sec_lt (hs : sec < 2 ^ 63) (h : carry sec nsec = some r) : r.tvSec < 2 ^ 63 := by
  fun_induction carry sec nsec with
  | case1 sec nsec hgt hnone => cases h
  | case2 sec nsec hgt sec' hsome ih =>
      obtain ⟨rfl, -, hlt⟩ := timeT_eq_some.mp hsome
      exact ih hlt h
  | case3 sec nsec hle =>
      cases h
      exact hs

/-- The sum is normalized and exact unless the nanosecond parts add up to
exactly one second, as far as `time_t` reaches. -/
theorem addTimespec_exact_iff (a : Timespec) (b : Int) (ha : a.Normalized)
    (hsec : -2 ^ 63 ≤ a.tvSec) (hb : 0 ≤ b) (hb' : b < 2 ^ 31) :
    (∃ r, addTimespec a b = some r ∧ r.Normalized ∧ r.ns = a.ns + b * 1000000) ↔
      a.tvNsec + b % 1000 * 1000000 ≠ 1000000000 ∧
        a.ns + b * 1000000 < 2 ^ 63 * 1000000000 := by
  obtain ⟨ha0, ha1⟩ := ha
  have hmod : 0 ≤ b % 1000 := Int.emod_nonneg b (by decide)
  have hmod' : b % 1000 < 1000 := Int.emod_lt_of_pos b (by decide)
  rw [addTimespec_eq hb ha0]
  constructor
  · rintro ⟨r, hr, ⟨hr0, hr1⟩, hns⟩
    obtain ⟨sec, hs, hc⟩ := Option.bind_eq_some_iff.mp hr
    have hlt := carry_sec_lt (by have := (timeT_eq_some.mp hs); omega) hc
    constructor
    · intro he
      rw [he, carry_of_le (le_refl _)] at hc
      cases hc
      exact lt_irrefl _ hr1
    · rw [← hns]
      unfold Timespec.ns
      omega
  · rintro ⟨hne, hfit⟩
    unfold Timespec.ns at hfit ⊢
    rw [timeT_eq_some.mpr ⟨rfl, by omega, by omega⟩]
    rcases lt_or_gt_of_ne hne with hlt | hgt
    · exact ⟨_, carry_of_le (by omega), ⟨by dsimp only; omega, hlt⟩, by dsimp only; omega⟩
    · refine ⟨_, carry_of_lt hgt (by omega) (by omega) (by omega), ⟨?_, ?_⟩, ?_⟩ <;>
        dsimp only <;> omega

/-- A tenth of a second before the full second. -/
theorem addTimespec_exact_tenth :
    ∃ r, addTimespec ⟨1, 900000000⟩ 50 = some r ∧ r.Normalized ∧
      r.ns = (⟨1, 900000000⟩ : Timespec).ns + 50 * 1000000 :=
  (addTimespec_exact_iff ⟨1, 900000000⟩ 50 ⟨by decide, by decide⟩ (by decide) (by decide)
    (by decide)).mpr ⟨by decide, by decide⟩

/-- One millisecond before the full second, with a timeout of one. -/
theorem addTimespec_one_second :
    (⟨1, 999000000⟩ : Timespec).Normalized ∧
      addTimespec ⟨1, 999000000⟩ 1 = some ⟨1, 1000000000⟩ ∧
      ¬ ∃ r, addTimespec ⟨1, 999000000⟩ 1 = some r ∧ r.Normalized ∧
        r.ns = (⟨1, 999000000⟩ : Timespec).ns + 1 * 1000000 := by
  have he : addTimespec ⟨1, 999000000⟩ 1 = some ⟨1, 1000000000⟩ := by
    rw [addTimespec_eq (by decide) (by decide)]
    exact carry_of_le (by decide)
  refine ⟨⟨by decide, by decide⟩, he, ?_⟩
  rintro ⟨r, hr, ⟨-, hlt⟩, -⟩
  rw [he] at hr
  cases hr
  exact absurd hlt (by decide)

end RpcLock.Rpcc
