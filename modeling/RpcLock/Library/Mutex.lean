import RpcLock.Library.Machine

/-!
# Owner-checked mutexes

A mutex that is granted to a client when it is free and released by its holder
only.  In a run grants and releases alternate, each release is by the client of
the grant before it, and the holder is the client of a grant at the end.
-/

inductive MutexEvent (κ : Type*) where
  | grant (c : κ)
  | release (c : κ)
deriving DecidableEq, Repr

/-- The mutex.  Its state is the holder. -/
def mutex (κ : Type*) [DecidableEq κ] : Machine (Option κ) (MutexEvent κ) where
  init := none
  next
    | none, .grant c => some (some c)
    | some c, .release d => if c = d then some none else none
    | none, .release _ => none
    | some _, .grant _ => none

namespace MutexEvent

variable {κ : Type*}

/-- The client of a grant. -/
def grantee : MutexEvent κ → Option κ
  | grant c => some c
  | release _ => none

/-- The client of the latest grant, if nothing follows it. -/
def holder (as : List (MutexEvent κ)) : Option κ := as.getLast?.bind grantee

/-- The events at even positions are grants, and each one behind a grant is its
release. -/
structure Alternating (as : List (MutexEvent κ)) : Prop where
  even : ∀ (i : Nat) e, as[2 * i]? = some e → ∃ c, e = grant c
  odd : ∀ (i : Nat) e, as[2 * i + 1]? = some e → ∃ c, as[2 * i]? = some (grant c) ∧ e = release c

variable {as : List (MutexEvent κ)} {c : κ}

theorem alternating_nil : Alternating ([] : List (MutexEvent κ)) := ⟨by simp, by simp⟩

theorem alternating_grant (c : κ) : Alternating [grant c] := by
  constructor
  · intro i e h
    rw [List.getElem?_singleton] at h
    split at h
    · exact ⟨c, (Option.some.inj h).symm⟩
    · cases h
  · intro i e h
    simp at h

theorem Alternating.cons (h : Alternating as) (c : κ) :
    Alternating (grant c :: release c :: as) := by
  constructor
  · intro i e he
    cases i with
    | zero => exact ⟨c, (Option.some.inj he).symm⟩
    | succ i => exact h.even i e he
  · intro i e he
    cases i with
    | zero => exact ⟨c, rfl, (Option.some.inj he).symm⟩
    | succ i => exact h.odd i e he

variable [DecidableEq κ]

/-- A run is empty, or a grant, or goes on behind a grant and its release. -/
theorem run_cases {o : Option κ} (h : (mutex κ).run none as = some o) :
    (as = [] ∧ o = none) ∨ (∃ c, as = [grant c] ∧ o = some c) ∨
      ∃ c rest, as = grant c :: release c :: rest ∧ (mutex κ).run none rest = some o := by
  match as with
  | [] =>
      cases h
      exact .inl ⟨rfl, rfl⟩
  | release d :: rest =>
      obtain ⟨s, hs, -⟩ := Machine.run_cons_inv h
      cases hs
  | [grant c] =>
      cases h
      exact .inr (.inl ⟨c, rfl, rfl⟩)
  | grant c :: grant d :: rest =>
      obtain ⟨s, hs, hr⟩ := Machine.run_cons_inv h
      cases hs
      obtain ⟨s', hs', -⟩ := Machine.run_cons_inv hr
      cases hs'
  | grant c :: release d :: rest =>
      obtain ⟨s, hs, hr⟩ := Machine.run_cons_inv h
      cases hs
      obtain ⟨s', hs', hr'⟩ := Machine.run_cons_inv hr
      have hif : (if c = d then some (none : Option κ) else none) = some s' := hs'
      split at hif
      · rename_i hcd
        cases hif
        exact .inr (.inr ⟨c, rest, by rw [hcd], hr'⟩)
      · cases hif

/-- What a run of a mutex looks like. -/
theorem alternating_of_run {o : Option κ} (h : (mutex κ).run none as = some o) :
    Alternating as ∧ o = holder as := by
  induction hn : as.length using Nat.strongRecOn generalizing as with
  | _ n ih =>
      rcases run_cases h with ⟨rfl, rfl⟩ | ⟨c, rfl, rfl⟩ | ⟨c, rest, rfl, hr⟩
      · exact ⟨alternating_nil, rfl⟩
      · exact ⟨alternating_grant c, rfl⟩
      · obtain ⟨halt, hold⟩ := ih rest.length (by simp only [← hn, List.length_cons]; omega) hr rfl
        refine ⟨halt.cons c, hold.trans ?_⟩
        cases rest with
        | nil => rfl
        | cons e rest => simp [holder, List.getLast?_cons_cons]

end MutexEvent
