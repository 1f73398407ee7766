import RpcLock.Library.Machine
import Mathlib.Data.Set.Basic

/-!
# Grace periods

A reader works on stale copies of a set that others change: the members of the
set are `live`, and the reader `holds` whatever it has copied and not yet
dropped.  Who retires an item takes it out of the live set and waits until the
item is `released`.

`GracePeriod ι M G` collects what the steps of a machine have to respect.  The
reader only takes hold of live items, and an item is released at a moment at which
it is retired and the reader does not hold it.  The steps that meet `G i` do not
bring `i` back once it is retired.  As long as the steps meet `G i`, the reader
never holds `i` again after its release, whatever happens to the other items.
-/

namespace Machine

variable {σ α ι : Type*}

/-- The discipline of retirement and release.  `inv` is an invariant of the machine
that the conditions may rest on. -/
structure GracePeriod (ι : Type*) (M : Machine σ α) (G : ι → σ → α → Prop) where
  live : σ → Set ι
  held : σ → Set ι
  retired : σ → Set ι
  released : σ → Set ι
  inv : σ → Prop
  inv_init : inv M.init
  retired_init : retired M.init = ∅
  released_init : released M.init = ∅
  inv_step : ∀ {s s' a}, inv s → M.next s a = some s' → inv s'
  retired_step : ∀ {s s' a}, inv s → M.next s a = some s' → retired s ⊆ retired s'
  live_step : ∀ {s s' a}, inv s → M.next s a = some s' →
    ∀ i ∈ retired s', G i s a → i ∈ live s' → i ∈ retired s ∧ i ∈ live s
  held_step : ∀ {s s' a}, inv s → M.next s a = some s' → held s' ⊆ held s ∪ live s
  released_mono : ∀ {s s' a}, inv s → M.next s a = some s' → released s ⊆ released s'
  released_step : ∀ {s s' a}, inv s → M.next s a = some s' →
    ∀ i ∈ released s', i ∈ released s ∨ i ∈ retired s ∧ i ∉ held s'

namespace GracePeriod

variable {M : Machine σ α} {G : ι → σ → α → Prop} (D : GracePeriod ι M G) {s s' : σ} {a : α}
  {i : ι}

/-- Retired, the item is not live, and released, it is not held. -/
structure Safe (i : ι) (s : σ) : Prop where
  inv : D.inv s
  retired : i ∈ D.retired s → i ∉ D.live s
  released : i ∈ D.released s → i ∈ D.retired s ∧ i ∉ D.held s

theorem safe_init : D.Safe i M.init where
  inv := D.inv_init
  retired hi := by
    rw [D.retired_init] at hi
    exact hi.elim
  released hi := by
    rw [D.released_init] at hi
    exact hi.elim

variable {D}

theorem Safe.step (h : D.Safe i s) (hg : G i s a) (hn : M.next s a = some s') :
    D.Safe i s' where
  inv := D.inv_step h.inv hn
  retired hi hl := by
    obtain ⟨hr, hl⟩ := D.live_step h.inv hn i hi hg hl
    exact h.retired hr hl
  released hi := by
    rcases D.released_step h.inv hn i hi with hi | ⟨hr, hh⟩
    · obtain ⟨hr, hh⟩ := h.released hi
      refine ⟨D.retired_step h.inv hn hr, fun hheld => ?_⟩
      -- the reader would have to take hold of a retired item
      rcases D.held_step h.inv hn hheld with hheld | hl
      · exact hh hheld
      · exact h.retired hr hl
    · exact ⟨D.retired_step h.inv hn hr, hh⟩

theorem safe (D : GracePeriod ι M G) (h : M.ReachedVia (G i) s) : D.Safe i s :=
  h.invariant D.safe_init fun _ _ _ hs hg hn => hs.step hg hn

/-- Once an item is released, the reader does not hold it in any later state. -/
theorem Safe.later (h : D.Safe i s) (hi : i ∈ D.released s) (hr : M.ReachesVia (G i) s s') :
    D.Safe i s' ∧ i ∈ D.released s' :=
  hr.invariant (P := fun t => D.Safe i t ∧ i ∈ D.released t) ⟨h, hi⟩ fun _ _ _ ht hg hn =>
    ⟨ht.1.step hg hn, D.released_mono ht.1.inv hn ht.2⟩

end GracePeriod

end Machine
