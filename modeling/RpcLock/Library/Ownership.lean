import Mathlib.Tactic.ByContra

/-!
# Blocks with exactly one owner

A program that frees its blocks by hand is safe when every block it will still
use has one owner.  `Owned alloc owns` says so: an owned block is allocated, and
two owners never hold the same one.

The rules follow what a step does to the owners.  `take` is an allocation.
`shift` renames owners, drops some of them and frees blocks nobody keeps.
-/

/-- Owned blocks are allocated, and no block has two owners. -/
structure Owned {O P : Type*} (alloc : P → Prop) (owns : O → P → Prop) : Prop where
  alloc : ∀ o p, owns o p → alloc p
  unique : ∀ o o' p, owns o p → owns o' p → o = o'

namespace Owned

variable {O P : Type*} {alloc alloc' : P → Prop} {owns owns' : O → P → Prop}

theorem empty (h : ∀ o p, ¬ owns o p) : Owned alloc owns where
  alloc o p ho := (h o p ho).elim
  unique o _ p ho := (h o p ho).elim

/-- A block that was free goes to a new owner. -/
theorem take (h : Owned alloc owns) {o₀ : O} {p₀ : P} (hfree : ¬ alloc p₀) (hp₀ : alloc' p₀)
    (halloc : ∀ p, alloc p → alloc' p) (howns : ∀ o p, owns' o p → owns o p ∨ o = o₀ ∧ p = p₀) :
    Owned alloc' owns' where
  alloc o p ho := by
    rcases howns o p ho with ho | ⟨-, rfl⟩
    · exact halloc p (h.alloc o p ho)
    · exact hp₀
  unique o o' p ho ho' := by
    rcases howns o p ho with ho | ⟨rfl, rfl⟩ <;> rcases howns o' p ho' with ho' | ⟨rfl, hp⟩
    · exact h.unique o o' p ho ho'
    · exact absurd (h.alloc o p ho) (hp ▸ hfree)
    · exact absurd (h.alloc o' p ho') hfree
    · rfl

/-- Owners are renamed by `f` or disappear, and every freed block belonged to an
owner that is gone. -/
theorem shift (h : Owned alloc owns) (f : O → O) (howns : ∀ o p, owns' o p → owns (f o) p)
    (hinj : ∀ o o' p p', owns' o p → owns' o' p' → f o = f o' → o = o')
    (hfreed : ∀ p, alloc p → ¬ alloc' p → ∃ o₁, owns o₁ p ∧ ∀ o, f o = o₁ → ¬ owns' o p) :
    Owned alloc' owns' where
  alloc o p ho := by
    by_contra hp
    obtain ⟨o₁, ho₁, hgone⟩ := hfreed p (h.alloc _ _ (howns o p ho)) hp
    exact hgone o (h.unique _ _ p (howns o p ho) ho₁) ho
  unique o o' p ho ho' :=
    hinj o o' p p ho ho' (h.unique _ _ p (howns o p ho) (howns o' p ho'))

/-- Fewer owners and more allocated blocks. -/
theorem mono (h : Owned alloc owns) (halloc : ∀ p, alloc p → alloc' p)
    (howns : ∀ o p, owns' o p → owns o p) : Owned alloc' owns' :=
  h.shift id howns (fun _ _ _ _ _ _ he => he) fun p hp hnp => absurd (halloc p hp) hnp

end Owned
