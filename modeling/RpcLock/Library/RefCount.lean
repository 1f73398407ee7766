import Mathlib.Data.List.Count
import Mathlib.Logic.Function.Basic

/-!
# Reference counts

Objects that are shared by hand carry a count, which every holder raises when it
takes the object and lowers when it gives it back.  A step of a program is a
list of such operations, and a decrement of a count that is zero fails.

`Backed held held' ops` says that the operations account for the change in the
numbers of holders.  Counts that are exact before such a step are exact after it.
-/

/-- An operation on the count of an object. -/
inductive RefOp (ι : Type*) where
  | incref (i : ι)
  | decref (i : ι)
deriving DecidableEq, Repr

namespace RefOp

variable {ι : Type*}

/-- The object of an operation. -/
def target : RefOp ι → ι
  | .incref i => i
  | .decref i => i

variable [DecidableEq ι]

def apply (r : ι → Nat) : RefOp ι → Option (ι → Nat)
  | .incref i => some (Function.update r i (r i + 1))
  | .decref i => if r i = 0 then none else some (Function.update r i (r i - 1))

/-- Apply the operations in order. -/
def applyAll (r : ι → Nat) : List (RefOp ι) → Option (ι → Nat)
  | [] => some r
  | op :: ops => (op.apply r).bind fun r => applyAll r ops

/-- How often the count of `i` is raised. -/
def incs (i : ι) : List (RefOp ι) → Nat
  | [] => 0
  | .incref k :: ops => (if k = i then 1 else 0) + incs i ops
  | .decref _ :: ops => incs i ops

/-- How often the count of `i` is lowered. -/
def decs (i : ι) : List (RefOp ι) → Nat
  | [] => 0
  | .incref _ :: ops => decs i ops
  | .decref k :: ops => (if k = i then 1 else 0) + decs i ops

variable {r r' held held' : ι → Nat} {ops : List (RefOp ι)}

theorem applyAll_incref (r : ι → Nat) (k : ι) :
    applyAll r [.incref k] = some (Function.update r k (r k + 1)) := rfl

theorem applyAll_decref_inv {k : ι} (h : applyAll r [.decref k] = some r') :
    r k ≠ 0 ∧ r' = Function.update r k (r k - 1) := by
  by_cases hk : r k = 0
  · simp [applyAll, apply, hk] at h
  · simp only [applyAll, apply, hk, if_false, Option.bind_some, Option.some.injEq] at h
    exact ⟨hk, h.symm⟩

/-- With a reference for each decrement the operations succeed. -/
theorem applyAll_of_le (h : ∀ i, decs i ops ≤ r i) :
    ∃ r', applyAll r ops = some r' ∧ ∀ i, r' i + decs i ops = r i + incs i ops := by
  induction ops generalizing r with
  | nil => exact ⟨r, rfl, fun _ => rfl⟩
  | cons op ops ih =>
      cases op with
      | incref k =>
          have hle : ∀ i, decs i ops ≤ Function.update r k (r k + 1) i := by
            intro i
            have := h i
            by_cases hk : i = k
            · subst hk
              simp only [Function.update_self]
              exact Nat.le_succ_of_le this
            · rwa [Function.update_of_ne hk]
          obtain ⟨r', hr', heq⟩ := ih hle
          refine ⟨r', by rw [applyAll, apply, Option.bind_some, hr'], fun i => ?_⟩
          have := heq i
          by_cases hk : i = k
          · subst hk
            rw [Function.update_self] at this
            simp only [decs, incs, if_true]
            omega
          · rw [Function.update_of_ne hk] at this
            simpa [decs, incs, Ne.symm hk] using this
      | decref k =>
          have hpos : r k ≠ 0 := by
            have := h k
            simp only [decs, if_true] at this
            omega
          have hle : ∀ i, decs i ops ≤ Function.update r k (r k - 1) i := by
            intro i
            have := h i
            by_cases hk : i = k
            · subst hk
              simp only [decs, if_true] at this
              rw [Function.update_self]
              omega
            · rw [Function.update_of_ne hk]
              simpa [decs, Ne.symm hk] using this
          obtain ⟨r', hr', heq⟩ := ih hle
          refine ⟨r', by rw [applyAll, apply, if_neg hpos, Option.bind_some, hr'], fun i => ?_⟩
          have := heq i
          by_cases hk : i = k
          · subst hk
            rw [Function.update_self] at this
            simp only [decs, incs, if_true]
            omega
          · rw [Function.update_of_ne hk] at this
            simpa [decs, incs, Ne.symm hk] using this

/-- The operations account for the change in the numbers of holders, and every
decrement gives back a reference that was held. -/
structure Backed (held held' : ι → Nat) (ops : List (RefOp ι)) : Prop where
  le : ∀ i, decs i ops ≤ held i
  eq : ∀ i, held' i + decs i ops = held i + incs i ops

/-- Exact counts stay exact. -/
theorem Backed.applyAll (h : Backed held held' ops) (hr : ∀ i, r i = held i) :
    ∃ r', applyAll r ops = some r' ∧ ∀ i, r' i = held' i := by
  obtain ⟨r', hr', heq⟩ := applyAll_of_le (r := r) fun i => (hr i).symm ▸ h.le i
  refine ⟨r', hr', fun i => ?_⟩
  have h₁ := heq i
  have h₂ := h.eq i
  rw [hr i] at h₁
  omega

theorem Backed.nil (h : ∀ i, held' i = held i) : Backed held held' [] where
  le _ := Nat.zero_le _
  eq i := h i

/-- A reference is taken. -/
theorem Backed.incref {k : ι} (h : ∀ i, held' i = held i + if k = i then 1 else 0) :
    Backed held held' [.incref k] where
  le _ := Nat.zero_le _
  eq i := by simp [decs, incs, h i]

/-- A reference is given back. -/
theorem Backed.decref {k : ι} (h : ∀ i, held' i + (if k = i then 1 else 0) = held i) :
    Backed held held' [.decref k] where
  le i := by
    have := h i
    simp only [decs]
    omega
  eq i := by simp [decs, incs, h i]

/-- A reference is exchanged for another. -/
theorem Backed.exchange {k l : ι} (hk : 0 < held k)
    (h : ∀ i, held' i + (if k = i then 1 else 0) = held i + if l = i then 1 else 0) :
    Backed held held' [.decref k, .incref l] where
  le i := by
    simp only [decs]
    split
    · next he =>
        subst he
        exact hk
    · exact Nat.zero_le _
  eq i := by simp [decs, incs, h i]

/-- A reference is taken and given back at once. -/
theorem Backed.borrow {k : ι} (hk : 0 < held k) (h : ∀ i, held' i = held i) :
    Backed held held' [.incref k, .decref k] where
  le i := by
    simp only [decs]
    split
    · next he =>
        subst he
        exact hk
    · exact Nat.zero_le _
  eq i := by simp [decs, incs, h i]

/-- A step does not change the counts of the objects it does not touch. -/
theorem Backed.untouched {i : ι} (h : Backed held held' ops)
    (hops : ∀ op ∈ ops, op.target ≠ i) : held' i = held i := by
  have hzero : ∀ ops : List (RefOp ι), (∀ op ∈ ops, op.target ≠ i) →
      incs i ops = 0 ∧ decs i ops = 0 := by
    intro ops hops
    induction ops with
    | nil => exact ⟨rfl, rfl⟩
    | cons op ops ih =>
        obtain ⟨hi, hd⟩ := ih fun op hop => hops op (List.mem_cons_of_mem _ hop)
        have hne := hops op List.mem_cons_self
        cases op with
        | incref k =>
            have hk : k ≠ i := hne
            exact ⟨by rw [incs, hi, if_neg hk], hd⟩
        | decref k =>
            have hk : k ≠ i := hne
            exact ⟨hi, by rw [decs, hd, if_neg hk]⟩
  obtain ⟨hi, hd⟩ := hzero ops hops
  have := h.eq i
  omega

end RefOp

/-! ## Counting holders -/

/-- Two predicates that differ at one place of a list without duplicates. -/
theorem List.countP_change {α : Type*} [DecidableEq α] {p q : α → Bool} {l : List α} {a : α}
    (hl : l.Nodup) (ha : a ∈ l) (hpq : ∀ b, b ≠ a → p b = q b) :
    l.countP p + (if q a then 1 else 0) = l.countP q + if p a then 1 else 0 := by
  have hrest : (l.erase a).countP p = (l.erase a).countP q := by
    refine List.countP_congr fun b hb => ?_
    have hba : b ≠ a := by
      rintro rfl
      exact hl.not_mem_erase hb
    rw [hpq b hba]
  have hperm := List.perm_cons_erase ha
  rw [hperm.countP_eq p, hperm.countP_eq q, List.countP_cons, List.countP_cons, hrest]
  omega

/-- The entries of a table that meet `p`, for the keys in `r`. -/
def tableCount {ι α : Type*} (f : ι → Option α) (r : List ι) (p : α → Bool) : Nat :=
  r.countP fun j => (f j).any p

section

variable {ι α : Type*} [DecidableEq ι] {f : ι → Option α} {r : List ι} {j : ι} {a : α}

theorem tableCount_update_of_not_mem (hj : j ∉ r) (o : Option α) (p : α → Bool) :
    tableCount (Function.update f j o) r p = tableCount f r p := by
  refine List.countP_congr fun k hk => ?_
  have hkj : k ≠ j := by
    rintro rfl
    exact hj hk
  rw [Function.update_of_ne hkj]

/-- An entry changes. -/
theorem tableCount_update (hr : r.Nodup) (hj : j ∈ r) (hf : f j = some a) (b : α) (p : α → Bool) :
    tableCount (Function.update f j (some b)) r p + (if p a then 1 else 0) =
      tableCount f r p + if p b then 1 else 0 := by
  have h := List.countP_change (p := fun k => (Function.update f j (some b) k).any p)
    (q := fun k => (f k).any p) hr hj fun k hk => by rw [Function.update_of_ne hk]
  simp only [Function.update_self, hf, Option.any_some] at h
  exact h

/-- An entry goes. -/
theorem tableCount_erase (hr : r.Nodup) (hj : j ∈ r) (hf : f j = some a) (o : Option α)
    (p : α → Bool) :
    tableCount (Function.update f j o) (r.erase j) p + (if p a then 1 else 0) =
      tableCount f r p := by
  rw [tableCount_update_of_not_mem hr.not_mem_erase]
  unfold tableCount
  rw [(List.perm_cons_erase hj).countP_eq, List.countP_cons, hf, Option.any_some]

/-- An entry is added. -/
theorem tableCount_cons (hj : j ∉ r) (b : α) (p : α → Bool) :
    tableCount (Function.update f j (some b)) (j :: r) p =
      tableCount f r p + if p b then 1 else 0 := by
  rw [← tableCount_update_of_not_mem hj (some b)]
  unfold tableCount
  rw [List.countP_cons, Function.update_self, Option.any_some]

omit [DecidableEq ι] in
theorem tableCount_pos (hj : j ∈ r) (hf : f j = some a) {p : α → Bool} (hp : p a = true) :
    0 < tableCount f r p :=
  List.countP_pos_iff.mpr ⟨j, hj, by rw [hf, Option.any_some, hp]⟩

end
