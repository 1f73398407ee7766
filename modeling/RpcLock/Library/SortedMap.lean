import Mathlib.Data.List.Lex
import Mathlib.Data.Prod.Lex

/-!
# Ordered maps as sorted association lists

A `SortedMap` lists its entries in strictly increasing order of the keys, the
order in which `std::map` iterates.  Two maps with the same entries are equal.
Maps over ordered values are ordered themselves, lexicographically.
-/

/-- The entries of an ordered map. -/
structure SortedMap (α β : Type*) [LinearOrder α] where
  entries : List (α × β)
  sorted : entries.Pairwise fun p q => p.1 < q.1

namespace SortedMap

variable {α β : Type*} [LinearOrder α]

@[ext] theorem ext {m n : SortedMap α β} (h : m.entries = n.entries) : m = n := by
  cases m
  cases n
  cases h
  rfl

def empty : SortedMap α β := ⟨[], .nil⟩

/-- Set the value of a key in a sorted list of entries. -/
def setEntry (a : α) (b : β) : List (α × β) → List (α × β)
  | [] => [(a, b)]
  | (k, v) :: l =>
      if a < k then (a, b) :: (k, v) :: l
      else if a = k then (k, b) :: l
      else (k, v) :: setEntry a b l

/-- The keys afterwards are those before and `a`. -/
theorem key_setEntry {a : α} {b : β} {l : List (α × β)} {p : α × β} (h : p ∈ setEntry a b l) :
    p.1 = a ∨ ∃ q ∈ l, q.1 = p.1 := by
  induction l with
  | nil => exact .inl (by rw [List.mem_singleton.mp h])
  | cons q l ih =>
      obtain ⟨k, v⟩ := q
      rw [setEntry] at h
      split at h
      · rcases List.mem_cons.mp h with rfl | h
        · exact .inl rfl
        · exact .inr ⟨p, h, rfl⟩
      · split at h
        · rcases List.mem_cons.mp h with rfl | h
          · exact .inr ⟨(k, v), List.mem_cons_self, rfl⟩
          · exact .inr ⟨p, List.mem_cons_of_mem _ h, rfl⟩
        · rcases List.mem_cons.mp h with rfl | h
          · exact .inr ⟨(k, v), List.mem_cons_self, rfl⟩
          · rcases ih h with he | ⟨r, hr, he⟩
            · exact .inl he
            · exact .inr ⟨r, List.mem_cons_of_mem _ hr, he⟩

theorem setEntry_sorted (a : α) (b : β) {l : List (α × β)}
    (h : l.Pairwise fun p q => p.1 < q.1) :
    (setEntry a b l).Pairwise fun p q => p.1 < q.1 := by
  induction l with
  | nil => exact List.pairwise_singleton _ _
  | cons q l ih =>
      obtain ⟨k, v⟩ := q
      obtain ⟨hk, hl⟩ := List.pairwise_cons.mp h
      rw [setEntry]
      split
      · next hlt =>
          refine List.pairwise_cons.mpr ⟨fun p hp => ?_, h⟩
          rcases List.mem_cons.mp hp with rfl | hp
          · exact hlt
          · exact lt_trans hlt (hk p hp)
      · next hnlt =>
          split
          · exact List.pairwise_cons.mpr ⟨hk, hl⟩
          · next hne =>
              refine List.pairwise_cons.mpr ⟨fun p hp => ?_, ih hl⟩
              rcases key_setEntry hp with he | ⟨r, hr, he⟩
              · rw [he]
                exact lt_of_le_of_ne (not_lt.mp hnlt) (Ne.symm hne)
              · rw [← he]
                exact hk r hr

/-- `m[a] = b`. -/
def set (m : SortedMap α β) (a : α) (b : β) : SortedMap α β :=
  ⟨setEntry a b m.entries, setEntry_sorted a b m.sorted⟩

/-- A key above all others goes to the end. -/
theorem set_of_forall_lt {m : SortedMap α β} {a : α} (b : β) (h : ∀ p ∈ m.entries, p.1 < a) :
    (m.set a b).entries = m.entries ++ [(a, b)] := by
  have hlist : ∀ l : List (α × β), (∀ p ∈ l, p.1 < a) → setEntry a b l = l ++ [(a, b)] := by
    intro l hl
    induction l with
    | nil => rfl
    | cons q l ih =>
        have hq := hl q List.mem_cons_self
        rw [setEntry, if_neg (not_lt_of_gt hq), if_neg (ne_of_gt hq),
          ih fun p hp => hl p (List.mem_cons_of_mem _ hp), List.cons_append]
  exact hlist m.entries h

variable [LinearOrder β]

/-- Lexicographic, as `operator<` of `std::map`. -/
instance linearOrder : LinearOrder (SortedMap α β) :=
  LinearOrder.lift' (fun m => m.entries.map toLex) fun _ _ h =>
    ext (List.map_injective_iff.mpr toLex.injective h)

end SortedMap
