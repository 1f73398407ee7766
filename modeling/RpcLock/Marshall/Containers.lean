import RpcLock.Marshall.Bounds
import Mathlib.Logic.Function.Iterate

/-!
# The loops of the containers

`operator>>` of a container reads a count and extracts that many elements.  The
loop does not look at the flag, so the count decides alone: it is harmless
exactly if the peer sent it honestly, with as many elements behind it.
-/

namespace RpcLock

/-- The container types. -/
inductive Container where
  | vector (t : Ty)
  | map (a b : Ty)
deriving DecidableEq, Repr

namespace Container

def ty : Container → Ty
  | vector t => .vector t
  | map a b => .map a b

/-- The extraction of an element into fresh objects. -/
def element : Container → Unmarshall → Unmarshall
  | vector t, u => (Unmarshall.get t u).2
  | map a b, u => (Unmarshall.get b (Unmarshall.get a u).2).2

/-- The calls it makes. -/
def elementTrace : Container → Unmarshall → Unmarshall.Trace
  | vector t, u => Unmarshall.traceInto t t.fresh u
  | map a b, u => Unmarshall.traceInto a a.fresh u ++
      Unmarshall.traceInto b b.fresh (Unmarshall.get a u).2

end Container

namespace Unmarshall

/-- Each turn of a loop of `n` turns: the object before and after it. -/
def turns (next : Unmarshall → Unmarshall) : Nat → Unmarshall → List (Unmarshall × Unmarshall)
  | 0, _ => []
  | n + 1, u => (u, next u) :: turns next n (next u)

/-- The element extractions of `operator>>`, each of which adds an element. -/
def extractions (c : Container) (u : Unmarshall) : List (Unmarshall × Unmarshall) :=
  turns c.element u.getUInt.1.toNat u.getUInt.2

/-- The bytes behind the cursor. -/
def left (u : Unmarshall) : Nat := u.sz - u.ind

/-- The extraction of a container is bounded by the bytes present. -/
structure Bounded (c : Container) (u : Unmarshall) : Prop where
  le_left : (extractions c u).length ≤ u.getUInt.2.left
  /-- None when the count is incomplete. -/
  noCount : u.sz < u.ind + 4 → extractions c u = []
  /-- No element is added after an extraction has failed. -/
  stops : ∀ p ∈ extractions c u, p.1.ok = true → p.2.ok = true

variable {next : Unmarshall → Unmarshall} {c : Container} {u : Unmarshall} {n : Nat}

/-! ## The loop -/

theorem length_turns (n : Nat) (u : Unmarshall) : (turns next n u).length = n := by
  induction n generalizing u with
  | zero => rfl
  | succ n ih => exact congrArg (· + 1) (ih _)

theorem mem_turns {p : Unmarshall × Unmarshall} :
    p ∈ turns next n u ↔ ∃ i < n, p = (next^[i] u, next^[i + 1] u) := by
  induction n generalizing u with
  | zero => simp [turns]
  | succ n ih =>
      rw [turns, List.mem_cons, ih]
      constructor
      · rintro (rfl | ⟨i, hi, rfl⟩)
        · exact ⟨0, by omega, rfl⟩
        · exact ⟨i + 1, by omega, rfl⟩
      · rintro ⟨i, hi, rfl⟩
        cases i with
        | zero => exact .inl rfl
        | succ i => exact .inr ⟨i, by omega, rfl⟩

/-- The loop of the vector makes these turns, and each adds an element. -/
theorem getElems_turns {α : Type} (get : Unmarshall → α × Unmarshall) (n : Nat) (v : List α)
    (u : Unmarshall) :
    (getElems get n v u).1.length = v.length + (turns (fun u => (get u).2) n u).length ∧
      (getElems get n v u).2 = (fun u => (get u).2)^[n] u := by
  induction n generalizing v u with
  | zero => exact ⟨rfl, rfl⟩
  | succ n ih =>
      obtain ⟨hlen, hend⟩ := ih (v ++ [(get u).1]) (get u).2
      refine ⟨?_, hend⟩
      rw [length_turns] at hlen ⊢
      rw [List.length_append, List.length_singleton] at hlen
      simp only [getElems]
      omega

/-- So does the loop of the map, with `d[a] = b` at the end of each. -/
theorem getEntries_turns {κ ν : Type} [LinearOrder κ] (getKey : Unmarshall → κ × Unmarshall)
    (getVal : Unmarshall → ν × Unmarshall) (n : Nat) (d : SortedMap κ ν) (u : Unmarshall) :
    (getEntries getKey getVal n d u).2 = (fun u => (getVal (getKey u).2).2)^[n] u := by
  induction n generalizing d u with
  | zero => rfl
  | succ n ih => exact ih _ _

/-- The extraction of a container ends where its last element does. -/
theorem getInto_container (c : Container) (x : c.ty.den) (u : Unmarshall) :
    (getInto c.ty x u).2 = c.element^[u.getUInt.1.toNat] u.getUInt.2 := by
  cases c with
  | vector t => exact (getElems_turns _ _ _ _).2
  | map a b => exact getEntries_turns _ _ _ _ _

/-- A vector grows by an element for each extraction. -/
theorem length_getInto_vector (t : Ty) (x : List t.den) (u : Unmarshall) :
    List.length (α := t.den) (getInto (.vector t) x u).1 =
      x.length + (extractions (.vector t) u).length :=
  (getElems_turns _ _ _ _).1

/-! ## The flag -/

theorem linked_element (c : Container) (u : Unmarshall) :
    Linked u (c.elementTrace u) (c.element u) := by
  cases c with
  | vector t => exact linked_into t t.fresh u
  | map a b => exact (linked_into a a.fresh u).append (linked_into b b.fresh _)

/-- A failed element is not repaired by the ones behind it. -/
theorem ok_of_iterate {i : Nat} (hi : i ≤ n) (h : (c.element^[n] u).ok = true) :
    (c.element^[i] u).ok = true := by
  induction n generalizing i u with
  | zero =>
      rw [Nat.le_zero.mp hi]
      exact h
  | succ n ih =>
      cases i with
      | zero => exact (linked_element c u).ok (ih (Nat.zero_le n) h)
      | succ i => exact ih (u := c.element u) (by omega) h

/-! ## When the loop is bounded -/

/-- The elements the count announces can be extracted one after the other.  This is
about the bytes behind the count: `element` extracts one element and knows of no
container.  That the loop of `operator>>` makes these extractions is
`getInto_container`. -/
def Announced (c : Container) (u : Unmarshall) : Prop :=
  u.ok = true → (c.element^[u.getUInt.1.toNat] u.getUInt.2).ok = true

/-- The extraction of a container is bounded by the bytes present exactly when
its count is zero, or complete, within the bytes behind it and followed by that
many elements. -/
theorem container_bounded_iff (c : Container) (u : Unmarshall) :
    Bounded c u ↔ u.getUInt.1.toNat = 0 ∨
      (u.ind + 4 ≤ u.sz ∧ u.getUInt.1.toNat ≤ u.getUInt.2.left ∧ Announced c u) := by
  have hlen : (extractions c u).length = u.getUInt.1.toNat := length_turns _ _
  constructor
  · intro hb
    rcases Nat.eq_zero_or_pos u.getUInt.1.toNat with h0 | hpos
    · exact .inl h0
    · have hcount : u.ind + 4 ≤ u.sz := by
        by_contra hlt
        rw [hb.noCount (by omega)] at hlen
        simp only [List.length_nil] at hlen
        omega
      refine .inr ⟨hcount, hlen ▸ hb.le_left, fun hok => ?_⟩
      -- turn by turn: each keeps the flag
      have hturn : ∀ i ≤ u.getUInt.1.toNat, (c.element^[i] u.getUInt.2).ok = true := by
        intro i
        induction i with
        | zero =>
            intro _
            rw [Function.iterate_zero, id_eq, getUInt_snd hcount]
            exact hok
        | succ i ih =>
            intro hi
            exact hb.stops _ (mem_turns.mpr ⟨i, by omega, rfl⟩) (ih (by omega))
      exact hturn _ le_rfl
  · rintro (h0 | ⟨hcount, hle, hann⟩)
    · have hnil : extractions c u = [] := List.length_eq_zero_iff.mp (hlen.trans h0)
      exact ⟨by simp [hnil], fun _ => hnil, by simp [hnil]⟩
    · refine ⟨hlen ▸ hle, fun hlt => absurd hcount (by omega), fun p hp hok => ?_⟩
      obtain ⟨i, hi, rfl⟩ := mem_turns.mp hp
      have hu : u.ok = true := by
        have h0 := ok_of_iterate (Nat.zero_le i) hok
        rw [Function.iterate_zero, id_eq, getUInt_snd hcount] at h0
        exact h0
      exact ok_of_iterate hi (hann hu)

/-- Four bytes of count and nothing else. -/
def countOnly : Unmarshall := ⟨[255, 255, 255, 255], 4, 0, true, false⟩

/-- The loop makes 2^32 - 1 turns on no bytes. -/
theorem container_unbounded :
    (extractions (.vector .uchar) countOnly).length = 4294967295 ∧
      countOnly.getUInt.2.left = 0 ∧ ¬ Bounded (.vector .uchar) countOnly := by
  have hlen : (extractions (.vector .uchar) countOnly).length = 4294967295 := length_turns _ _
  have hleft : countOnly.getUInt.2.left = 0 := by decide
  refine ⟨hlen, hleft, fun hb => ?_⟩
  have hle := hb.le_left
  omega

/-! ## Elements take bytes -/

/-- An element that is extracted without wrapping moves the cursor forward. -/
theorem element_ind (h : (c.element u).ok = true)
    (hw : ∀ p ∈ c.elementTrace u, p.2.NoWrap p.1) :
    u.ind < (c.element u).ind ∧ (c.element u).ind ≤ u.sz := by
  obtain ⟨tr, htr⟩ : ∃ tr, c.elementTrace u = (u, .rawbyte) :: tr := by
    cases c with
    | vector t => exact traceInto_head t t.fresh u
    | map a b =>
        obtain ⟨tr, htr⟩ := traceInto_head a a.fresh u
        exact ⟨_, congrArg (· ++ _) htr⟩
  exact (linked_element c u).ind_lt h hw htr

/-- `n` elements that are extracted without wrapping take at least `n` bytes, so
a count followed by its elements is within the bytes behind it. -/
theorem le_left_of_iterate (h : (c.element^[n] u).ok = true)
    (hw : ∀ i < n, ∀ p ∈ c.elementTrace (c.element^[i] u), p.2.NoWrap p.1) :
    n ≤ u.left := by
  have hmove : ∀ i ≤ n, u.ind + i ≤ (c.element^[i] u).ind ∧ (c.element^[i] u).sz = u.sz ∧
      (i = 0 ∨ (c.element^[i] u).ind ≤ u.sz) := by
    intro i
    induction i with
    | zero => exact fun _ => ⟨le_rfl, rfl, .inl rfl⟩
    | succ i ih =>
        intro hi
        obtain ⟨hle, hsz, -⟩ := ih (by omega)
        have hok := ok_of_iterate hi h
        rw [Function.iterate_succ_apply'] at hok ⊢
        obtain ⟨hlt, hin⟩ := element_ind hok (hw i (by omega))
        have hsz' := (linked_element c (c.element^[i] u)).end_sz
        exact ⟨by omega, hsz'.trans hsz, .inr (hsz ▸ hin)⟩
  obtain ⟨hle, -, hend⟩ := hmove n le_rfl
  unfold left
  omega

end Unmarshall

end RpcLock
