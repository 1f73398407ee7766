import RpcLock.Library.WordOrder
import Mathlib.Data.List.Pairwise
import Mathlib.Order.Bounds.Basic

/-!
# The acknowledgement window of `rpcc`

`xid_rep_window_` is a sorted list of reported xids.  Its front is sent to the
server with every request, as `xid_rep`.  `update_xid_rep` inserts a reported
xid and then pops the front as long as the next element is its successor.

The invariant `Window R w` says what the list means once exactly the xids in
`R` were reported: every xid from 1 to the front was reported, the next one was
not, and above the front the list holds what was reported.

The loop pops nodes of the list it walks over.  `compressChecked` is the same
loop with every pop checked against the iterator, and the check never fails.
-/

namespace RpcLock.Rpcc

/-! ## `update_xid_rep` -/

/-- `xid_rep_window_.front()`.  The window is never empty. -/
def front (w : List UInt32) : UInt32 := w.headD 0

/-- The insertion loop: before the first larger element, or at the end. -/
def insertXid (xid : UInt32) : List UInt32 → List UInt32
  | [] => [xid]
  | y :: w => if xid < y then xid :: y :: w else y :: insertXid xid w

/-- The `compress` loop.  `pre` holds the nodes before the iterator, so the
front is popped from `pre`, and from `y` itself once `pre` is empty. -/
def compressFrom (pre : List UInt32) : List UInt32 → List UInt32
  | [] => pre
  | y :: w => compressFrom ((pre ++ [y]).dropWhile fun f => decide (f + 1 = y)) w

/-- The `compress` label: the iterator starts at the second node. -/
def compress : List UInt32 → List UInt32
  | [] => []
  | f :: w => compressFrom [f] w

/-- `rpcc::update_xid_rep`. -/
def updateXidRep (w : List UInt32) (xid : UInt32) : List UInt32 :=
  if xid ≤ front w then w else compress (insertXid xid w)

@[simp] theorem front_cons (f : UInt32) (w : List UInt32) : front (f :: w) = f := rfl

/-! ## Insertion -/

@[simp] theorem mem_insertXid {x y : UInt32} {w : List UInt32} :
    y ∈ insertXid x w ↔ y = x ∨ y ∈ w := by
  induction w with
  | nil => simp [insertXid]
  | cons z w ih =>
      unfold insertXid
      split
      · simp
      · simp only [List.mem_cons, ih]
        exact or_left_comm

theorem insertXid_sorted {x : UInt32} {w : List UInt32} (h : w.Pairwise (· ≤ ·)) :
    (insertXid x w).Pairwise (· ≤ ·) := by
  induction w with
  | nil => simp [insertXid]
  | cons z w ih =>
      obtain ⟨hz, hw⟩ := List.pairwise_cons.mp h
      unfold insertXid
      split
      · next hlt =>
          refine List.pairwise_cons.mpr ⟨fun y hy => ?_, h⟩
          rcases List.mem_cons.mp hy with rfl | hy
          · exact le_of_lt hlt
          · exact le_trans (le_of_lt hlt) (hz y hy)
      · next hge =>
          refine List.pairwise_cons.mpr ⟨fun y hy => ?_, ih hw⟩
          rcases mem_insertXid.mp hy with rfl | hy
          · exact not_lt.mp hge
          · exact hz y hy

/-- A larger xid goes behind the front. -/
theorem insertXid_cons {x f : UInt32} {w : List UInt32} (h : f < x) :
    insertXid x (f :: w) = f :: insertXid x w := by
  simp [insertXid, not_lt_of_gt h]

/-! ## Compression -/

theorem add_one_ne_self (y : UInt32) : y + 1 ≠ y := by
  intro h
  have hn := congrArg UInt32.toNat h
  simp only [UInt32.toNat_add, UInt32.reduceToNat] at hn
  have hlt := y.toNat_lt
  omega

/-- Between `f` and its successor there is nothing. -/
theorem eq_succ_of_lt_of_le {f z : UInt32} (hlt : f < z) (hle : z ≤ f + 1) : z = f + 1 := by
  rw [UInt32.lt_iff_toNat_lt] at hlt
  simp only [UInt32.le_iff_toNat_le, UInt32.toNat_add, UInt32.reduceToNat] at hle
  simp only [← UInt32.toNat_inj, UInt32.toNat_add, UInt32.reduceToNat]
  have hz := z.toNat_lt
  omega

/-- One turn of the `compress` loop, on a sorted window compressed up to the
iterator: either nothing is popped, or every node before the iterator is. -/
theorem dropWhile_succ_cases {f y : UInt32} {pre : List UInt32}
    (hs : (f :: pre ++ [y]).Pairwise (· ≤ ·)) (hgap : f + 1 ∉ pre) :
    ((f :: pre ++ [y]).dropWhile fun g => decide (g + 1 = y)) = f :: pre ++ [y] ∧ f + 1 ≠ y ∨
    ((f :: pre ++ [y]).dropWhile fun g => decide (g + 1 = y)) = [y] ∧ y = f + 1 ∧
      ∀ z ∈ pre, z = f := by
  by_cases hfy : f + 1 = y
  · right
    have hall : ∀ z ∈ pre, z = f := by
      intro z hz
      rw [List.cons_append, List.pairwise_cons] at hs
      have hfz : f ≤ z := hs.1 z (List.mem_append_left _ hz)
      have hzy : z ≤ y := (List.pairwise_append.mp hs.2).2.2 z hz y (by simp)
      by_contra hne
      have hlt : f < z := lt_of_le_of_ne hfz (Ne.symm hne)
      exact hgap (eq_succ_of_lt_of_le hlt (hfy ▸ hzy) ▸ hz)
    refine ⟨?_, hfy.symm, hall⟩
    rw [List.dropWhile_append_of_pos]
    · simp
    · intro z hz
      rcases List.mem_cons.mp hz with rfl | hz
      · simpa using hfy
      · simpa [hall z hz] using hfy
  · left
    exact ⟨by simp [hfy], hfy⟩

/-- What compression does to a sorted window: it stays sorted and nonempty, its
front advances over consecutive members only, as far as it can, and nothing
above the new front is lost. -/
structure Compressed (w w' : List UInt32) : Prop where
  ne_nil : w' ≠ []
  sorted : w'.Pairwise (· ≤ ·)
  front_le : front w ≤ front w'
  acked : ∀ z, front w < z → z ≤ front w' → z ∈ w
  gap : front w' + 1 ∉ w'
  mem : ∀ z, front w' < z → (z ∈ w' ↔ z ∈ w)

theorem compressFrom_spec {f : UInt32} {pre rest : List UInt32}
    (hs : (f :: pre ++ rest).Pairwise (· ≤ ·)) (hgap : f + 1 ∉ f :: pre) :
    Compressed (f :: pre ++ rest) (compressFrom (f :: pre) rest) := by
  induction rest generalizing f pre with
  | nil =>
      rw [List.append_nil] at hs ⊢
      exact ⟨by simp [compressFrom], hs, le_rfl,
        fun z h1 h2 => absurd h2 (not_le_of_gt h1), hgap, fun _ _ => Iff.rfl⟩
  | cons y rest ih =>
      have happ : f :: pre ++ y :: rest = f :: pre ++ [y] ++ rest := by simp
      rw [happ] at hs ⊢
      have hs' : (f :: pre ++ [y]).Pairwise (· ≤ ·) := (List.pairwise_append.mp hs).1
      have hgap' : f + 1 ∉ pre := fun h => hgap (List.mem_cons_of_mem _ h)
      rw [compressFrom]
      rcases dropWhile_succ_cases hs' hgap' with ⟨hkeep, hne⟩ | ⟨hdrop, rfl, hall⟩
      · rw [hkeep]
        refine ih hs fun h => ?_
        rcases List.mem_append.mp (show f + 1 ∈ f :: pre ++ [y] from h) with h | h
        · exact hgap h
        · exact hne (List.mem_singleton.mp h)
      · rw [hdrop]
        have hs'' : ((f + 1) :: [] ++ rest).Pairwise (· ≤ ·) :=
          hs.sublist (List.Sublist.append_right (by simp) _)
        have hc := ih hs'' (by simp)
        have hff : f < f + 1 := by
          refine lt_of_le_of_ne ?_ (add_one_ne_self f).symm
          rw [List.cons_append, List.pairwise_cons] at hs'
          exact hs'.1 _ (by simp)
        refine ⟨hc.ne_nil, hc.sorted, le_trans (le_of_lt hff) hc.front_le, ?_, hc.gap, ?_⟩
        · intro z h1 h2
          rcases lt_or_ge (f + 1) z with hz | hz
          · have := hc.acked z hz h2
            simp only [List.cons_append, List.nil_append, List.mem_cons] at this
            simp only [List.mem_append, List.mem_cons]
            rcases this with rfl | h <;> simp_all
          · rw [eq_succ_of_lt_of_le h1 hz]
            simp
        · intro z hz
          rw [hc.mem z hz]
          have hzf : z ≠ f := fun h => by
            subst h
            exact absurd (lt_of_lt_of_le hff hc.front_le) (not_lt_of_gt hz)
          have hzp : z ∉ pre := fun h => hzf (hall z h)
          simp [hzf, hzp]

theorem compress_spec {f : UInt32} {w : List UInt32} (hs : (f :: w).Pairwise (· ≤ ·)) :
    Compressed (f :: w) (compress (f :: w)) :=
  @compressFrom_spec f [] w hs (by simp)

/-! ## What the window means -/

/-- The window after exactly the xids in `R` were reported. -/
structure Window (R : UInt32 → Prop) (w : List UInt32) : Prop where
  ne_nil : w ≠ []
  sorted : w.Pairwise (· ≤ ·)
  /-- Every xid up to the front was reported. -/
  acked : ∀ y, 0 < y → y ≤ front w → R y
  /-- The next one is still missing. -/
  gap : front w + 1 ∉ w
  /-- Above the front the window holds what was reported. -/
  mem : ∀ y, front w < y → (y ∈ w ↔ R y)

/-- The window of the constructor of `rpcc`. -/
theorem window_init : Window (fun _ => False) [0] where
  ne_nil := by simp
  sorted := by simp
  acked y h0 hy := absurd hy (not_le_of_gt h0)
  gap := by decide
  mem y hy := by
    simp only [List.mem_singleton, iff_false]
    rintro rfl
    exact absurd hy (lt_irrefl _)

variable {R : UInt32 → Prop} {w : List UInt32}

/-- A report at or below the front changes nothing.  Any other report is
recorded. -/
theorem Window.update (h : Window R w) (xid : UInt32) :
    Window (fun y => R y ∨ (y = xid ∧ 0 < y)) (updateXidRep w xid) ∧
      front w ≤ front (updateXidRep w xid) := by
  unfold updateXidRep
  split
  · next hle =>
      refine ⟨⟨h.ne_nil, h.sorted, fun y h0 hy => .inl (h.acked y h0 hy), h.gap, ?_⟩, le_rfl⟩
      intro y hy
      rw [h.mem y hy]
      refine ⟨.inl, ?_⟩
      rintro (hr | ⟨rfl, -⟩)
      · exact hr
      · exact absurd hy (not_lt_of_ge hle)
  · next hgt =>
      have hlt : front w < xid := not_le.mp hgt
      have h0x : 0 < xid := lt_of_le_of_lt (UInt32.zero_le) hlt
      obtain ⟨f, w, rfl⟩ := List.exists_cons_of_ne_nil h.ne_nil
      have hs := insertXid_sorted (x := xid) h.sorted
      rw [front_cons] at hlt
      rw [insertXid_cons hlt] at hs ⊢
      have hc := compress_spec hs
      have hmem : ∀ y, f < y → (y ∈ f :: insertXid xid w ↔ R y ∨ (y = xid ∧ 0 < y)) := by
        intro y hy
        have hyf : y ≠ f := fun he => absurd (he ▸ hy) (lt_irrefl _)
        have := h.mem y hy
        simp only [List.mem_cons, hyf, false_or] at this
        simp only [List.mem_cons, hyf, false_or, mem_insertXid, this]
        constructor
        · rintro (rfl | hr)
          · exact .inr ⟨rfl, h0x⟩
          · exact .inl hr
        · rintro (hr | ⟨rfl, -⟩)
          · exact .inr hr
          · exact .inl rfl
      refine ⟨⟨hc.ne_nil, hc.sorted, ?_, hc.gap, ?_⟩, hc.front_le⟩
      · intro y h0 hy
        rcases lt_or_ge f y with hfy | hyf
        · exact (hmem y hfy).mp (hc.acked y hfy hy)
        · exact .inl (h.acked y h0 hyf)
      · intro y hy
        have hfy : f < y := lt_of_le_of_lt hc.front_le hy
        rw [hc.mem y hy, hmem y hfy]

/-! ## The pops of `compress`, checked -/

/-- The inner `while`, with the iterator at `y` and `pre` in front of it.  With
`pre` used up the front is the node `y` itself, and popping it would leave the
iterator dangling: `none`. -/
def popFronts (y : UInt32) : List UInt32 → Option (List UInt32)
  | [] => if y + 1 = y then none else some []
  | f :: pre => if f + 1 = y then popFronts y pre else some (f :: pre)

/-- `compressFrom` with its pops checked. -/
def compressChecked (pre : List UInt32) : List UInt32 → Option (List UInt32)
  | [] => some pre
  | y :: w => (popFronts y pre).bind fun pre' => compressChecked (pre' ++ [y]) w

/-- `update_xid_rep` with its pops checked. -/
def updateXidRepChecked (w : List UInt32) (xid : UInt32) : Option (List UInt32) :=
  if xid ≤ front w then some w
  else compressChecked ((insertXid xid w).take 1) ((insertXid xid w).drop 1)

/-- A sequence of calls, the window going from one to the next. -/
def reportChecked (w : List UInt32) : List UInt32 → Option (List UInt32)
  | [] => some w
  | x :: xs => (updateXidRepChecked w x).bind fun w' => reportChecked w' xs

theorem popFronts_eq (y : UInt32) (pre : List UInt32) :
    popFronts y pre = some (pre.dropWhile fun f => decide (f + 1 = y)) := by
  induction pre with
  | nil => simp [popFronts]
  | cons f pre ih =>
      unfold popFronts
      rw [List.dropWhile_cons]
      by_cases hf : f + 1 = y
      · simp [hf, ih]
      · simp [hf]

/-- Popping stops at the iterator's node at the latest. -/
theorem dropWhile_succ_append (pre : List UInt32) (y : UInt32) :
    ((pre ++ [y]).dropWhile fun f => decide (f + 1 = y)) =
      (pre.dropWhile fun f => decide (f + 1 = y)) ++ [y] := by
  induction pre with
  | nil => simp
  | cons f pre ih =>
      rw [List.cons_append, List.dropWhile_cons, List.dropWhile_cons]
      split
      · exact ih
      · rfl

theorem compressChecked_eq (pre rest : List UInt32) :
    compressChecked pre rest = some (compressFrom pre rest) := by
  induction rest generalizing pre with
  | nil => rfl
  | cons y rest ih =>
      rw [compressChecked, popFronts_eq, Option.bind_some, ih, compressFrom,
        dropWhile_succ_append]

theorem updateXidRepChecked_eq (w : List UInt32) (xid : UInt32) :
    updateXidRepChecked w xid = some (updateXidRep w xid) := by
  unfold updateXidRepChecked updateXidRep
  split
  · rfl
  · rw [compressChecked_eq]
    cases insertXid xid w with
    | nil => rfl
    | cons f w => rfl

theorem reportChecked_eq (w xs : List UInt32) :
    reportChecked w xs = some (xs.foldl updateXidRep w) := by
  induction xs generalizing w with
  | nil => rfl
  | cons x xs ih => rw [reportChecked, updateXidRepChecked_eq, Option.bind_some, ih, List.foldl_cons]

/-! ## Sequences of reports -/

/-- What a whole sequence of reports does to the window. -/
theorem Window.report (h : Window R w) (xs : List UInt32) :
    Window (fun y => R y ∨ (y ∈ xs ∧ 0 < y)) (xs.foldl updateXidRep w) ∧
      front w ≤ front (xs.foldl updateXidRep w) := by
  induction xs generalizing R w with
  | nil => exact ⟨by simpa using h, le_rfl⟩
  | cons x xs ih =>
      obtain ⟨hw, hle⟩ := h.update x
      obtain ⟨hws, hles⟩ := ih hw
      refine ⟨?_, le_trans hle hles⟩
      have hR : (fun y => R y ∨ (y ∈ x :: xs ∧ 0 < y)) =
          fun y => (R y ∨ (y = x ∧ 0 < y)) ∨ (y ∈ xs ∧ 0 < y) := by
        funext y
        simp only [List.mem_cons, or_and_right, or_assoc]
      rw [hR]
      exact hws

/-- The window after the reports `xs`, starting from the initial one. -/
theorem window_report (xs : List UInt32) :
    Window (fun y => y ∈ xs ∧ 0 < y) (xs.foldl updateXidRep [0]) := by
  simpa using (window_init.report xs).1

/-- The front is the end of the contiguous prefix of what was reported. -/
theorem Window.isGreatest_front (h : Window R w) :
    IsGreatest {n | ∀ i, 1 ≤ i → i ≤ n → R i} (front w) := by
  constructor
  · intro i h1 hi
    exact h.acked i (lt_of_lt_of_le (by decide) h1) hi
  · intro n hn
    by_contra hle
    have hlt : front w < n := not_le.mp hle
    have hsucc : front w < front w + 1 := by
      rw [UInt32.lt_iff_toNat_lt] at hlt ⊢
      rw [UInt32.toNat_add]
      have := n.toNat_lt
      simp only [UInt32.reduceToNat]
      omega
    -- the next xid lies in the prefix, and the window would hold it
    have h1 : 1 ≤ front w + 1 := by
      rw [UInt32.lt_iff_toNat_lt] at hsucc
      rw [UInt32.le_iff_toNat_le]
      simp only [UInt32.reduceToNat]
      omega
    have hle' : front w + 1 ≤ n := by
      rw [UInt32.lt_iff_toNat_lt] at hlt
      rw [UInt32.le_iff_toNat_le, UInt32.toNat_add]
      have := n.toNat_lt
      simp only [UInt32.reduceToNat]
      omega
    exact h.gap ((h.mem _ hsucc).mpr (hn _ h1 hle'))

/-- From `[0]`, after any sequence of reports: no pop hits the iterator's node,
the window is nonempty and sorted, its front is the contiguous prefix of the
reported xids and above it stand the other reported ones.  The front depends
only on which xids were reported, and no later report lowers it. -/
theorem report_prefix (xs : List UInt32) :
    ∃ w, reportChecked [0] xs = some w ∧ w ≠ [] ∧ w.Pairwise (· ≤ ·) ∧
      IsGreatest {n | ∀ i, 1 ≤ i → i ≤ n → i ∈ xs} (front w) ∧
      (∀ y, front w < y → (y ∈ w ↔ y ∈ xs)) ∧
      (∀ ys w', (∀ y, y ∈ ys ↔ y ∈ xs) → reportChecked [0] ys = some w' → front w' = front w) ∧
      (∀ ys w', reportChecked w ys = some w' → front w ≤ front w') := by
  have hgreatest : ∀ zs : List UInt32, IsGreatest {n | ∀ i, 1 ≤ i → i ≤ n → i ∈ zs}
      (front (zs.foldl updateXidRep [0])) := by
    intro zs
    have hz := (window_report zs).isGreatest_front
    refine ⟨fun i h1 hi => (hz.1 i h1 hi).1, fun n hn => hz.2 fun i h1 hi => ⟨hn i h1 hi, ?_⟩⟩
    exact lt_of_lt_of_le (by decide) h1
  have hw := window_report xs
  refine ⟨_, reportChecked_eq [0] xs, hw.ne_nil, hw.sorted, hgreatest xs, ?_, ?_, ?_⟩
  · intro y hy
    rw [hw.mem y hy]
    exact and_iff_left (lt_of_le_of_lt UInt32.zero_le hy)
  · intro ys w' hmem hys
    rw [reportChecked_eq] at hys
    cases hys
    have hg := hgreatest ys
    simp only [hmem] at hg
    exact hg.unique (hgreatest xs)
  · intro ys w' hys
    rw [reportChecked_eq] at hys
    cases hys
    exact (hw.report ys).2

/-- `3` and the second `1` change nothing until `2` closes the gap. -/
example : reportChecked [0] [3, 1, 1, 3, 2] = some [3, 3] := by decide

end RpcLock.Rpcc
