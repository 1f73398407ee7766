import RpcLock.Rpcs.ReplyTables
import Mathlib.Data.List.TakeWhile

/-!
# The reply window

`add_reply` keeps `reply_window_[clt]` sorted by xid.  On a sorted window the
loop of `checkduplicate_and_update` that pops from the front removes exactly
the entries below the new bound, and the search finds the entry of an xid if
there is one.

`WF` is what the tables satisfy between calls, and `Keeps` what a call never
loses.  Each of the three operations preserves the first and does the second.
-/

namespace RpcLock.Rpcs.ReplyTables

/-- Strictly increasing in xid. -/
def Sorted (w : List ReplyT) : Prop := w.Pairwise fun r r' => r.xid < r'.xid

/-! ## Purging -/

theorem purged_append_kept (a : UInt32) (w : List ReplyT) : purged a w ++ kept a w = w :=
  List.takeWhile_append_dropWhile

theorem mem_of_mem_kept {a : UInt32} {w : List ReplyT} {e : ReplyT} (h : e ∈ kept a w) : e ∈ w :=
  (List.dropWhile_sublist _).subset h

theorem mem_of_mem_purged {a : UInt32} {w : List ReplyT} {e : ReplyT} (h : e ∈ purged a w) :
    e ∈ w :=
  (List.takeWhile_sublist _).subset h

theorem lt_of_mem_purged {a : UInt32} {w : List ReplyT} {e : ReplyT} (h : e ∈ purged a w) :
    e.xid < a := by
  simpa using List.mem_takeWhile_imp h

/-- The first entry that stays bounds all the others from below. -/
theorem le_of_mem_kept {a : UInt32} {w : List ReplyT} (hs : Sorted w) {e : ReplyT}
    (h : e ∈ kept a w) : a ≤ e.xid := by
  induction w with
  | nil => simp [kept] at h
  | cons r w ih =>
      unfold kept at h
      rw [List.dropWhile_cons] at h
      split at h
      · exact ih (List.pairwise_cons.mp hs).2 h
      · next hr =>
          have har : a ≤ r.xid := by simpa using hr
          rcases List.mem_cons.mp h with rfl | h
          · exact har
          · exact le_trans har (le_of_lt ((List.pairwise_cons.mp hs).1 e h))

theorem mem_kept {a : UInt32} {w : List ReplyT} (hs : Sorted w) {e : ReplyT} :
    e ∈ kept a w ↔ e ∈ w ∧ a ≤ e.xid := by
  refine ⟨fun h => ⟨mem_of_mem_kept h, le_of_mem_kept hs h⟩, fun ⟨h, ha⟩ => ?_⟩
  rw [← purged_append_kept a w, List.mem_append] at h
  rcases h with h | h
  · exact absurd (lt_of_mem_purged h) (not_lt_of_ge ha)
  · exact h

theorem mem_purged {a : UInt32} {w : List ReplyT} (hs : Sorted w) {e : ReplyT} :
    e ∈ purged a w ↔ e ∈ w ∧ e.xid < a := by
  refine ⟨fun h => ⟨mem_of_mem_purged h, lt_of_mem_purged h⟩, fun ⟨h, ha⟩ => ?_⟩
  rw [← purged_append_kept a w, List.mem_append] at h
  rcases h with h | h
  · exact h
  · exact absurd ha (not_lt_of_ge (le_of_mem_kept hs h))

/-- In a sorted window an entry is found by its xid. -/
theorem eq_of_xid_eq {w : List ReplyT} (hs : Sorted w) {e e' : ReplyT} (he : e ∈ w) (he' : e' ∈ w)
    (hx : e.xid = e'.xid) : e = e' := by
  induction w with
  | nil => simp at he
  | cons r w ih =>
      obtain ⟨hr, hw⟩ := List.pairwise_cons.mp hs
      rcases List.mem_cons.mp he with h | h <;> rcases List.mem_cons.mp he' with h' | h'
      · rw [h, h']
      · exact absurd hx (ne_of_lt (h ▸ hr e' h'))
      · exact absurd hx (ne_of_gt (h' ▸ hr e h))
      · exact ih hw h h'

/-! ## The window after each operation -/

variable {t t' : ReplyTables} {n a : UInt32}

/-- What the check does to the window of its client. -/
theorem raiseLowerBound_window {fr : List Ptr} (h : t.raiseLowerBound n a = some (t', fr)) :
    t'.window n = t.window n ∧ fr = [] ∨
    t'.window n = kept a (t.window n) ∧ fr = (purged a (t.window n)).map ReplyT.buf ∧
      t'.replyLowerBound n = some a := by
  rcases raiseLowerBound_cases h with ⟨-, hfr, rfl⟩ | ⟨_, -, -, hfr, rfl⟩ | ⟨_, -, -, hfr, rfl⟩
  · exact .inl ⟨rfl, hfr⟩
  · exact .inl ⟨rfl, hfr⟩
  · exact .inr ⟨raised_window_self, hfr, raised_bound_self⟩

/-- The window of any client shrinks. -/
theorem raiseLowerBound_window_sublist {fr : List Ptr}
    (h : t.raiseLowerBound n a = some (t', fr)) (m : UInt32) :
    (t'.window m).Sublist (t.window m) := by
  by_cases hm : m = n
  · subst hm
    rcases raiseLowerBound_window h with ⟨hw, -⟩ | ⟨hw, -⟩
    · rw [hw]
    · rw [hw]
      exact List.dropWhile_sublist _
  · rw [(raiseLowerBound_ne h hm).2.2]

/-- An entry leaves the window only when it falls below the bound. -/
theorem mem_window_raiseLowerBound {fr : List Ptr} (h : t.raiseLowerBound n a = some (t', fr))
    {m : UInt32} {e : ReplyT} (he : e ∈ t.window m) : e ∈ t'.window m ∨ t'.Below m e.xid := by
  by_cases hm : m = n
  · subst hm
    rcases raiseLowerBound_window h with ⟨hw, -⟩ | ⟨hw, -, hb⟩
    · exact .inl (hw ▸ he)
    · rw [← purged_append_kept a (t.window m), List.mem_append] at he
      rcases he with he | he
      · exact .inr ⟨a, hb, lt_of_mem_purged he⟩
      · exact .inl (hw ▸ he)
  · exact .inl (by rw [(raiseLowerBound_ne h hm).2.2]; exact he)

/-- Every freed buffer belonged to an entry that left. -/
theorem freed_of_raiseLowerBound {fr : List Ptr} (h : t.raiseLowerBound n a = some (t', fr))
    (hs : Sorted (t.window n)) {b : Ptr} (hb : b ∈ fr) :
    ∃ e ∈ t.window n, e.buf = b ∧ ∀ e' ∈ t'.window n, e'.xid ≠ e.xid := by
  rcases raiseLowerBound_window h with ⟨-, hfr⟩ | ⟨hw, hfr, -⟩
  · simp [hfr] at hb
  · rw [hfr] at hb
    obtain ⟨e, he, rfl⟩ := List.mem_map.mp hb
    refine ⟨e, mem_of_mem_purged he, rfl, fun e' he' hx => ?_⟩
    rw [hw, mem_kept hs] at he'
    exact absurd (lt_of_mem_purged he) (not_lt_of_ge (hx ▸ he'.2))

theorem findReply_some {x : UInt32} {e : ReplyT} (h : t.findReply n x = some e) :
    e ∈ t.window n ∧ e.xid = x := by
  unfold findReply window at *
  cases hw : t.replyWindow n with
  | none => simp [hw] at h
  | some w =>
      simp only [hw, Option.bind_some] at h
      exact ⟨List.mem_of_find?_eq_some h, by simpa using List.find?_some h⟩

theorem findReply_none {x : UInt32} (h : t.findReply n x = none) :
    ∀ e ∈ t.window n, e.xid ≠ x := by
  unfold findReply window at *
  cases hw : t.replyWindow n with
  | none => simp
  | some w =>
      simp only [hw, Option.bind_some] at h
      intro e he
      simpa using List.find?_eq_none.mp h e he

/-- `insertReply` puts one entry into the window and keeps it sorted. -/
theorem insertReply_spec {rply : ReplyT} {w w' : List ReplyT} (hs : Sorted w)
    (h : insertReply rply w = some w') :
    Sorted w' ∧ (∀ e, e ∈ w' ↔ e = rply ∨ e ∈ w) ∧ ∀ e ∈ w, e.xid ≠ rply.xid := by
  induction w generalizing w' with
  | nil =>
      simp only [insertReply, Option.some.injEq] at h
      subst h
      simp [Sorted]
  | cons r w ih =>
      obtain ⟨hr, hw⟩ := List.pairwise_cons.mp hs
      unfold insertReply at h
      split at h
      · next hlt =>
          obtain ⟨w₁, h₁, rfl⟩ := Option.map_eq_some_iff.mp h
          obtain ⟨hs₁, hm₁, hne₁⟩ := ih hw h₁
          refine ⟨List.pairwise_cons.mpr ⟨fun e he => ?_, hs₁⟩, fun e => ?_, fun e he => ?_⟩
          · rcases (hm₁ e).mp he with rfl | he
            · exact hlt
            · exact hr e he
          · rw [List.mem_cons, hm₁, List.mem_cons]
            exact or_left_comm
          · rcases List.mem_cons.mp he with rfl | he
            · exact ne_of_lt hlt
            · exact hne₁ e he
      · next hge =>
          split at h
          · cases h
          · next hne =>
              cases h
              have hgt : rply.xid < r.xid := lt_of_le_of_ne (not_lt.mp hge) (Ne.symm hne)
              refine ⟨List.pairwise_cons.mpr ⟨fun e he => ?_, hs⟩, fun e => List.mem_cons,
                fun e he => ?_⟩
              · rcases List.mem_cons.mp he with rfl | he
                · exact hgt
                · exact lt_trans hgt (hr e he)
              · rcases List.mem_cons.mp he with rfl | he
                · exact hne
                · exact ne_of_gt (lt_trans hgt (hr e he))

/-- Everything `add_reply` changes. -/
theorem addReply_inv {x : UInt32} {b : Ptr} {sz : Int} (h : t.addReply n x b sz = some t') :
    t'.replyLowerBound = t.replyLowerBound ∧ t'.replySet = t.replySet ∧
    (∀ m, (t'.replyWindow m).isSome = (t.replyWindow m).isSome) ∧
    (∀ m, m ≠ n → t'.window m = t.window m) ∧
    insertReply ⟨x, true, b, sz⟩ (t.window n) = some (t'.window n) := by
  unfold addReply at h
  cases hw : t.replyWindow n with
  | none => simp [hw] at h
  | some w =>
      simp only [hw] at h
      obtain ⟨w', hi, rfl⟩ := Option.map_eq_some_iff.mp h
      refine ⟨rfl, rfl, fun m => ?_, fun m hm => ?_, ?_⟩
      · by_cases hm : m = n
        · subst hm
          simp [hw]
        · simp [hm]
      · simp [window, hm]
      · simpa [window, hw] using hi

@[simp] theorem createWindow_window (m : UInt32) : (t.createWindow n).window m = t.window m := by
  unfold createWindow
  cases hw : t.replyWindow n with
  | none =>
      by_cases hm : m = n
      · subst hm
        simp [window, hw]
      · simp [window, hm]
  | some w => rfl

@[simp] theorem createWindow_bound : (t.createWindow n).replyLowerBound = t.replyLowerBound := by
  unfold createWindow
  split <;> rfl

@[simp] theorem createWindow_set : (t.createWindow n).replySet = t.replySet := by
  unfold createWindow
  split <;> rfl

theorem createWindow_isSome : ((t.createWindow n).replyWindow n).isSome := by
  unfold createWindow
  cases hw : t.replyWindow n with
  | none => simp
  | some w => simp [hw]

theorem createWindow_isSome_of {m : UInt32} (h : (t.replyWindow m).isSome) :
    ((t.createWindow n).replyWindow m).isSome := by
  by_cases hm : m = n
  · subst hm
    exact createWindow_isSome
  · unfold createWindow
    cases hw : t.replyWindow n with
    | none => simpa [hm] using h
    | some w => simpa [hw] using h

/-! ## Tables that are well formed -/

/-- A client with a bound has a seen set, and every window is sorted. -/
structure WF (t : ReplyTables) : Prop where
  set : ∀ n, (t.replyLowerBound n).isSome → (t.replySet n).isSome
  sorted : ∀ n, Sorted (t.window n)

/-- `x` is at or below the lower bound of client `n`. -/
def AtOrBelow (t : ReplyTables) (n x : UInt32) : Prop :=
  ∃ lb, t.replyLowerBound n = some lb ∧ x ≤ lb

/-- No operation loses a window, a bound or an entry above the bound. -/
structure Keeps (t t' : ReplyTables) : Prop where
  window : ∀ n, (t.replyWindow n).isSome → (t'.replyWindow n).isSome
  below : ∀ n x, t.Below n x → t'.Below n x
  atOrBelow : ∀ n x, t.AtOrBelow n x → t'.AtOrBelow n x
  entry : ∀ n, ∀ e ∈ t.window n, e ∈ t'.window n ∨ t'.Below n e.xid

theorem Keeps.refl (t : ReplyTables) : t.Keeps t :=
  ⟨fun _ h => h, fun _ _ h => h, fun _ _ h => h, fun _ _ h => .inl h⟩

theorem wf_empty : ReplyTables.empty.WF where
  set n h := by simp [ReplyTables.empty] at h
  sorted n := by simp [ReplyTables.empty, ReplyTables.window, Sorted]

variable {x : UInt32}

/-! ### `checkduplicate_and_update` -/

theorem insertSeen_set_isSome : ((t.insertSeen n x).1.replySet n).isSome := by
  unfold insertSeen
  cases hs : t.replySet n with
  | none => simp
  | some s => by_cases hx : x ∈ s <;> simp [hx, hs]

theorem insertSeen_set_ne {m : UInt32} (h : m ≠ n) :
    (t.insertSeen n x).1.replySet m = t.replySet m := by
  unfold insertSeen
  cases hs : t.replySet n with
  | none => simp [h]
  | some s => by_cases hx : x ∈ s <;> simp [hx, h]

@[simp] theorem insertSeen_replyWindow : (t.insertSeen n x).1.replyWindow = t.replyWindow := by
  unfold insertSeen
  split
  · rfl
  · split <;> rfl

theorem raiseLowerBound_set_ne {fr : List Ptr} (h : t.raiseLowerBound n a = some (t', fr))
    {m : UInt32} (hm : m ≠ n) : t'.replySet m = t.replySet m := by
  rcases raiseLowerBound_cases h with ⟨-, -, rfl⟩ | ⟨_, -, -, -, rfl⟩ | ⟨_, -, -, -, rfl⟩
  · rfl
  · rfl
  · simp [raised, hm]

theorem raiseLowerBound_replyWindow {fr : List Ptr} (h : t.raiseLowerBound n a = some (t', fr))
    {m : UInt32} (hm : (t.replyWindow m).isSome) : (t'.replyWindow m).isSome := by
  rcases raiseLowerBound_cases h with ⟨-, -, rfl⟩ | ⟨_, -, -, -, rfl⟩ | ⟨_, -, -, -, rfl⟩
  · exact hm
  · exact hm
  · by_cases hmn : m = n
    · subst hmn
      simp [raised]
    · simpa [raised, hmn] using hm

theorem raiseLowerBound_atOrBelow {fr : List Ptr} (h : t.raiseLowerBound n a = some (t', fr))
    {m y : UInt32} (hy : t.AtOrBelow m y) : t'.AtOrBelow m y := by
  obtain ⟨lb, hlb, hle⟩ := hy
  by_cases hm : m = n
  · subst hm
    obtain ⟨b, hb, -, -, hlb'⟩ := raiseLowerBound_bound h
    exact ⟨b, hb, le_trans hle (hlb' lb hlb)⟩
  · exact ⟨lb, by rw [(raiseLowerBound_ne h hm).1]; exact hlb, hle⟩

/-- With a window for the client, raising the bound cannot fail. -/
theorem exists_raiseLowerBound (hwf : t.WF) (hw : (t.replyWindow n).isSome) :
    ∃ t₁ fr, t.raiseLowerBound n a = some (t₁, fr) := by
  unfold raiseLowerBound
  cases hb : t.replyLowerBound n with
  | none => exact ⟨_, _, rfl⟩
  | some lb =>
      obtain ⟨w, hw⟩ := Option.isSome_iff_exists.mp hw
      obtain ⟨s, hs⟩ := Option.isSome_iff_exists.mp (hwf.set n (by simp [hb]))
      simp only [hw, hs]
      split
      · exact ⟨_, _, rfl⟩
      · exact ⟨_, _, rfl⟩

section Check

variable {r : CheckResult}

theorem WF.check (hwf : t.WF) (h : t.checkduplicateAndUpdate n x a = some r) : r.tables.WF := by
  obtain ⟨t₁, hr, ht, -, -⟩ := checkduplicateAndUpdate_inv h
  rw [ht]
  constructor
  · intro m hm
    by_cases hmn : m = n
    · subst hmn
      exact insertSeen_set_isSome
    · rw [insertSeen_bound, (raiseLowerBound_ne hr hmn).1] at hm
      rw [insertSeen_set_ne hmn, raiseLowerBound_set_ne hr hmn]
      exact hwf.set m hm
  · intro m
    rw [insertSeen_window]
    exact (hwf.sorted m).sublist (raiseLowerBound_window_sublist hr m)

theorem Keeps.check (h : t.checkduplicateAndUpdate n x a = some r) : t.Keeps r.tables := by
  obtain ⟨t₁, hr, ht, -, -⟩ := checkduplicateAndUpdate_inv h
  rw [ht]
  refine ⟨fun m hm => ?_, fun m y hy => ?_, fun m y hy => ?_, fun m e he => ?_⟩
  · rw [insertSeen_replyWindow]
    exact raiseLowerBound_replyWindow hr hm
  · exact insertSeen_below.mpr (raiseLowerBound_below hr hy)
  · obtain ⟨lb, hlb, hle⟩ := raiseLowerBound_atOrBelow hr hy
    exact ⟨lb, by rw [insertSeen_bound]; exact hlb, hle⟩
  · rw [insertSeen_window, insertSeen_below]
    exact mem_window_raiseLowerBound hr he

theorem window_check (h : t.checkduplicateAndUpdate n x a = some r) {m : UInt32} {e : ReplyT}
    (he : e ∈ r.tables.window m) : e ∈ t.window m := by
  obtain ⟨t₁, hr, ht, -, -⟩ := checkduplicateAndUpdate_inv h
  rw [ht, insertSeen_window] at he
  exact (raiseLowerBound_window_sublist hr m).subset he

theorem seen_check (h : t.checkduplicateAndUpdate n x a = some r) {m y : UInt32}
    (hy : y ∈ r.tables.seen m) : y ∈ t.seen m ∨ m = n ∧ y = x := by
  obtain ⟨t₁, hr, ht, -, -⟩ := checkduplicateAndUpdate_inv h
  rw [ht] at hy
  by_cases hm : m = n
  · subst hm
    rw [insertSeen_seen_self, Finset.mem_insert] at hy
    rcases hy with rfl | hy
    · exact .inr ⟨rfl, rfl⟩
    · exact .inl (mem_seen_of_raiseLowerBound hr hy)
  · rw [insertSeen_seen_ne hm] at hy
    exact .inl (mem_seen_of_raiseLowerBound hr hy)

/-- The reply handed out is the entry of the xid. -/
theorem reply_check (h : t.checkduplicateAndUpdate n x a = some r) {e : ReplyT}
    (he : r.reply = some e) : e ∈ r.tables.window n ∧ e.xid = x := by
  obtain ⟨t₁, -, ht, hrep, -⟩ := checkduplicateAndUpdate_inv h
  rw [ht, insertSeen_window]
  exact findReply_some (hrep ▸ he)

/-- Without `DONE` the xid has no entry. -/
theorem not_mem_window_of_not_done (h : t.checkduplicateAndUpdate n x a = some r)
    (hv : r.verdict ≠ .done) : ∀ e ∈ r.tables.window n, e.xid ≠ x := by
  obtain ⟨t₁, -, ht, -, hverd⟩ := checkduplicateAndUpdate_inv h
  rw [ht, insertSeen_window]
  refine findReply_none ?_
  cases hf : t₁.findReply n x with
  | none => rfl
  | some e =>
      rw [hf] at hverd
      exact absurd hverd hv

/-- What each verdict other than `NEW` says about the tables. -/
theorem verdict_check (h : t.checkduplicateAndUpdate n x a = some r) :
    r.verdict = .new ∨ (r.verdict = .inprogress ∧ x ∈ t.seen n) ∨
    (r.verdict = .done ∧ ∃ e, r.reply = some e ∧ e ∈ r.tables.window n ∧ e.xid = x) ∨
    (r.verdict = .forgotten ∧ r.tables.AtOrBelow n x) := by
  obtain ⟨t₁, hr, ht, hrep, hv⟩ := checkduplicateAndUpdate_inv h
  cases hf : t₁.findReply n x with
  | some e =>
      obtain ⟨he, hx⟩ := findReply_some hf
      refine .inr (.inr (.inl ⟨?_, e, hrep.trans hf, by rw [ht, insertSeen_window]; exact he, hx⟩))
      rw [hv, hf]
      rfl
  | none =>
      rw [hf] at hv
      by_cases hseen : x ∈ t₁.seen n
      · refine .inr (.inl ⟨?_, mem_seen_of_raiseLowerBound hr hseen⟩)
        rw [hv]
        simp [verdict, hseen]
      · by_cases hb : t₁.atOrBelowBound n x = true
        · refine .inr (.inr (.inr ⟨by rw [hv]; simp [verdict, hseen, hb], ?_⟩))
          rw [ht]
          unfold AtOrBelow
          rw [insertSeen_bound]
          unfold atOrBelowBound at hb
          cases hlb : t₁.replyLowerBound n with
          | none => simp [hlb] at hb
          | some lb => exact ⟨lb, rfl, by simpa [hlb] using hb⟩
        · exact .inl (by rw [hv]; simp [verdict, hseen, hb])

end Check

/-! ### `add_reply` and the creation of a window -/

theorem WF.addReply (hwf : t.WF) {b : Ptr} {sz : Int} (h : t.addReply n x b sz = some t') :
    t'.WF := by
  obtain ⟨hb, hs, -, hne, hi⟩ := addReply_inv h
  refine ⟨fun m hm => ?_, fun m => ?_⟩
  · rw [hb] at hm
    rw [hs]
    exact hwf.set m hm
  · by_cases hm : m = n
    · subst hm
      exact (insertReply_spec (hwf.sorted m) hi).1
    · rw [hne m hm]
      exact hwf.sorted m

/-- One entry comes in, and none leaves. -/
theorem mem_window_addReply (hwf : t.WF) {b : Ptr} {sz : Int}
    (h : t.addReply n x b sz = some t') {m : UInt32} {e : ReplyT} :
    e ∈ t'.window m ↔ e ∈ t.window m ∨ m = n ∧ e = ⟨x, true, b, sz⟩ := by
  obtain ⟨-, -, -, hne, hi⟩ := addReply_inv h
  by_cases hm : m = n
  · subst hm
    rw [(insertReply_spec (hwf.sorted m) hi).2.1 e, or_comm]
    exact or_congr_right (and_iff_right rfl).symm
  · rw [hne m hm]
    exact (or_iff_left fun he => hm he.1).symm

theorem Keeps.addReply (hwf : t.WF) {b : Ptr} {sz : Int} (h : t.addReply n x b sz = some t') :
    t.Keeps t' := by
  obtain ⟨hb, -, hsome, -, -⟩ := addReply_inv h
  refine ⟨fun m hm => by rw [hsome m]; exact hm, ?_, ?_, fun m e he => ?_⟩
  · rintro m y ⟨lb, hlb, hlt⟩
    exact ⟨lb, by rw [hb]; exact hlb, hlt⟩
  · rintro m y ⟨lb, hlb, hle⟩
    exact ⟨lb, by rw [hb]; exact hlb, hle⟩
  · exact .inl ((mem_window_addReply hwf h).mpr (.inl he))

theorem WF.createWindow (hwf : t.WF) : (t.createWindow n).WF where
  set m hm := by
    rw [createWindow_bound] at hm
    rw [createWindow_set]
    exact hwf.set m hm
  sorted m := by
    rw [createWindow_window]
    exact hwf.sorted m

theorem Keeps.createWindow : t.Keeps (t.createWindow n) where
  window _ := createWindow_isSome_of
  below _ _ := by
    rintro ⟨lb, hlb, hlt⟩
    exact ⟨lb, by rw [createWindow_bound]; exact hlb, hlt⟩
  atOrBelow _ _ := by
    rintro ⟨lb, hlb, hle⟩
    exact ⟨lb, by rw [createWindow_bound]; exact hlb, hle⟩
  entry m e he := .inl (by rw [createWindow_window]; exact he)

end RpcLock.Rpcs.ReplyTables
