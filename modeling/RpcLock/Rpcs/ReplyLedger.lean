import RpcLock.Rpcs.AtMostOnce
import RpcLock.Rpcs.ReplyWindow
import Mathlib.Data.List.Perm.Subperm

/-!
# The reply cache and its history

`ledgerMachine` drives the critical sections of `reply_window_m_` the way
`dispatch` does: the window of a client exists before its first check, and
`add_reply` follows each `NEW` once, in any order.  The arguments are arbitrary.
Next to the maps it keeps a ledger of what the calls did: the entries stored,
the bounds raised and the buffers freed.

`Unacknowledged` reads the ledger.  The theorem at the end says that the window
holds exactly the unacknowledged replies, that every buffer is accounted for,
and that no `VERIFY` of the two functions can fail.
-/

namespace RpcLock.Rpcs

/-! ## The ledger -/

/-- What a call did that the maps do not tell afterwards. -/
inductive Event where
  /-- `add_reply` stored this entry. -/
  | added (n : UInt32) (e : ReplyT)
  /-- The lower bound of the client rose to `a`. -/
  | raised (n a : UInt32)
  /-- A buffer stored for the client was passed to `free`. -/
  | freed (n : UInt32) (b : Ptr)
deriving DecidableEq, Repr

/-- The client and the buffer of an `added` event. -/
def Event.addedBuf : Event → Option (UInt32 × Ptr)
  | .added n e => some (n, e.buf)
  | _ => none

/-- The client and the buffer of a `freed` event. -/
def Event.freedBuf : Event → Option (UInt32 × Ptr)
  | .freed n b => some (n, b)
  | _ => none

/-- The buffers stored so far, each with its client. -/
def addedBufs (ev : List Event) : List (UInt32 × Ptr) := ev.filterMap Event.addedBuf

/-- The buffers freed so far, each with its client. -/
def freedBufs (ev : List Event) : List (UInt32 × Ptr) := ev.filterMap Event.freedBuf

/-- The entry was stored, and the bound has not risen above its xid since.  The
newest event stands first. -/
def Unacknowledged (ev : List Event) (n : UInt32) (e : ReplyT) : Prop :=
  ∃ later earlier, ev = later ++ .added n e :: earlier ∧ ∀ a, .raised n a ∈ later → a ≤ e.xid

/-- `reply_lower_bound_[clt_nonce] < xid_rep`, for a client that has a bound. -/
def ReplyTables.rises (t : ReplyTables) (n a : UInt32) : Bool :=
  (t.replyLowerBound n).any fun lb => decide (lb < a)

/-- What a call adds to the ledger. -/
def FilterCall.events (t : ReplyTables) : FilterCall → List Event
  | .createWindow _ => []
  | .check n x a =>
      ((t.checkduplicateAndUpdate n x a).elim [] fun r => r.freed.map (.freed n)) ++
        if t.rises n a then [.raised n a] else []
  | .addReply n x b sz => [.added n ⟨x, true, b, sz⟩]

/-- The filter and its ledger. -/
structure Ledger where
  filter : Filter
  events : List Event

namespace Ledger

def init : Ledger := ⟨.init, []⟩

/-- `reply_window_`, `reply_lower_bound_` and `reply_set_`. -/
def tables (s : Ledger) : ReplyTables := s.filter.tables

/-- `dispatch` makes sure that the client has a window before it checks. -/
def Ready (s : Ledger) : FilterCall → Prop
  | .check n _ _ => (s.tables.replyWindow n).isSome
  | _ => True

instance (s : Ledger) (c : FilterCall) : Decidable (s.Ready c) := by
  cases c <;> unfold Ready <;> infer_instance

/-- One call. -/
def next (s : Ledger) (c : FilterCall) : Option Ledger :=
  if s.Ready c then (s.filter.next c).map fun f => ⟨f, c.events s.tables ++ s.events⟩ else none

end Ledger

/-- The three critical sections, called as `dispatch` calls them. -/
def ledgerMachine : Machine Ledger FilterCall where
  init := .init
  next := Ledger.next

/-! ## Reading the ledger -/

section Unacknowledged

variable {ev more : List Event} {n : UInt32} {e : ReplyT}

theorem unacknowledged_nil : ¬ Unacknowledged [] n e := by
  rintro ⟨later, earlier, h, -⟩
  simp at h

theorem Unacknowledged.mem (h : Unacknowledged ev n e) : .added n e ∈ ev := by
  obtain ⟨later, earlier, rfl, -⟩ := h
  simp

/-- Events that store nothing can only acknowledge. -/
theorem unacknowledged_append (hmore : ∀ n e, .added n e ∉ more) :
    Unacknowledged (more ++ ev) n e ↔
      Unacknowledged ev n e ∧ ∀ a, .raised n a ∈ more → a ≤ e.xid := by
  constructor
  · rintro ⟨later, earlier, h, hle⟩
    rcases List.append_eq_append_iff.mp h with ⟨as, rfl, hev⟩ | ⟨bs, rfl, hbs⟩
    · refine ⟨⟨as, earlier, hev, fun a ha => hle a ?_⟩, fun a ha => hle a ?_⟩
      · exact List.mem_append_right _ ha
      · exact List.mem_append_left _ ha
    · -- the stored entry stands at the head of what follows `later`
      cases bs with
      | nil => exact ⟨⟨[], earlier, by simpa using hbs.symm, by simp⟩, by simpa using hle⟩
      | cons b bs =>
          simp only [List.cons_append, List.cons.injEq] at hbs
          exact absurd (by simp [hbs.1]) (hmore n e)
  · rintro ⟨⟨later, earlier, rfl, hle⟩, hmore'⟩
    refine ⟨more ++ later, earlier, by simp, fun a ha => ?_⟩
    rcases List.mem_append.mp ha with ha | ha
    · exact hmore' a ha
    · exact hle a ha

theorem unacknowledged_added {m : UInt32} {e' : ReplyT} :
    Unacknowledged (.added m e' :: ev) n e ↔ n = m ∧ e = e' ∨ Unacknowledged ev n e := by
  constructor
  · rintro ⟨later, earlier, h, hle⟩
    cases later with
    | nil =>
        simp only [List.nil_append, List.cons.injEq, Event.added.injEq] at h
        exact .inl ⟨h.1.1.symm, h.1.2.symm⟩
    | cons c later =>
        simp only [List.cons_append, List.cons.injEq] at h
        exact .inr ⟨later, earlier, h.2, fun a ha => hle a (List.mem_cons_of_mem _ ha)⟩
  · rintro (⟨rfl, rfl⟩ | ⟨later, earlier, rfl, hle⟩)
    · exact ⟨[], ev, rfl, by simp⟩
    · refine ⟨.added m e' :: later, earlier, by simp, fun a ha => hle a ?_⟩
      simpa using ha

end Unacknowledged

namespace ReplyTables

variable {t : ReplyTables} {n x a : UInt32}

/-! ## What a check does to the windows -/

theorem rises_iff : t.rises n a = true ↔ ∃ lb, t.replyLowerBound n = some lb ∧ lb < a := by
  unfold rises
  cases t.replyLowerBound n <;> simp

/-- With a window for the client, the check cannot fail. -/
theorem exists_check (hwf : t.WF) (hw : (t.replyWindow n).isSome) :
    ∃ r, t.checkduplicateAndUpdate n x a = some r := by
  obtain ⟨t₁, fr, hr⟩ := @exists_raiseLowerBound t n a hwf hw
  unfold checkduplicateAndUpdate
  rw [hr]
  exact ⟨_, rfl⟩

section Check

variable {r : CheckResult}

/-- The check takes a prefix off the window of its client, the entries below a
bound that rises, and frees their buffers. -/
theorem window_check_append (h : t.checkduplicateAndUpdate n x a = some r) :
    ∃ left, t.window n = left ++ r.tables.window n ∧ r.freed = left.map ReplyT.buf ∧
      ∀ e ∈ left, t.rises n a = true ∧ e.xid < a := by
  obtain ⟨t₁, hr, ht, -, -⟩ := checkduplicateAndUpdate_inv h
  rw [ht, insertSeen_window]
  rcases raiseLowerBound_cases hr with ⟨-, hfr, rfl⟩ | ⟨_, -, -, hfr, rfl⟩ | ⟨lb, hb, hlt, hfr, rfl⟩
  · exact ⟨[], rfl, by rw [hfr, List.map_nil], by simp⟩
  · exact ⟨[], rfl, by rw [hfr, List.map_nil], by simp⟩
  · refine ⟨purged a (t.window n), ?_, hfr, fun e he => ⟨?_, lt_of_mem_purged he⟩⟩
    · rw [raised_window_self, purged_append_kept]
    · exact rises_iff.mpr ⟨lb, hb, hlt⟩

theorem window_check_ne (h : t.checkduplicateAndUpdate n x a = some r) {m : UInt32} (hm : m ≠ n) :
    r.tables.window m = t.window m := by
  obtain ⟨t₁, hr, ht, -, -⟩ := checkduplicateAndUpdate_inv h
  rw [ht, insertSeen_window, (raiseLowerBound_ne hr hm).2.2]

/-- An entry stays unless the bound of its client rises above its xid. -/
theorem mem_window_check (hwf : t.WF) (h : t.checkduplicateAndUpdate n x a = some r) {m : UInt32}
    {e : ReplyT} :
    e ∈ r.tables.window m ↔ e ∈ t.window m ∧ (m = n → t.rises n a = true → a ≤ e.xid) := by
  by_cases hm : m = n
  · subst hm
    obtain ⟨t₁, hr, ht, -, -⟩ := checkduplicateAndUpdate_inv h
    rw [ht, insertSeen_window]
    rcases raiseLowerBound_cases hr with ⟨hb, -, rfl⟩ | ⟨lb, hb, hle, -, rfl⟩ |
      ⟨lb, hb, hlt, -, rfl⟩
    · simp [rises, window, hb]
    · simp [rises, hb, not_lt_of_ge hle]
    · rw [raised_window_self, mem_kept (hwf.sorted m)]
      simp [rises, hb, hlt]
  · rw [window_check_ne h hm]
    simp [hm]

/-- The lookup finds the entry of the xid, if the window has one. -/
theorem reply_check_iff (hwf : t.WF) (h : t.checkduplicateAndUpdate n x a = some r) {e : ReplyT} :
    r.reply = some e ↔ e ∈ r.tables.window n ∧ e.xid = x := by
  refine ⟨reply_check h, fun ⟨he, hx⟩ => ?_⟩
  obtain ⟨t₁, -, ht, hrep, -⟩ := checkduplicateAndUpdate_inv h
  have hsorted := (hwf.check h).sorted n
  cases hf : t₁.findReply n x with
  | none =>
      rw [ht, insertSeen_window] at he
      exact absurd hx (findReply_none hf e he)
  | some e' =>
      obtain ⟨he', hx'⟩ := reply_check h (hrep.trans hf)
      rw [hrep, hf, eq_of_xid_eq hsorted he he' (hx.trans hx'.symm)]

/-- `DONE` is answered exactly when the lookup finds an entry. -/
theorem done_iff_reply (h : t.checkduplicateAndUpdate n x a = some r) :
    r.verdict = .done ↔ ∃ e, r.reply = some e := by
  refine ⟨reply_of_done h, fun ⟨e, he⟩ => ?_⟩
  obtain ⟨t₁, -, -, hrep, hv⟩ := checkduplicateAndUpdate_inv h
  rw [hv, ← hrep, he]
  simp [ReplyTables.verdict]

end Check

/-! ## What `add_reply` does -/

/-- The insertion fails only on an entry with the same xid. -/
theorem exists_insertReply {rply : ReplyT} {w : List ReplyT} (h : ∀ e ∈ w, e.xid ≠ rply.xid) :
    ∃ w', insertReply rply w = some w' := by
  induction w with
  | nil => exact ⟨_, rfl⟩
  | cons r w ih =>
      obtain ⟨w', hw'⟩ := ih fun e he => h e (List.mem_cons_of_mem _ he)
      unfold insertReply
      split
      · exact ⟨r :: w', by rw [hw', Option.map_some]⟩
      · rw [if_neg (h r List.mem_cons_self)]
        exact ⟨_, rfl⟩

theorem insertReply_perm {rply : ReplyT} {w w' : List ReplyT} (h : insertReply rply w = some w') :
    w'.Perm (rply :: w) := by
  induction w generalizing w' with
  | nil =>
      cases h
      exact .refl _
  | cons r w ih =>
      unfold insertReply at h
      split at h
      · obtain ⟨w₁, h₁, rfl⟩ := Option.map_eq_some_iff.mp h
        exact ((ih h₁).cons r).trans (.swap rply r w)
      · split at h
        · cases h
        · cases h
          exact .refl _

theorem exists_addReply {b : Ptr} {sz : Int} (hw : (t.replyWindow n).isSome)
    (h : ∀ e ∈ t.window n, e.xid ≠ x) : ∃ t', t.addReply n x b sz = some t' := by
  obtain ⟨w, hw⟩ := Option.isSome_iff_exists.mp hw
  have hwin : t.window n = w := by rw [window, hw, Option.getD_some]
  obtain ⟨w', hw'⟩ := @exists_insertReply ⟨x, true, b, sz⟩ w (hwin ▸ h)
  unfold ReplyTables.addReply
  simp only [hw, hw', Option.map_some]
  exact ⟨_, rfl⟩

end ReplyTables

namespace Ledger

open ReplyTables

variable {s s' : Ledger}

/-! ## The invariant -/

/-- The windows are what the ledger says, and a pending reply is not in it. -/
structure Inv (s : Ledger) : Prop where
  once : Filter.Once s.filter
  wf : s.tables.WF
  entries : ∀ n e, e ∈ s.tables.window n ↔ Unacknowledged s.events n e
  balance : ∀ n b, (addedBufs s.events).count (n, b) =
    (freedBufs s.events).count (n, b) + ((s.tables.window n).map ReplyT.buf).count b
  /-- A pending reply has a window, and was answered `NEW`. -/
  pending : ∀ n x, (n, x) ∈ s.filter.pending →
    (s.tables.replyWindow n).isSome ∧ (n, x, .new) ∈ s.filter.verdicts
  nodup : s.filter.pending.Nodup
  /-- A stored reply was answered `NEW`, and is not pending any more. -/
  added : ∀ n e, .added n e ∈ s.events →
    (n, e.xid, .new) ∈ s.filter.verdicts ∧ (n, e.xid) ∉ s.filter.pending

theorem inv_init : Inv Ledger.init where
  once := Filter.once_init
  wf := wf_empty
  entries n e := by
    refine ⟨fun h => ?_, fun h => absurd h unacknowledged_nil⟩
    simp [Ledger.init, Filter.init, tables, ReplyTables.empty, window] at h
  balance n b := by
    simp [Ledger.init, Filter.init, tables, ReplyTables.empty, window, addedBufs, freedBufs]
  pending n x h := by simp [Ledger.init, Filter.init] at h
  nodup := by simp [Ledger.init, Filter.init]
  added n e h := by simp [Ledger.init] at h

/-- Without an entry for the xid in the ledger there is none in the window. -/
theorem Inv.not_mem_window (h : Inv s) {n x : UInt32} (hp : (n, x) ∈ s.filter.pending) :
    ∀ e ∈ s.tables.window n, e.xid ≠ x := by
  intro e he hx
  exact (h.added n e ((h.entries n e).mp he).mem).2 (hx ▸ hp)

theorem next_inv {c : FilterCall} (h : s.next c = some s') :
    s.Ready c ∧ ∃ f, s.filter.next c = some f ∧ s' = ⟨f, c.events s.tables ++ s.events⟩ := by
  unfold next at h
  split at h
  · next hr =>
      obtain ⟨f, hf, rfl⟩ := Option.map_eq_some_iff.mp h
      exact ⟨hr, f, hf, rfl⟩
  · cases h

/-- What the events of a check are. -/
theorem mem_events_check {t : ReplyTables} {n x a : UInt32} {r : CheckResult}
    (hr : t.checkduplicateAndUpdate n x a = some r) {ev : Event}
    (h : ev ∈ FilterCall.events t (.check n x a)) :
    (∃ b ∈ r.freed, ev = .freed n b) ∨ t.rises n a = true ∧ ev = .raised n a := by
  simp only [FilterCall.events, hr, Option.elim_some, List.mem_append, List.mem_map] at h
  rcases h with ⟨b, hb, rfl⟩ | h
  · exact .inl ⟨b, hb, rfl⟩
  · split at h
    · next hrise => exact .inr ⟨hrise, List.mem_singleton.mp h⟩
    · cases h

theorem addedBufs_append (ev more : List Event) :
    addedBufs (more ++ ev) = addedBufs more ++ addedBufs ev := List.filterMap_append

theorem freedBufs_append (ev more : List Event) :
    freedBufs (more ++ ev) = freedBufs more ++ freedBufs ev := List.filterMap_append

theorem addedBufs_check {t : ReplyTables} {n x a : UInt32} {r : CheckResult}
    (hr : t.checkduplicateAndUpdate n x a = some r) :
    addedBufs (FilterCall.events t (.check n x a)) = [] := by
  refine List.filterMap_eq_nil_iff.mpr fun ev hev => ?_
  rcases mem_events_check hr hev with ⟨b, -, rfl⟩ | ⟨-, rfl⟩ <;> rfl

theorem freedBufs_check {t : ReplyTables} {n x a : UInt32} {r : CheckResult}
    (hr : t.checkduplicateAndUpdate n x a = some r) :
    freedBufs (FilterCall.events t (.check n x a)) = r.freed.map (Prod.mk n) := by
  have hmap : (r.freed.map (Event.freed n)).filterMap Event.freedBuf = r.freed.map (Prod.mk n) := by
    rw [List.filterMap_map, ← List.filterMap_eq_map]
    rfl
  have hrest : freedBufs (if t.rises n a then [Event.raised n a] else []) = [] := by
    split <;> rfl
  simp only [FilterCall.events, hr, Option.elim_some, freedBufs_append, hrest, List.append_nil]
  exact hmap

/-- The count of a tagged buffer is the count of the buffer, for the right client. -/
theorem count_map_mk (n m : UInt32) (b : Ptr) (bs : List Ptr) :
    (bs.map (Prod.mk n)).count (m, b) = if m = n then bs.count b else 0 := by
  by_cases hm : m = n
  · subst hm
    rw [if_pos rfl]
    exact List.count_map_of_injective bs _ (Prod.mk_right_injective m) b
  · rw [if_neg hm]
    refine List.count_eq_zero_of_not_mem fun h => ?_
    obtain ⟨c, -, hc⟩ := List.mem_map.mp h
    exact hm (Prod.mk.inj hc).1.symm

/-! ## The steps keep the invariant -/

section Steps

variable {n x a : UInt32} {f : Filter}

theorem filter_check_inv (h : s.filter.next (.check n x a) = some f) :
    ∃ r, s.tables.checkduplicateAndUpdate n x a = some r ∧ f.tables = r.tables ∧
      f.pending = (if r.verdict = .new then (n, x) :: s.filter.pending else s.filter.pending) ∧
      f.verdicts = (n, x, r.verdict) :: s.filter.verdicts := by
  simp only [Filter.next] at h
  unfold tables
  cases hr : s.filter.tables.checkduplicateAndUpdate n x a with
  | none => simp [hr] at h
  | some r =>
      simp only [hr, Option.some.injEq] at h
      subst h
      exact ⟨r, rfl, rfl, rfl, rfl⟩

theorem filter_addReply_inv {b : Ptr} {sz : Int}
    (h : s.filter.next (.addReply n x b sz) = some f) :
    (n, x) ∈ s.filter.pending ∧ s.tables.addReply n x b sz = some f.tables ∧
      f.pending = s.filter.pending.erase (n, x) ∧ f.verdicts = s.filter.verdicts := by
  simp only [Filter.next] at h
  split at h
  · next hp =>
      unfold tables
      cases hr : s.filter.tables.addReply n x b sz with
      | none => simp [hr] at h
      | some t =>
          simp only [hr, Option.some.injEq] at h
          subst h
          exact ⟨hp, rfl, rfl, rfl⟩
  · cases h

theorem reachable_next {c : FilterCall} (h : ledgerMachine.Reachable s)
    (hn : s.next c = some s') : ledgerMachine.Reachable s' := h.step hn

/-! The three calls are enabled when their tables operation succeeds. -/

theorem next_of_filter {c : FilterCall} (hready : s.Ready c) (hf : s.filter.next c = some f) :
    s.next c = some ⟨f, c.events s.tables ++ s.events⟩ := by
  rw [next, if_pos hready, hf, Option.map_some]

theorem exists_next_createWindow (s : Ledger) (n : UInt32) :
    ∃ s', s.next (.createWindow n) = some s' ∧ s'.tables = s.tables.createWindow n ∧
      s'.filter.pending = s.filter.pending :=
  ⟨_, next_of_filter trivial rfl, rfl, rfl⟩

theorem exists_next_check {r : CheckResult} (hready : (s.tables.replyWindow n).isSome)
    (hr : s.tables.checkduplicateAndUpdate n x a = some r) :
    ∃ s', s.next (.check n x a) = some s' ∧ s'.tables = r.tables ∧ s'.filter.pending =
      if r.verdict = .new then (n, x) :: s.filter.pending else s.filter.pending := by
  have hf : s.filter.next (.check n x a) = some {
      tables := r.tables
      pending := if r.verdict = .new then (n, x) :: s.filter.pending else s.filter.pending
      verdicts := (n, x, r.verdict) :: s.filter.verdicts } := by
    unfold tables at hr
    simp only [Filter.next, hr]
  exact ⟨_, next_of_filter hready hf, rfl, rfl⟩

theorem exists_next_addReply {b : Ptr} {sz : Int} {t : ReplyTables}
    (hp : (n, x) ∈ s.filter.pending) (ht : s.tables.addReply n x b sz = some t) :
    ∃ s', s.next (.addReply n x b sz) = some s' ∧ s'.tables = t ∧
      s'.filter.pending = s.filter.pending.erase (n, x) := by
  have hf : s.filter.next (.addReply n x b sz) =
      some { s.filter with tables := t, pending := s.filter.pending.erase (n, x) } := by
    unfold tables at ht
    simp only [Filter.next, if_pos hp, ht]
  exact ⟨_, next_of_filter trivial hf, rfl, rfl⟩

/-- A pair that gets `NEW` was never answered before. -/
theorem Inv.not_mem_verdicts (h : Inv s) {r : CheckResult}
    (hr : s.tables.checkduplicateAndUpdate n x a = some r) (hv : r.verdict = .new)
    (v : RpcState) : (n, x, v) ∉ s.filter.verdicts :=
  fun hm => not_remembers_of_new hr hv (h.once.remembers n x v hm)

theorem Inv.check (h : Inv s) (hready : (s.tables.replyWindow n).isSome)
    (hf : s.filter.next (.check n x a) = some f) :
    Inv ⟨f, FilterCall.events s.tables (.check n x a) ++ s.events⟩ := by
  have honce := Filter.once_next h.once hf
  obtain ⟨r, hr, ht, hp, hv⟩ := filter_check_inv hf
  have hkeep := Keeps.check hr
  refine ⟨honce, ?_, fun m e => ?_, fun m b => ?_, fun m y hm => ?_, ?_, fun m e hm => ?_⟩
  · show f.tables.WF
    rw [ht]
    exact h.wf.check hr
  · -- the bound rises in the ledger exactly when the entry leaves
    rw [unacknowledged_append, ← h.entries m e]
    · show e ∈ f.tables.window m ↔ _
      rw [ht, mem_window_check h.wf hr]
      refine and_congr_right fun _ => ⟨fun hle b hb => ?_, fun hle hmn hrise => ?_⟩
      · rcases mem_events_check hr hb with ⟨c, -, hc⟩ | ⟨hrise, hc⟩
        · cases hc
        · cases hc
          exact hle rfl hrise
      · refine hle a ?_
        rw [hmn]
        simp [FilterCall.events, hrise]
    · intro m e hm
      rcases mem_events_check hr hm with ⟨c, -, hc⟩ | ⟨-, hc⟩ <;> cases hc
  · show _ = _ + ((f.tables.window m).map ReplyT.buf).count b
    rw [ht, addedBufs_append, freedBufs_append, addedBufs_check hr, freedBufs_check hr,
      List.nil_append, List.count_append, count_map_mk, h.balance m b]
    obtain ⟨left, hleft, hfreed, -⟩ := window_check_append hr
    by_cases hm : m = n
    · subst hm
      rw [if_pos rfl, hleft, hfreed, List.map_append, List.count_append]
      omega
    · rw [if_neg hm, window_check_ne hr hm]
      omega
  · show (f.tables.replyWindow m).isSome ∧ (m, y, .new) ∈ f.verdicts
    rw [ht, hv]
    change (m, y) ∈ f.pending at hm
    rw [hp] at hm
    split at hm
    · next hnew =>
        rcases List.mem_cons.mp hm with he | hm
        · cases he
          exact ⟨hkeep.window n hready, by rw [hnew]; exact List.mem_cons_self⟩
        · exact ⟨hkeep.window m (h.pending m y hm).1, List.mem_cons_of_mem _ (h.pending m y hm).2⟩
    · exact ⟨hkeep.window m (h.pending m y hm).1, List.mem_cons_of_mem _ (h.pending m y hm).2⟩
  · show f.pending.Nodup
    rw [hp]
    split
    · next hnew =>
        exact List.nodup_cons.mpr
          ⟨fun hm => h.not_mem_verdicts hr hnew _ (h.pending n x hm).2, h.nodup⟩
    · exact h.nodup
  · have hold : .added m e ∈ s.events := by
      rcases List.mem_append.mp hm with hm | hm
      · rcases mem_events_check hr hm with ⟨c, -, hc⟩ | ⟨-, hc⟩ <;> cases hc
      · exact hm
    show (m, e.xid, .new) ∈ f.verdicts ∧ (m, e.xid) ∉ f.pending
    rw [hp, hv]
    refine ⟨List.mem_cons_of_mem _ (h.added m e hold).1, ?_⟩
    split
    · next hnew =>
        intro hm
        rcases List.mem_cons.mp hm with he | hm
        · cases he
          exact h.not_mem_verdicts hr hnew _ (h.added n e hold).1
        · exact (h.added m e hold).2 hm
    · exact (h.added m e hold).2

theorem Inv.addReply (h : Inv s) {b : Ptr} {sz : Int}
    (hf : s.filter.next (.addReply n x b sz) = some f) :
    Inv ⟨f, FilterCall.events s.tables (.addReply n x b sz) ++ s.events⟩ := by
  have honce := Filter.once_next h.once hf
  obtain ⟨hpend, hadd, hp, hv⟩ := filter_addReply_inv hf
  obtain ⟨-, -, hsome, hne, hins⟩ := addReply_inv hadd
  refine ⟨honce, h.wf.addReply hadd, fun m e => ?_, fun m c => ?_, fun m y hm => ?_, ?_,
    fun m e hm => ?_⟩
  · show e ∈ f.tables.window m ↔ Unacknowledged (.added n ⟨x, true, b, sz⟩ :: s.events) m e
    rw [unacknowledged_added, ← h.entries m e, mem_window_addReply h.wf hadd, or_comm]
  · show ((n, b) :: addedBufs s.events).count (m, c) =
      (freedBufs s.events).count (m, c) + ((f.tables.window m).map ReplyT.buf).count c
    rw [List.count_cons, h.balance m c]
    by_cases hm : m = n
    · subst hm
      rw [((insertReply_perm hins).map ReplyT.buf).count_eq c, List.map_cons, List.count_cons]
      by_cases hc : b = c <;> simp [hc, Nat.add_assoc]
    · rw [hne m hm]
      have hne' : ((n, b) == (m, c)) = false := by simp [Ne.symm hm]
      simp [hne']
  · show (f.tables.replyWindow m).isSome ∧ (m, y, .new) ∈ f.verdicts
    rw [hsome m, hv]
    change (m, y) ∈ f.pending at hm
    rw [hp] at hm
    exact h.pending m y (List.mem_of_mem_erase hm)
  · show f.pending.Nodup
    rw [hp]
    exact h.nodup.erase _
  · show (m, e.xid, .new) ∈ f.verdicts ∧ (m, e.xid) ∉ f.pending
    rw [hp, hv]
    rcases List.mem_cons.mp hm with he | hm
    · cases he
      exact ⟨(h.pending n x hpend).2, h.nodup.not_mem_erase⟩
    · exact ⟨(h.added m e hm).1, fun hm' => (h.added m e hm).2 (List.mem_of_mem_erase hm')⟩

theorem inv_next {c : FilterCall} (h : Inv s) (hn : s.next c = some s') : Inv s' := by
  obtain ⟨hready, f, hf, rfl⟩ := next_inv hn
  cases c with
  | createWindow n =>
      have honce := Filter.once_next h.once hf
      cases hf
      refine ⟨honce, h.wf.createWindow, fun m e => ?_, fun m b => ?_, fun m x hm => ?_,
        h.nodup, h.added⟩
      · show e ∈ (s.tables.createWindow n).window m ↔ _
        rw [createWindow_window]
        exact h.entries m e
      · show _ = _ + (((s.tables.createWindow n).window m).map ReplyT.buf).count b
        rw [createWindow_window]
        exact h.balance m b
      · exact ⟨createWindow_isSome_of (h.pending m x hm).1, (h.pending m x hm).2⟩
  | check n x a => exact h.check hready hf
  | addReply n x b sz => exact h.addReply hf

theorem inv_of_reachable (h : ledgerMachine.Reachable s) : Inv s :=
  h.invariant inv_init fun _ _ _ hs hn => inv_next hs hn

end Steps

/-! ## The reply cache is exact -/

/-- A check of a client with a window: what it returns and what it frees. -/
structure CheckExact (t : ReplyTables) (n x a : UInt32) (r : CheckResult) : Prop where
  /-- The lookup finds exactly the entry of the xid. -/
  lookup : ∀ e, r.reply = some e ↔ e ∈ r.tables.window n ∧ e.xid = x
  done : r.verdict = .done ↔ ∃ e ∈ r.tables.window n, e.xid = x
  /-- The freed buffers are those of the entries that leave. -/
  freed : ∃ left, t.window n = left ++ r.tables.window n ∧ r.freed = left.map ReplyT.buf
  others : ∀ m, m ≠ n → r.tables.window m = t.window m

/-- What the reply cache holds, frees and answers. -/
structure Exact (s : Ledger) : Prop where
  sorted : ∀ n, Sorted (s.tables.window n)
  entries : ∀ n e, e ∈ s.tables.window n ↔ Unacknowledged s.events n e
  /-- A stored buffer was freed or is held, and each once. -/
  balance : ∀ n b, (addedBufs s.events).count (n, b) =
    (freedBufs s.events).count (n, b) + ((s.tables.window n).map ReplyT.buf).count b
  /-- If no two replies share a buffer, none is freed twice. -/
  freedOnce : ((addedBufs s.events).map Prod.snd).Nodup → ((freedBufs s.events).map Prod.snd).Nodup
  /-- No `VERIFY` of `checkduplicate_and_update` fails. -/
  check : ∀ n x a, (s.tables.replyWindow n).isSome →
    ∃ r, s.tables.checkduplicateAndUpdate n x a = some r ∧ CheckExact s.tables n x a r
  /-- No `VERIFY` of `add_reply` fails, and no entry leaves. -/
  addReply : ∀ n x b sz, (n, x) ∈ s.filter.pending →
    ∃ t, s.tables.addReply n x b sz = some t ∧ ∀ m e, e ∈ s.tables.window m → e ∈ t.window m

theorem checkExact (hwf : ReplyTables.WF t) {n x a : UInt32} {r : CheckResult}
    (hr : t.checkduplicateAndUpdate n x a = some r) : CheckExact t n x a r where
  lookup e := reply_check_iff hwf hr
  done := by
    rw [done_iff_reply hr]
    simp only [reply_check_iff hwf hr]
  freed := by
    obtain ⟨left, hleft, hfreed, -⟩ := window_check_append hr
    exact ⟨left, hleft, hfreed⟩
  others _ hm := window_check_ne hr hm

/-- Every freed buffer was stored, and no more often freed than stored. -/
theorem Inv.freed_subperm (h : Inv s) : (freedBufs s.events).Subperm (addedBufs s.events) := by
  refine List.subperm_ext_iff.mpr fun p _ => ?_
  have hbal := h.balance p.1 p.2
  exact hbal ▸ Nat.le_add_right _ _

/-- The reply cache holds exactly the unacknowledged replies, in order, under
every sequence of calls that `dispatch` can make. -/
theorem reply_cache_exact (h : ledgerMachine.Reachable s) : Exact s := by
  have hinv := inv_of_reachable h
  refine ⟨hinv.wf.sorted, hinv.entries, hinv.balance, fun hnodup => ?_, fun n x a hw => ?_,
    fun n x b sz hp => ?_⟩
  · obtain ⟨l, hperm, hsub⟩ := hinv.freed_subperm
    exact (hperm.map Prod.snd).nodup_iff.mp (hnodup.sublist (hsub.map Prod.snd))
  · obtain ⟨r, hr⟩ := @exists_check s.tables n x a hinv.wf hw
    exact ⟨r, hr, checkExact hinv.wf hr⟩
  · obtain ⟨t, ht⟩ := @exists_addReply s.tables n x b sz (hinv.pending n x hp).1
      (hinv.not_mem_window hp)
    exact ⟨t, ht, fun m e he => (mem_window_addReply hinv.wf ht).mpr (.inl he)⟩

/-- Three requests of client 7 are answered out of order.  The bound rises to 3
while the first is still running, and its reply is stored below the bound. -/
def lateReply : List FilterCall :=
  [.createWindow 7, .check 7 1 0, .check 7 2 0, .check 7 3 0, .addReply 7 3 30 16,
    .addReply 7 2 20 16, .check 7 4 3, .addReply 7 1 10 16]

theorem reply_cache_exact_lateReply :
    ∃ s, ledgerMachine.Reachable s ∧ (s.tables.window 7).map ReplyT.xid = [1, 3] ∧
      freedBufs s.events = [(7, 20)] ∧ Exact s := by
  obtain ⟨s, hs, hp⟩ := Machine.exists_reachable_of_run (M := ledgerMachine)
    (p := fun s => decide ((s.tables.window 7).map ReplyT.xid = [1, 3] ∧
      freedBufs s.events = [(7, 20)])) lateReply (by decide)
  obtain ⟨hw, hf⟩ := of_decide_eq_true hp
  exact ⟨s, hs, hw, hf, reply_cache_exact hs⟩

end Ledger

end RpcLock.Rpcs
