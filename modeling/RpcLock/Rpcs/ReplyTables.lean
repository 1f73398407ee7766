import RpcLock.Rpc.Message
import Mathlib.Data.Finset.Basic
import Mathlib.Data.List.Basic
import Mathlib.Logic.Function.Basic

/-!
# The duplicate filter of `rpcs`

`rpcs` keeps three maps under `reply_window_m_`, all indexed by the client
nonce: the replies it still remembers, the largest `xid_rep` the client has
sent, and the xids it has seen.  `checkduplicateAndUpdate` and `addReply` are
the two critical sections that read and change them.

A `VERIFY` that fails aborts the process.  Here the function returns `none`.
A `char *` is a `Ptr`, and `free` is recorded in the result of the call.

The maps are pruned at different moments.  Raising the lower bound drops the
remembered replies below it from the front of the list.  The seen set is cut
only when the new bound is itself a member.  `Remembers` is what survives both:
an xid once submitted is in the seen set or below the lower bound, forever.
-/

namespace RpcLock.Rpcs

/-- `rpcs::reply_t`: a completed call whose reply the server still holds. -/
structure ReplyT where
  xid : UInt32
  /-- Whether the reply buffer is valid. -/
  cbPresent : Bool
  /-- The reply buffer. -/
  buf : Ptr
  /-- The size of the reply buffer. -/
  sz : Int
deriving DecidableEq, Repr

/-- `rpcs::rpcstate_t`. -/
inductive RpcState where
  /-- New RPC, not a duplicate. -/
  | new
  /-- Duplicate of an RPC the server is still processing. -/
  | inprogress
  /-- Duplicate of an RPC the server already replied to. -/
  | done
  /-- Duplicate of an old RPC whose reply is forgotten. -/
  | forgotten
deriving DecidableEq, Repr

/-- The maps protected by `reply_window_m_`. -/
structure ReplyTables where
  /-- `reply_window_` -/
  replyWindow : UInt32 → Option (List ReplyT)
  /-- `reply_lower_bound_` -/
  replyLowerBound : UInt32 → Option UInt32
  /-- `reply_set_` -/
  replySet : UInt32 → Option (Finset UInt32)

/-- The maps of a fresh server. -/
def ReplyTables.empty : ReplyTables where
  replyWindow _ := none
  replyLowerBound _ := none
  replySet _ := none

namespace ReplyTables

/-! ## `checkduplicate_and_update` -/

/-- The entries popped from the front of the window when the bound rises. -/
def purged (xidRep : UInt32) (w : List ReplyT) : List ReplyT :=
  w.takeWhile fun r => decide (r.xid < xidRep)

/-- The entries that stay in the window when the bound rises. -/
def kept (xidRep : UInt32) (w : List ReplyT) : List ReplyT :=
  w.dropWhile fun r => decide (r.xid < xidRep)

/-- `reply_set_[clt].erase(begin, set_it)`, done only when `xid_rep` is a
member. -/
def cutSet (xidRep : UInt32) (seen : Finset UInt32) : Finset UInt32 :=
  if 0 < xidRep ∧ xidRep ∈ seen then seen.filter (xidRep ≤ ·) else seen

/-- Lines 669 to 688: record the acknowledgement.  The first call of a client
only sets its lower bound.  A later call that raises the bound frees the
replies below it.  Returns the tables and the freed buffers. -/
def raiseLowerBound (t : ReplyTables) (cltNonce xidRep : UInt32) :
    Option (ReplyTables × List Ptr) :=
  match t.replyLowerBound cltNonce with
  | none =>
      some ({ t with
        replyLowerBound := Function.update t.replyLowerBound cltNonce (some xidRep) }, [])
  | some lb =>
      if lb < xidRep then
        match t.replyWindow cltNonce, t.replySet cltNonce with
        | some w, some seen =>
            some ({
              replyWindow := Function.update t.replyWindow cltNonce (some (kept xidRep w))
              replyLowerBound := Function.update t.replyLowerBound cltNonce (some xidRep)
              replySet := Function.update t.replySet cltNonce (some (cutSet xidRep seen)) },
              (purged xidRep w).map ReplyT.buf)
        -- VERIFY(reply_window_.find(clt_nonce) != reply_window_.end()), and the same for the set
        | _, _ => none
      else some (t, [])

/-- Lines 690 to 697: put `xid` in the seen set.  The Boolean is `old`. -/
def insertSeen (t : ReplyTables) (cltNonce xid : UInt32) : ReplyTables × Bool :=
  match t.replySet cltNonce with
  | none => ({ t with replySet := Function.update t.replySet cltNonce (some {xid}) }, false)
  | some seen =>
      if xid ∈ seen then (t, true)
      else ({ t with
        replySet := Function.update t.replySet cltNonce (some (insert xid seen)) }, false)

/-- Lines 700 to 711: the remembered reply for `xid`, if there is one. -/
def findReply (t : ReplyTables) (cltNonce xid : UInt32) : Option ReplyT :=
  (t.replyWindow cltNonce).bind fun w => w.find? fun r => decide (r.xid = xid)

/-- Whether `xid <= reply_lower_bound_[clt_nonce]`.  The entry exists by then. -/
def atOrBelowBound (t : ReplyTables) (cltNonce xid : UInt32) : Bool :=
  match t.replyLowerBound cltNonce with
  | none => false
  | some lb => decide (xid ≤ lb)

/-- Lines 713 to 721: the verdict, from `done`, `old` and the bound. -/
def verdict (reply : Option ReplyT) (old below : Bool) : RpcState :=
  if reply.isSome then .done
  else if old then .inprogress
  else if below then .forgotten
  else .new

/-- What a call of `checkduplicate_and_update` returns and leaves behind. -/
structure CheckResult where
  verdict : RpcState
  /-- `*b` and `*sz`, written on `DONE`. -/
  reply : Option ReplyT
  /-- The buffers it passed to `free`. -/
  freed : List Ptr
  tables : ReplyTables

/-- `rpcs::checkduplicate_and_update`. -/
def checkduplicateAndUpdate (t : ReplyTables) (cltNonce xid xidRep : UInt32) :
    Option CheckResult :=
  (t.raiseLowerBound cltNonce xidRep).map fun (t₁, freed) =>
    let (t₂, old) := t₁.insertSeen cltNonce xid
    let reply := t₂.findReply cltNonce xid
    { verdict := verdict reply old (t₂.atOrBelowBound cltNonce xid)
      reply
      freed
      tables := t₂ }

/-! ## `add_reply` and the window entry of a new client -/

/-- The insertion loop of `add_reply`: before the first entry whose xid is not
smaller.  An entry with the same xid fails the `VERIFY`. -/
def insertReply (rply : ReplyT) : List ReplyT → Option (List ReplyT)
  | [] => some [rply]
  | r :: w =>
      if r.xid < rply.xid then (insertReply rply w).map (r :: ·)
      else if r.xid = rply.xid then none
      else some (rply :: r :: w)

/-- `rpcs::add_reply`. -/
def addReply (t : ReplyTables) (cltNonce xid : UInt32) (b : Ptr) (sz : Int) :
    Option ReplyTables :=
  match t.replyWindow cltNonce with
  | none => none
  | some w =>
      (insertReply { xid, cbPresent := true, buf := b, sz } w).map fun w' =>
        { t with replyWindow := Function.update t.replyWindow cltNonce (some w') }

/-- The block of `dispatch` that creates `reply_window_[clt_nonce]` for a client
it has not seen. -/
def createWindow (t : ReplyTables) (cltNonce : UInt32) : ReplyTables :=
  match t.replyWindow cltNonce with
  | none => { t with replyWindow := Function.update t.replyWindow cltNonce (some []) }
  | some _ => t

end ReplyTables

namespace ReplyTables

/-! ## Total views of the maps -/

/-- The remembered replies of a client, oldest xid first. -/
def window (t : ReplyTables) (n : UInt32) : List ReplyT := (t.replyWindow n).getD []

/-- The xids seen from a client and not cut since. -/
def seen (t : ReplyTables) (n : UInt32) : Finset UInt32 := (t.replySet n).getD ∅

/-- `x` is strictly below the lower bound of client `n`. -/
def Below (t : ReplyTables) (n x : UInt32) : Prop := ∃ lb, t.replyLowerBound n = some lb ∧ x < lb

/-- `x` is strictly above the lower bound of client `n`, if it has one. -/
def Above (t : ReplyTables) (n x : UInt32) : Prop := ∀ lb, t.replyLowerBound n = some lb → lb < x

/-- What the filter never forgets about a submitted xid. -/
def Remembers (t : ReplyTables) (n x : UInt32) : Prop := x ∈ t.seen n ∨ t.Below n x

/-! ## Raising the bound -/

/-- The tables after the bound of `n` rose to `a`. -/
def raised (t : ReplyTables) (n a : UInt32) : ReplyTables where
  replyWindow := Function.update t.replyWindow n (some (kept a (t.window n)))
  replyLowerBound := Function.update t.replyLowerBound n (some a)
  replySet := Function.update t.replySet n (some (cutSet a (t.seen n)))

/-- Everything `raiseLowerBound` can do. -/
theorem raiseLowerBound_cases {t t' : ReplyTables} {n a : UInt32} {fr : List Ptr}
    (h : t.raiseLowerBound n a = some (t', fr)) :
    (t.replyLowerBound n = none ∧ fr = [] ∧
      t' = { t with replyLowerBound := Function.update t.replyLowerBound n (some a) }) ∨
    (∃ lb, t.replyLowerBound n = some lb ∧ a ≤ lb ∧ fr = [] ∧ t' = t) ∨
    (∃ lb, t.replyLowerBound n = some lb ∧ lb < a ∧
      fr = (purged a (t.window n)).map ReplyT.buf ∧ t' = t.raised n a) := by
  unfold raiseLowerBound at h
  cases hb : t.replyLowerBound n with
  | none =>
      simp only [hb, Option.some.injEq, Prod.mk.injEq] at h
      exact .inl ⟨rfl, h.2.symm, h.1.symm⟩
  | some lb =>
      simp only [hb] at h
      by_cases hlt : lb < a
      · rw [if_pos hlt] at h
        cases hw : t.replyWindow n with
        | none => simp [hw] at h
        | some w =>
            cases hs : t.replySet n with
            | none => simp [hw, hs] at h
            | some s =>
                simp only [hw, hs, Option.some.injEq, Prod.mk.injEq] at h
                refine .inr (.inr ⟨lb, rfl, hlt, ?_, ?_⟩)
                · rw [← h.2, window, hw, Option.getD_some]
                · rw [← h.1, raised, window, seen, hw, hs, Option.getD_some, Option.getD_some]
      · rw [if_neg hlt, Option.some.injEq, Prod.mk.injEq] at h
        exact .inr (.inl ⟨lb, rfl, not_lt.mp hlt, h.2.symm, h.1.symm⟩)

theorem mem_cutSet {a y : UInt32} {s : Finset UInt32} (h : y ∈ cutSet a s) : y ∈ s := by
  unfold cutSet at h
  split at h
  · exact (Finset.mem_filter.mp h).1
  · exact h

theorem mem_cutSet_or_lt {a y : UInt32} {s : Finset UInt32} (h : y ∈ s) :
    y ∈ cutSet a s ∨ y < a := by
  unfold cutSet
  split
  · rcases lt_or_ge y a with hlt | hle
    · exact .inr hlt
    · exact .inl (Finset.mem_filter.mpr ⟨h, hle⟩)
  · exact .inl h

/-! ## What one call changes

`raiseLowerBound` and `insertSeen` touch only the entry of the calling client.
The lemmas below read the result through the total views. -/

section Raise

variable {t t' : ReplyTables} {n a : UInt32} {fr : List Ptr}

@[simp] theorem raised_window_self : (t.raised n a).window n = kept a (t.window n) := by
  simp [raised, window]

@[simp] theorem raised_seen_self : (t.raised n a).seen n = cutSet a (t.seen n) := by
  simp [raised, seen]

@[simp] theorem raised_bound_self : (t.raised n a).replyLowerBound n = some a := by
  simp [raised]

theorem raised_window_ne {m : UInt32} (h : m ≠ n) : (t.raised n a).window m = t.window m := by
  simp [raised, window, h]

theorem raised_seen_ne {m : UInt32} (h : m ≠ n) : (t.raised n a).seen m = t.seen m := by
  simp [raised, seen, h]

theorem raised_bound_ne {m : UInt32} (h : m ≠ n) :
    (t.raised n a).replyLowerBound m = t.replyLowerBound m := by
  simp [raised, h]

/-- Another client's bound, seen set and window are not touched. -/
theorem raiseLowerBound_ne (h : t.raiseLowerBound n a = some (t', fr)) {m : UInt32}
    (hm : m ≠ n) :
    t'.replyLowerBound m = t.replyLowerBound m ∧ t'.seen m = t.seen m ∧
      t'.window m = t.window m := by
  rcases raiseLowerBound_cases h with ⟨-, -, rfl⟩ | ⟨_, -, -, -, rfl⟩ | ⟨_, -, -, -, rfl⟩
  · exact ⟨by simp [hm], rfl, rfl⟩
  · exact ⟨rfl, rfl, rfl⟩
  · exact ⟨raised_bound_ne hm, raised_seen_ne hm, raised_window_ne hm⟩

/-- After the call the client has a bound: its old one or the acknowledgement,
whichever is larger. -/
theorem raiseLowerBound_bound (h : t.raiseLowerBound n a = some (t', fr)) :
    ∃ b, t'.replyLowerBound n = some b ∧ a ≤ b ∧ (b = a ∨ t.replyLowerBound n = some b) ∧
      ∀ lb, t.replyLowerBound n = some lb → lb ≤ b := by
  rcases raiseLowerBound_cases h with ⟨hb, -, rfl⟩ | ⟨lb, hb, hle, -, rfl⟩ | ⟨lb, hb, hlt, -, rfl⟩
  · exact ⟨a, by simp, le_rfl, .inl rfl, by simp [hb]⟩
  · exact ⟨lb, hb, hle, .inr hb, by simp [hb]⟩
  · exact ⟨a, raised_bound_self, le_rfl, .inl rfl, by simp [hb, le_of_lt hlt]⟩

theorem raiseLowerBound_below (h : t.raiseLowerBound n a = some (t', fr)) {m y : UInt32}
    (hy : t.Below m y) : t'.Below m y := by
  obtain ⟨lb, hlb, hlt⟩ := hy
  by_cases hm : m = n
  · subst hm
    obtain ⟨b, hb, -, -, hle⟩ := raiseLowerBound_bound h
    exact ⟨b, hb, lt_of_lt_of_le hlt (hle lb hlb)⟩
  · exact ⟨lb, by rw [(raiseLowerBound_ne h hm).1]; exact hlb, hlt⟩

/-- A seen xid is cut only when it falls below the new bound. -/
theorem raiseLowerBound_seen (h : t.raiseLowerBound n a = some (t', fr)) {m y : UInt32}
    (hy : y ∈ t.seen m) : y ∈ t'.seen m ∨ t'.Below m y := by
  by_cases hm : m = n
  · subst hm
    rcases raiseLowerBound_cases h with ⟨-, -, rfl⟩ | ⟨_, -, -, -, rfl⟩ | ⟨_, -, -, -, rfl⟩
    · exact .inl hy
    · exact .inl hy
    · rcases mem_cutSet_or_lt hy with hc | hlt
      · exact .inl (by rw [raised_seen_self]; exact hc)
      · exact .inr ⟨a, raised_bound_self, hlt⟩
  · exact .inl (by rw [(raiseLowerBound_ne h hm).2.1]; exact hy)

theorem mem_seen_of_raiseLowerBound (h : t.raiseLowerBound n a = some (t', fr)) {m y : UInt32}
    (hy : y ∈ t'.seen m) : y ∈ t.seen m := by
  by_cases hm : m = n
  · subst hm
    rcases raiseLowerBound_cases h with ⟨-, -, rfl⟩ | ⟨_, -, -, -, rfl⟩ | ⟨_, -, -, -, rfl⟩
    · exact hy
    · exact hy
    · exact mem_cutSet (raised_seen_self (t := t) ▸ hy)
  · rw [(raiseLowerBound_ne h hm).2.1] at hy
    exact hy

end Raise

section Insert

variable {t : ReplyTables} {n x : UInt32}

@[simp] theorem insertSeen_window (m : UInt32) : (t.insertSeen n x).1.window m = t.window m := by
  unfold insertSeen
  split
  · rfl
  · split <;> rfl

@[simp] theorem insertSeen_bound : (t.insertSeen n x).1.replyLowerBound = t.replyLowerBound := by
  unfold insertSeen
  split
  · rfl
  · split <;> rfl

@[simp] theorem insertSeen_findReply (m y : UInt32) :
    (t.insertSeen n x).1.findReply m y = t.findReply m y := by
  unfold insertSeen
  split
  · rfl
  · split <;> rfl

@[simp] theorem insertSeen_old : (t.insertSeen n x).2 = decide (x ∈ t.seen n) := by
  unfold insertSeen seen
  cases hs : t.replySet n with
  | none => simp
  | some s => by_cases hx : x ∈ s <;> simp [hx]

@[simp] theorem insertSeen_seen_self : (t.insertSeen n x).1.seen n = insert x (t.seen n) := by
  unfold insertSeen seen
  cases hs : t.replySet n with
  | none => simp
  | some s => by_cases hx : x ∈ s <;> simp [hx, hs]

theorem insertSeen_seen_ne {m : UInt32} (h : m ≠ n) :
    (t.insertSeen n x).1.seen m = t.seen m := by
  unfold insertSeen seen
  cases hs : t.replySet n with
  | none => simp [h]
  | some s => by_cases hx : x ∈ s <;> simp [hx, h]

theorem mem_seen_insertSeen {m y : UInt32} (h : y ∈ t.seen m) :
    y ∈ (t.insertSeen n x).1.seen m := by
  by_cases hm : m = n
  · subst hm
    rw [insertSeen_seen_self]
    exact Finset.mem_insert_of_mem h
  · rw [insertSeen_seen_ne hm]
    exact h

@[simp] theorem insertSeen_below {m y : UInt32} :
    (t.insertSeen n x).1.Below m y ↔ t.Below m y := by
  unfold Below
  rw [insertSeen_bound]

end Insert

/-- A call of `checkduplicate_and_update`, in terms of the tables after the
bound was raised. -/
theorem checkduplicateAndUpdate_inv {t : ReplyTables} {n x a : UInt32} {r : CheckResult}
    (h : t.checkduplicateAndUpdate n x a = some r) :
    ∃ t₁, t.raiseLowerBound n a = some (t₁, r.freed) ∧
      r.tables = (t₁.insertSeen n x).1 ∧ r.reply = t₁.findReply n x ∧
      r.verdict =
        verdict (t₁.findReply n x) (decide (x ∈ t₁.seen n)) (t₁.atOrBelowBound n x) := by
  unfold checkduplicateAndUpdate at h
  cases hr : t.raiseLowerBound n a with
  | none => simp [hr] at h
  | some p =>
      obtain ⟨t₁, fr⟩ := p
      simp only [hr, Option.map_some, Option.some.injEq] at h
      subst h
      refine ⟨t₁, rfl, rfl, by simp, ?_⟩
      simp [atOrBelowBound]

theorem isSome_of_verdict_done {reply : Option ReplyT} {old below : Bool}
    (h : verdict reply old below = .done) : reply.isSome = true := by
  unfold verdict at h
  cases reply <;> cases old <;> cases below <;> simp_all

/-- `DONE` comes with the remembered reply. -/
theorem reply_of_done {t : ReplyTables} {n x a : UInt32} {r : CheckResult}
    (h : t.checkduplicateAndUpdate n x a = some r) (hv : r.verdict = .done) :
    ∃ e, r.reply = some e := by
  obtain ⟨t₁, -, -, hrep, hverd⟩ := checkduplicateAndUpdate_inv h
  rw [hrep]
  exact Option.isSome_iff_exists.mp (isSome_of_verdict_done (hverd ▸ hv))

/-! ## At most once -/

section Remembers

variable {t : ReplyTables} {n x a : UInt32} {r : CheckResult}

/-- A submitted xid is remembered. -/
theorem remembers_of_check (h : t.checkduplicateAndUpdate n x a = some r) :
    r.tables.Remembers n x := by
  obtain ⟨t₁, -, ht, -, -⟩ := checkduplicateAndUpdate_inv h
  rw [ht]
  exact .inl (by simp)

/-- What is remembered stays remembered, whatever is submitted later. -/
theorem Remembers.check (h : t.checkduplicateAndUpdate n x a = some r) {m y : UInt32}
    (hy : t.Remembers m y) : r.tables.Remembers m y := by
  obtain ⟨t₁, hr, ht, -, -⟩ := checkduplicateAndUpdate_inv h
  rw [ht]
  rcases hy with hs | hb
  · rcases raiseLowerBound_seen hr hs with hs' | hb'
    · exact .inl (mem_seen_insertSeen hs')
    · exact .inr (insertSeen_below.mpr hb')
  · exact .inr (insertSeen_below.mpr (raiseLowerBound_below hr hb))

theorem verdict_eq_new {reply : Option ReplyT} {old below : Bool}
    (h : verdict reply old below = .new) : reply = none ∧ old = false ∧ below = false := by
  unfold verdict at h
  cases reply <;> cases old <;> cases below <;> simp_all

/-- `NEW` is answered only for an xid that is not remembered. -/
theorem not_remembers_of_new (h : t.checkduplicateAndUpdate n x a = some r)
    (hv : r.verdict = .new) : ¬ t.Remembers n x := by
  obtain ⟨t₁, hr, -, -, hverd⟩ := checkduplicateAndUpdate_inv h
  obtain ⟨-, hold, hbelow⟩ := verdict_eq_new (hverd ▸ hv)
  obtain ⟨b, hb, -, -, -⟩ := raiseLowerBound_bound hr
  have hbx : b < x := by simpa [atOrBelowBound, hb] using hbelow
  have hnb : ¬ t₁.Below n x := by
    rintro ⟨lb, hlb, hlt⟩
    rw [hb] at hlb
    cases hlb
    exact absurd hbx (not_lt_of_gt hlt)
  rintro (hs | hb')
  · rcases raiseLowerBound_seen hr hs with hs' | hb'
    · exact absurd hs' (by simpa using hold)
    · exact hnb hb'
  · exact hnb (raiseLowerBound_below hr hb')

theorem Remembers.addReply {t' : ReplyTables} {b : Ptr} {sz : Int}
    (h : t.addReply n x b sz = some t') {m y : UInt32} (hy : t.Remembers m y) :
    t'.Remembers m y := by
  unfold ReplyTables.addReply at h
  cases hw : t.replyWindow n with
  | none => simp [hw] at h
  | some w =>
      simp only [hw, Option.map_eq_some_iff] at h
      obtain ⟨w', -, rfl⟩ := h
      exact hy

theorem Remembers.createWindow {m y : UInt32} (hy : t.Remembers m y) :
    (t.createWindow n).Remembers m y := by
  unfold ReplyTables.createWindow
  split
  · exact hy
  · exact hy

end Remembers

end ReplyTables

end RpcLock.Rpcs
