import RpcLock.Rpcs.ReplyLedger
import RpcLock.Rpcs.ReplyCache

/-!
# What an acknowledgement removes

`checkduplicate_and_update` prunes two structures by two rules.  When the bound
of a client rises to `a`, the window loses the entries below `a`.  The seen set
loses the xids below `a` only if `a` is itself a member, and in either case the
submitted xid is put in, also when the verdict is `FORGOTTEN`.

Two properties fail for that reason, and both are settled here with their exact
condition.  `Forgets`: nothing at or below the acknowledgement is remembered
after the call.  `Settled`: a repeated request is answered `INPROGRESS` only
while its handler runs.
-/

namespace RpcLock.Rpcs

namespace ReplyTables

variable {t : ReplyTables} {n x a : UInt32} {r : CheckResult}

/-! ## The seen set after a check -/

/-- A seen xid is cut when the bound rises above it to a seen xid. -/
theorem mem_seen_raise {t₁ : ReplyTables} {fr : List Ptr}
    (h : t.raiseLowerBound n a = some (t₁, fr)) {y : UInt32} :
    y ∈ t₁.seen n ↔ y ∈ t.seen n ∧ (t.rises n a = true → a ∈ t.seen n → a ≤ y) := by
  rcases raiseLowerBound_cases h with ⟨hb, -, rfl⟩ | ⟨lb, hb, hle, -, rfl⟩ | ⟨lb, hb, hlt, -, rfl⟩
  · simp [rises, hb, seen]
  · simp [rises, hb, not_lt_of_ge hle]
  · have ha : 0 < a := lt_of_le_of_lt UInt32.zero_le hlt
    rw [raised_seen_self, cutSet]
    by_cases hmem : a ∈ t.seen n
    · simp [rises, hb, hlt, ha, hmem]
    · simp [hmem]

/-- The submitted xid is always seen afterwards. -/
theorem mem_seen_check (h : t.checkduplicateAndUpdate n x a = some r) {y : UInt32} :
    y ∈ r.tables.seen n ↔
      y = x ∨ y ∈ t.seen n ∧ (t.rises n a = true → a ∈ t.seen n → a ≤ y) := by
  obtain ⟨t₁, hr, ht, -, -⟩ := checkduplicateAndUpdate_inv h
  rw [ht, insertSeen_seen_self, Finset.mem_insert, mem_seen_raise hr]

theorem seen_check_ne (h : t.checkduplicateAndUpdate n x a = some r) {m : UInt32} (hm : m ≠ n) :
    r.tables.seen m = t.seen m := by
  obtain ⟨t₁, hr, ht, -, -⟩ := checkduplicateAndUpdate_inv h
  rw [ht, insertSeen_seen_ne hm, (raiseLowerBound_ne hr hm).2.1]

/-- The bound after the check is the larger of the old one and the
acknowledgement. -/
theorem atOrBelow_check (h : t.checkduplicateAndUpdate n x a = some r) {y : UInt32} :
    r.tables.AtOrBelow n y ↔ y ≤ a ∨ t.AtOrBelow n y := by
  obtain ⟨t₁, hr, ht, -, -⟩ := checkduplicateAndUpdate_inv h
  obtain ⟨b, hb, hab, hor, hle⟩ := raiseLowerBound_bound hr
  unfold AtOrBelow
  rw [ht, insertSeen_bound]
  constructor
  · rintro ⟨lb, hlb, hy⟩
    rw [hb] at hlb
    cases hlb
    rcases hor with rfl | hold
    · exact .inl hy
    · exact .inr ⟨b, hold, hy⟩
  · rintro (hy | ⟨lb, hlb, hy⟩)
    · exact ⟨b, hb, le_trans hy hab⟩
    · exact ⟨b, hb, le_trans hy (hle lb hlb)⟩

/-- `INPROGRESS` means that the xid survived in the seen set and has no entry. -/
theorem inprogress_iff (h : t.checkduplicateAndUpdate n x a = some r) :
    r.verdict = .inprogress ↔
      (x ∈ t.seen n ∧ (t.rises n a = true → a ∈ t.seen n → a ≤ x)) ∧
        ∀ e ∈ r.tables.window n, e.xid ≠ x := by
  obtain ⟨t₁, hr, ht, hrep, hv⟩ := checkduplicateAndUpdate_inv h
  rw [← mem_seen_raise hr]
  cases hf : t₁.findReply n x with
  | some e =>
      obtain ⟨he, hx⟩ := reply_check h (hrep.trans hf)
      rw [hv, hf]
      simp only [verdict, Option.isSome_some, if_true, reduceCtorEq, false_iff, not_and]
      exact fun _ hne => hne e he hx
  | none =>
      have hnone : ∀ e ∈ r.tables.window n, e.xid ≠ x := by
        rw [ht, insertSeen_window]
        exact findReply_none hf
      rw [hv, hf, and_iff_left hnone]
      by_cases hs : x ∈ t₁.seen n
      · simp [verdict, hs]
      · cases hb : t₁.atOrBelowBound n x <;> simp [verdict, hs]

/-- `NEW` is answered above the bound only. -/
theorem not_atOrBelow_of_new (h : t.checkduplicateAndUpdate n x a = some r)
    (hv : r.verdict = .new) : ¬ r.tables.AtOrBelow n x := by
  obtain ⟨t₁, -, ht, -, hverd⟩ := checkduplicateAndUpdate_inv h
  obtain ⟨-, -, hbelow⟩ := verdict_eq_new (hverd ▸ hv)
  unfold AtOrBelow
  rw [ht, insertSeen_bound]
  rintro ⟨lb, hlb, hx⟩
  simp [atOrBelowBound, hlb, hx] at hbelow

/-! ## Forgetting what is acknowledged -/

/-- Nothing at or below `a` is remembered, apart from `x`. -/
def Forgets (t : ReplyTables) (n x a : UInt32) : Prop :=
  (∀ e ∈ t.window n, e.xid ≤ a → e.xid = x) ∧ ∀ y ∈ t.seen n, y ≤ a → y = x

instance (t : ReplyTables) (n x a : UInt32) : Decidable (t.Forgets n x a) :=
  inferInstanceAs (Decidable (_ ∧ _))

/-- A rising bound leaves `a` itself in both structures, and the seen set whole
unless `a` is in it.  A bound that does not rise removes nothing. -/
def NothingStays (t : ReplyTables) (n x a : UInt32) : Prop :=
  if t.rises n a then
    (∀ e ∈ t.window n, e.xid = a → a = x) ∧
      (a = x ∧ a ∈ t.seen n ∨ ∀ y ∈ t.seen n, y ≤ a → y = x)
  else t.Forgets n x a

theorem forgets_check (hwf : t.WF) (h : t.checkduplicateAndUpdate n x a = some r) :
    r.tables.Forgets n x a ↔ t.NothingStays n x a := by
  unfold NothingStays
  cases hrise : t.rises n a with
  | false =>
      simp only [Bool.false_eq_true, if_false, Forgets, mem_window_check hwf h, mem_seen_check h,
        hrise, false_implies, implies_true, and_true]
      exact and_congr_right fun _ => ⟨fun hs y hy => hs y (.inr hy), fun hs y hy hle =>
        hy.elim id fun hy => hs y hy hle⟩
  | true =>
      simp only [if_true, Forgets, mem_window_check hwf h, mem_seen_check h, hrise,
        forall_const]
      refine and_congr ⟨fun hw e he hx => ?_, fun hw e he hle => ?_⟩ ?_
      · exact hx ▸ hw e ⟨he, hx ▸ le_rfl⟩ (hx ▸ le_rfl)
      · have hx : e.xid = a := le_antisymm hle he.2
        rw [hx]
        exact hw e he.1 hx
      · by_cases ha : a ∈ t.seen n
        · -- the xids below `a` are cut, and `a` stays
          constructor
          · intro hs
            exact .inl ⟨hs a (.inr ⟨ha, fun _ => le_rfl⟩) le_rfl, ha⟩
          · rintro (⟨rfl, -⟩ | hs) y hy hle
            · exact hy.elim id fun hy => le_antisymm hle (hy.2 ha)
            · exact hy.elim id fun hy => hs y hy.1 hle
        · constructor
          · exact fun hs => .inr fun y hy hle => hs y (.inr ⟨hy, fun h => absurd h ha⟩) hle
          · rintro (⟨-, h⟩ | hs) y hy hle
            · exact absurd h ha
            · exact hy.elim id fun hy => hs y hy.1 hle

end ReplyTables

/-- After a call for a known client nothing acknowledged is remembered exactly
when `NothingStays` held before the call: in every state that calls of
`dispatch` lead to, and in every state of a server instance. -/
theorem forgets_acknowledged_iff (n x a : UInt32) :
    (∀ s, ledgerMachine.Reachable s → (s.tables.replyLowerBound n).isSome →
      ∀ r, s.tables.checkduplicateAndUpdate n x a = some r →
      (r.tables.Forgets n x a ↔ s.tables.NothingStays n x a)) ∧
    (∀ cfg s, (serverMachine cfg).Reachable s → (s.tables.replyLowerBound n).isSome →
      ∀ r, s.tables.checkduplicateAndUpdate n x a = some r →
      (r.tables.Forgets n x a ↔ s.tables.NothingStays n x a)) :=
  ⟨fun _ h _ _ hr => ReplyTables.forgets_check (Ledger.inv_of_reachable h).wf hr,
    fun _ _ h _ _ hr => ReplyTables.forgets_check (Server.cache_of_reachable h).2.wf hr⟩

/-- Client 7 had two calls answered, and acknowledges the second. -/
def twoAnswered : List FilterCall :=
  [.createWindow 7, .check 7 1 0, .addReply 7 1 10 16, .check 7 2 0, .addReply 7 2 20 16]

/-- The reply and the xid the client acknowledged are still remembered. -/
theorem remembers_acknowledged : ∃ s, ledgerMachine.Reachable s ∧
    (s.tables.replyLowerBound 7).isSome ∧
    ∃ r, s.tables.checkduplicateAndUpdate 7 3 2 = some r ∧ ¬ r.tables.Forgets 7 3 2 := by
  obtain ⟨s, hs, hp⟩ := @Machine.exists_reachable_of_run _ _ ledgerMachine
    (fun s => (s.tables.replyLowerBound 7).isSome &&
      (s.tables.checkduplicateAndUpdate 7 3 2).any fun r : ReplyTables.CheckResult =>
        !decide (r.tables.Forgets 7 3 2))
    twoAnswered (by decide)
  obtain ⟨hknown, hp⟩ := Bool.and_eq_true_iff.mp hp
  obtain ⟨r, hr, hf⟩ := (Option.any_eq_true _ _).mp hp
  exact ⟨s, hs, hknown, r, hr, by simpa using hf⟩

namespace Ledger

open ReplyTables

variable {s s' : Ledger} {n x a : UInt32}

/-! ## `INPROGRESS` -/

/-- A repeated request that acknowledges nothing new is answered `INPROGRESS`
only while its handler runs. -/
def Settled (s : Ledger) : Prop :=
  ∀ n x r, s.tables.checkduplicateAndUpdate n x 0 = some r → r.verdict = .inprogress →
    (n, x) ∈ s.filter.pending

/-- Every seen xid is running, or its reply is held. -/
def SeenHeld (s : Ledger) : Prop :=
  ∀ n, ∀ x ∈ s.tables.seen n, (n, x) ∈ s.filter.pending ∨ ∃ e ∈ s.tables.window n, e.xid = x

/-- An xid that is not above the bound after the call is still running, or its
reply stays in the window. -/
def HeldAtBound (s : Ledger) (n x a : UInt32) : Prop :=
  x ≤ a ∨ s.tables.AtOrBelow n x → (n, x) ∈ s.filter.pending ∨
    ∃ e ∈ s.tables.window n, e.xid = x ∧ (s.tables.rises n a = true → a ≤ x)

/-- A bound that rises rises to a seen xid, or every seen xid below it is still
running. -/
def CutsSeen (s : Ledger) (n a : UInt32) : Prop :=
  s.tables.rises n a = true →
    a ∈ s.tables.seen n ∨ ∀ y ∈ s.tables.seen n, y < a → (n, y) ∈ s.filter.pending

/-- A check that leaves no xid seen without a running handler or a reply. -/
def Clean (s : Ledger) : FilterCall → Prop
  | .check n x a => s.HeldAtBound n x a ∧ s.CutsSeen n a
  | _ => True

instance (t : ReplyTables) (n x : UInt32) : Decidable (t.AtOrBelow n x) :=
  decidable_of_iff ((t.replyLowerBound n).any (fun lb => decide (x ≤ lb)) = true) (by
    unfold AtOrBelow
    cases t.replyLowerBound n <;> simp)

instance (s : Ledger) (n x a : UInt32) : Decidable (s.HeldAtBound n x a) :=
  inferInstanceAs (Decidable (_ → _))

instance (s : Ledger) (n a : UInt32) : Decidable (s.CutsSeen n a) :=
  have : ∀ y, Decidable ((n, y) ∈ s.filter.pending) := fun y =>
    decidable_of_iff (∃ p ∈ s.filter.pending, p = (n, y)) exists_eq_right
  have : Decidable (∀ y ∈ s.tables.seen n, y < a → (n, y) ∈ s.filter.pending) :=
    @Finset.decidableDforallFinset _ _ _ fun _ _ => inferInstance
  inferInstanceAs (Decidable (_ → _ ∨ _))

instance (s : Ledger) (c : FilterCall) : Decidable (s.Clean c) :=
  match c with
  | .check n x a => inferInstanceAs (Decidable (s.HeldAtBound n x a ∧ s.CutsSeen n a))
  | .createWindow _ | .addReply _ _ _ _ => .isTrue trivial

/-- Zero raises no bound. -/
theorem rises_zero {t : ReplyTables} : t.rises n 0 = false := by
  unfold rises
  cases t.replyLowerBound n <;> simp

theorem exists_check_zero (t : ReplyTables) (n x : UInt32) :
    ∃ r, t.checkduplicateAndUpdate n x 0 = some r := by
  unfold checkduplicateAndUpdate raiseLowerBound
  cases t.replyLowerBound n with
  | none => exact ⟨_, rfl⟩
  | some lb =>
      simp only [if_neg (not_lt_of_ge (@UInt32.zero_le lb))]
      exact ⟨_, rfl⟩

theorem settled_iff (hinv : Inv s) : s.Settled ↔ s.SeenHeld := by
  constructor
  · intro hs n x hx
    obtain ⟨r, hr⟩ := exists_check_zero s.tables n x
    by_cases he : ∃ e ∈ s.tables.window n, e.xid = x
    · exact .inr he
    · refine .inl (hs n x r hr ((inprogress_iff hr).mpr ⟨⟨hx, by simp [rises_zero]⟩, ?_⟩))
      intro e he' hex
      exact he ⟨e, ((mem_window_check hinv.wf hr).mp he').1, hex⟩
  · intro hs n x r hr hv
    obtain ⟨⟨hx, -⟩, hnone⟩ := (inprogress_iff hr).mp hv
    rcases hs n x hx with hp | ⟨e, he, hex⟩
    · exact hp
    · exact absurd hex (hnone e ((mem_window_check hinv.wf hr).mpr ⟨he, by simp [rises_zero]⟩))

/-- With `SeenHeld`, a check whose bound rises cleanly answers `INPROGRESS` only
for a running handler. -/
theorem pending_of_inprogress (hinv : Inv s) (hs : s.SeenHeld) {r : CheckResult}
    (hr : s.tables.checkduplicateAndUpdate n x a = some r) (hcut : s.CutsSeen n a)
    (hv : r.verdict = .inprogress) : (n, x) ∈ s.filter.pending := by
  obtain ⟨⟨hx, hsurv⟩, hnone⟩ := (inprogress_iff hr).mp hv
  rcases hs n x hx with hp | ⟨e, he, hex⟩
  · exact hp
  · by_contra hp
    refine hnone e ((mem_window_check hinv.wf hr).mpr ⟨he, fun _ hrise => ?_⟩) hex
    by_contra hlt
    rw [hex, not_le] at hlt
    rcases hcut hrise with ha | hrun
    · exact absurd (hsurv hrise ha) (not_le_of_gt hlt)
    · exact hp (hrun x hx hlt)

section Steps

variable {f : Filter}

theorem seenHeld_check (hinv : Inv s) (hs : s.SeenHeld) (hf : s.filter.next (.check n x a) = some f)
    (ev : List Event) : SeenHeld ⟨f, ev⟩ ↔ s.Clean (.check n x a) := by
  obtain ⟨r, hr, ht, hp, -⟩ := filter_check_inv hf
  have ht : (Ledger.mk f ev).tables = r.tables := ht
  have hmono : ∀ p, p ∈ s.filter.pending → p ∈ f.pending := by
    intro p hm
    rw [hp]
    split
    · exact List.mem_cons_of_mem _ hm
    · exact hm
  have hback : ∀ p, r.verdict ≠ .new ∨ p ≠ (n, x) → p ∈ f.pending → p ∈ s.filter.pending := by
    intro p hne hm
    rw [hp] at hm
    split at hm
    · next hv => exact (List.mem_cons.mp hm).resolve_left (hne.resolve_left (not_not.mpr hv))
    · exact hm
  constructor
  · intro hs'
    refine ⟨fun hle => ?_, fun hrise => ?_⟩
    · have hbelow := (atOrBelow_check hr).mpr hle
      have hnew : r.verdict ≠ .new := fun hv => not_atOrBelow_of_new hr hv hbelow
      rcases hs' n x (ht ▸ (mem_seen_check hr).mpr (.inl rfl)) with hm | ⟨e, he, hex⟩
      · exact .inl (hback _ (.inl hnew) hm)
      · obtain ⟨he, hstay⟩ := (mem_window_check hinv.wf hr).mp (ht ▸ he)
        exact .inr ⟨e, he, hex, fun hrise => hex ▸ hstay rfl hrise⟩
    · by_cases ha : a ∈ s.tables.seen n
      · exact .inl ha
      · refine .inr fun y hy hlt => ?_
        -- nothing is cut, so `y` stays seen while its entry leaves
        have hseen : y ∈ (Ledger.mk f ev).tables.seen n :=
          ht ▸ (mem_seen_check hr).mpr (.inr ⟨hy, fun _ h => absurd h ha⟩)
        rcases hs' n y hseen with hm | ⟨e, he, hex⟩
        · refine hback _ ?_ hm
          by_cases hv : r.verdict = .new
          · right
            rintro ⟨⟩
            exact not_remembers_of_new hr hv (.inl hy)
          · exact .inl hv
        · have hstay := ((mem_window_check hinv.wf hr).mp (ht ▸ he)).2 rfl hrise
          exact absurd (hex ▸ hstay) (not_le_of_gt hlt)
  · rintro ⟨hheld, hcut⟩ m y hy
    rw [ht] at hy ⊢
    show (m, y) ∈ f.pending ∨ ∃ e ∈ r.tables.window m, e.xid = y
    by_cases hm : m = n
    · subst hm
      -- an old xid that survives is running, or its entry survives too
      have hold : y ∈ s.tables.seen m →
          (s.tables.rises m a = true → a ∈ s.tables.seen m → a ≤ y) →
          (m, y) ∈ f.pending ∨ ∃ e ∈ r.tables.window m, e.xid = y := by
        intro hseen hsurv
        rcases hs m y hseen with hpend | ⟨e, he, hex⟩
        · exact .inl (hmono _ hpend)
        · by_cases hstay : s.tables.rises m a = true → a ≤ y
          · exact .inr ⟨e, (mem_window_check hinv.wf hr).mpr ⟨he, fun _ h => hex ▸ hstay h⟩, hex⟩
          · obtain ⟨hrise, hlt⟩ := Classical.not_imp.mp hstay
            rcases hcut hrise with ha | hrun
            · exact absurd (hsurv hrise ha) hlt
            · exact .inl (hmono _ (hrun y hseen (not_le.mp hlt)))
      rcases (mem_seen_check hr).mp hy with rfl | ⟨hseen, hsurv⟩
      · rcases verdict_check hr with hv | ⟨hv, -⟩ | ⟨hv, e, -, he, hex⟩ | ⟨hv, hbelow⟩
        · exact .inl (by rw [hp, if_pos hv]; exact List.mem_cons_self)
        · exact hold ((inprogress_iff hr).mp hv).1.1 ((inprogress_iff hr).mp hv).1.2
        · exact .inr ⟨e, he, hex⟩
        · rcases hheld ((atOrBelow_check hr).mp hbelow) with hpend | ⟨e, he, hex, hstay⟩
          · exact .inl (hmono _ hpend)
          · exact .inr ⟨e, (mem_window_check hinv.wf hr).mpr ⟨he, fun _ h => hex ▸ hstay h⟩, hex⟩
      · exact hold hseen hsurv
    · rw [seen_check_ne hr hm] at hy
      rw [window_check_ne hr hm]
      exact (hs m y hy).imp_left (hmono _)

/-- A stored reply takes the place of the running handler. -/
theorem seenHeld_addReply (hinv : Inv s) (hs : s.SeenHeld) {b : Ptr} {sz : Int}
    (hf : s.filter.next (.addReply n x b sz) = some f) (ev : List Event) : SeenHeld ⟨f, ev⟩ := by
  obtain ⟨-, hadd, hp, -⟩ := filter_addReply_inv hf
  obtain ⟨-, hset, -, -, -⟩ := addReply_inv hadd
  intro m y hy
  have hy' : y ∈ s.tables.seen m := by
    unfold seen at hy ⊢
    rw [← hset]
    exact hy
  show (m, y) ∈ f.pending ∨ ∃ e ∈ f.tables.window m, e.xid = y
  rcases hs m y hy' with hpend | ⟨e, he, hex⟩
  · by_cases hmy : (m, y) = (n, x)
    · cases hmy
      exact .inr ⟨_, (mem_window_addReply hinv.wf hadd).mpr (.inr ⟨rfl, rfl⟩), rfl⟩
    · rw [hp]
      exact .inl ((List.mem_erase_of_ne hmy).mpr hpend)
  · exact .inr ⟨e, (mem_window_addReply hinv.wf hadd).mpr (.inl he), hex⟩

theorem seenHeld_next {c : FilterCall} (hinv : Inv s) (hs : s.SeenHeld)
    (hn : s.next c = some s') : s'.SeenHeld ↔ s.Clean c := by
  obtain ⟨-, f, hf, rfl⟩ := next_inv hn
  cases c with
  | createWindow n =>
      cases hf
      refine iff_of_true (fun m y hy => ?_) trivial
      show (m, y) ∈ s.filter.pending ∨ ∃ e ∈ (s.tables.createWindow n).window m, e.xid = y
      rw [createWindow_window]
      refine hs m y ?_
      change y ∈ (s.tables.createWindow n).seen m at hy
      unfold seen at hy ⊢
      rwa [createWindow_set] at hy
  | check n x a => exact seenHeld_check hinv hs hf _
  | addReply n x b sz => exact iff_of_true (seenHeld_addReply hinv hs hf _) trivial

end Steps

/-- As long as every check was clean, `INPROGRESS` is answered only for a handler
that is still running, and a repeated request goes wrong after the next call
exactly if that call is a check that is not clean. -/
theorem inprogress_sound (h : ledgerMachine.ReachedVia Clean s) :
    (∀ n x a r, s.tables.checkduplicateAndUpdate n x a = some r → s.CutsSeen n a →
      r.verdict = .inprogress → (n, x) ∈ s.filter.pending) ∧
    ∀ c s', s.next c = some s' → (s'.Settled ↔ s.Clean c) := by
  have hinv := inv_of_reachable h.reachable
  have hs : s.SeenHeld := by
    refine (h.invariant (P := fun s => Inv s ∧ s.SeenHeld) ⟨inv_init, ?_⟩ ?_).2
    · intro n x hx
      simp [ledgerMachine, Ledger.init, tables, Filter.init, ReplyTables.empty, seen] at hx
    · intro s s' c hs hc hn
      exact ⟨inv_next hs.1 hn, (seenHeld_next hs.1 hs.2 hn).mpr hc⟩
  refine ⟨fun n x a r hr hcut hv => pending_of_inprogress hinv hs hr hcut hv, fun c s' hn => ?_⟩
  rw [settled_iff (inv_next hinv hn), seenHeld_next hinv hs hn]

/-- The bound rises to 2 while request 1 is running, and a copy of request 1
arrives below the bound. -/
def runningBelow : List FilterCall :=
  [.createWindow 7, .check 7 1 0, .check 7 2 0, .addReply 7 2 20 16, .check 7 3 2, .check 7 1 0]

/-- The next copy of request 1 is answered `INPROGRESS`, and it is running. -/
theorem inprogress_sound_runningBelow : ∃ s r, ledgerMachine.ReachedVia Clean s ∧
    s.tables.checkduplicateAndUpdate 7 1 0 = some r ∧ r.verdict = .inprogress ∧
    (7, 1) ∈ s.filter.pending := by
  obtain ⟨s, hs, hp⟩ := @Machine.exists_reachedVia_of_run _ _ ledgerMachine Clean _
    (fun s => (s.tables.checkduplicateAndUpdate 7 1 0).any fun r : CheckResult =>
      decide (r.verdict = .inprogress)) runningBelow (by decide)
  obtain ⟨r, hr, hv⟩ := (Option.any_eq_true _ _).mp hp
  have hv := of_decide_eq_true hv
  exact ⟨s, r, hs, hr, hv, (inprogress_sound hs).1 7 1 0 r hr (by simp [CutsSeen, rises_zero]) hv⟩

/-- The client acknowledged the replies up to 3, and a late copy of request 2 was
answered `FORGOTTEN`. -/
def lateCopy : List FilterCall :=
  [.createWindow 7, .check 7 2 0, .addReply 7 2 20 16, .check 7 3 2, .addReply 7 3 30 16,
    .check 7 4 3, .check 7 2 0]

/-- The next copy is answered `INPROGRESS`, and no handler runs for it. -/
theorem inprogress_for_discarded : ∃ s r, ledgerMachine.Reachable s ∧
    (7, 2, .forgotten) ∈ s.filter.verdicts ∧
    s.tables.checkduplicateAndUpdate 7 2 0 = some r ∧ r.verdict = .inprogress ∧
    (7, 2) ∉ s.filter.pending := by
  obtain ⟨s, hs, hp⟩ := @Machine.exists_reachable_of_run _ _ ledgerMachine
    (fun s => decide ((7, 2, RpcState.forgotten) ∈ s.filter.verdicts ∧ (7, 2) ∉ s.filter.pending) &&
      (s.tables.checkduplicateAndUpdate 7 2 0).any fun r : CheckResult =>
        decide (r.verdict = .inprogress)) lateCopy (by decide)
  obtain ⟨hl, hp⟩ := Bool.and_eq_true_iff.mp hp
  obtain ⟨hforgotten, hpend⟩ := of_decide_eq_true hl
  obtain ⟨r, hr, hv⟩ := (Option.any_eq_true _ _).mp hp
  exact ⟨s, r, hs, hforgotten, hr, of_decide_eq_true hv, hpend⟩

end Ledger

end RpcLock.Rpcs
