import RpcLock.Rpcs.ReplyBuffers

/-!
# Checks that overtake a send

An activation that obtained or stored a saved reply sends it after it left
`reply_window_m_`.  A later request of the same client may raise the lower bound
above its xid in between, and the check then frees the buffer.

As long as no check does that, every saved reply in use is still an entry of the
window, and so what is sent answers the request it is sent for.
-/

namespace RpcLock.Rpcs

theorem Job.phase_of_shared {job : Job} {b : Ptr} (h : job.shared = some b) :
    ∃ sz, job.phase = .stored b sz ∨ job.phase = .sending b sz := by
  unfold Job.shared at h
  split at h
  · next hp =>
      split at h
      · cases h
        exact ⟨_, .inl hp⟩
      · cases h
  · next hp =>
      split at h
      · cases h
        exact ⟨_, .inr hp⟩
      · cases h
  · cases h

namespace Server

/-- The check of job `j` frees a buffer that another activation obtained or
stored and has not finished sending. -/
def FreesInUse (s : Server) (j : Nat) : Prop :=
  ∃ job r, s.jobs j = some job ∧ job.phase = .connSaved ∧ s.checkResult job.req = some r ∧
    ∃ b ∈ r.freed, ∃ k kob, k ≠ j ∧ s.jobs k = some kob ∧ kob.shared = some b

/-- The acknowledgement job `j` is about to check raises the lower bound of its
client above the xid of another activation that holds a saved reply. -/
def Overtakes (s : Server) (j : Nat) : Prop :=
  ∃ job lb, s.jobs j = some job ∧ job.phase = .connSaved ∧
    s.tables.replyLowerBound job.req.cltNonce = some lb ∧ lb < job.req.xidRep ∧
    ∃ k kob, k ≠ j ∧ s.jobs k = some kob ∧ kob.shared.isSome = true ∧
      kob.req.cltNonce = job.req.cltNonce ∧ kob.req.xid < job.req.xidRep

/-- No check overtakes another activation. -/
def NoOvertake (s : Server) : ServerAct → Prop
  | .check j => ¬ s.Overtakes j
  | _ => True

/-- Every saved reply in use is an entry of the window. -/
def SavedInUse (s : Server) : Prop :=
  ∀ k kob b sz, s.jobs k = some kob → kob.phase = .stored b sz ∨ kob.phase = .sending b sz →
    kob.shared = some b →
    ∃ e ∈ s.tables.window kob.req.cltNonce, e.xid = kob.req.xid ∧ e.buf = b ∧ e.sz = sz

theorem savedInUse_init : SavedInUse Server.init := by
  intro k kob b sz hk
  simp [Server.init] at hk

variable {cfg : ServerConfig} {s s' s₁ : Server} {a : ServerAct} {j : Nat} {job job' : Job}

/-! ## What a check frees -/

/-- A check frees exactly the entries below an acknowledgement that raises the
bound. -/
theorem mem_freed {t : ReplyTables} (hwf : t.WF) {n x a : UInt32} {r : ReplyTables.CheckResult}
    (hr : t.checkduplicateAndUpdate n x a = some r) {b : Ptr} :
    b ∈ r.freed ↔ ∃ lb, t.replyLowerBound n = some lb ∧ lb < a ∧
      ∃ e ∈ t.window n, e.xid < a ∧ e.buf = b := by
  obtain ⟨t₁, hraise, -, -, -⟩ := ReplyTables.checkduplicateAndUpdate_inv hr
  rcases ReplyTables.raiseLowerBound_cases hraise with ⟨hb, hfr, -⟩ | ⟨lb, hb, hle, hfr, -⟩ |
    ⟨lb, hb, hlt, hfr, -⟩
  · simp [hfr, hb]
  · simp [hfr, hb, not_lt_of_ge hle]
  · rw [hfr, List.mem_map]
    simp only [ReplyTables.mem_purged (hwf.sorted n)]
    constructor
    · rintro ⟨e, ⟨he, hx⟩, rfl⟩
      exact ⟨lb, hb, hlt, e, he, hx, rfl⟩
    · rintro ⟨-, -, -, e, he, hx, rfl⟩
      exact ⟨e, ⟨he, hx⟩, rfl⟩

/-- While the saved replies in use are entries, freeing one and overtaking its
activation are the same. -/
theorem freesInUse_iff (hc : Cache s) (hb : Buffers cfg s) (hs : SavedInUse s) :
    s.FreesInUse j ↔ s.Overtakes j := by
  constructor
  · rintro ⟨job, r, hj, hp, hr, b, hfr, k, kob, hkj, hk, hsh⟩
    obtain ⟨lb, hlb, hlt, e, he, hxa, hbuf⟩ := (mem_freed hc.wf hr).mp hfr
    obtain ⟨sz, hphase⟩ := Job.phase_of_shared hsh
    obtain ⟨e', he', hx', hbuf', -⟩ := hs k kob b sz hk hphase hsh
    -- the two entries hold the same block, so they are the same entry
    have howner := hb.owned.unique (.entry job.req.cltNonce e.xid)
      (.entry kob.req.cltNonce kob.req.xid) b ⟨e, he, rfl, hbuf⟩ ⟨e', he', hx', hbuf'⟩
    obtain ⟨hn, hx⟩ := BlockOwner.entry.inj howner
    exact ⟨job, lb, hj, hp, hlb, hlt, k, kob, hkj, hk, by simp [hsh], hn.symm, hx ▸ hxa⟩
  · rintro ⟨job, lb, hj, hp, hlb, hlt, k, kob, hkj, hk, hsome, hn, hx⟩
    obtain ⟨b, hsh⟩ := Option.isSome_iff_exists.mp hsome
    obtain ⟨sz, hphase⟩ := Job.phase_of_shared hsh
    obtain ⟨e, he, hex, hbuf, -⟩ := hs k kob b sz hk hphase hsh
    obtain ⟨t₁, fr, hraise⟩ := @ReplyTables.exists_raiseLowerBound s.tables job.req.cltNonce
      job.req.xidRep hc.wf ((hc.jobs j job hj).ready (.inr (.inl hp)))
    obtain ⟨r, hr⟩ : ∃ r, s.checkResult job.req = some r := by
      unfold checkResult ReplyTables.checkduplicateAndUpdate
      rw [hraise]
      exact ⟨_, rfl⟩
    exact ⟨job, r, hj, hp, hr, b,
      (mem_freed hc.wf hr).mpr ⟨lb, hlb, hlt, e, hn ▸ he, by rw [hex]; exact hx, hbuf⟩,
      k, kob, hkj, hk, hsh⟩

/-! ## Runs without overtaking -/

/-- A step of job `j` that keeps the entries of all saved replies in use. -/
theorem SavedInUse.step (h : SavedInUse s) (hjobs : s₁.jobs = s.jobs)
    (hwin : ∀ k kob, k ≠ j → s.jobs k = some kob → kob.shared.isSome = true →
      ∀ e ∈ s.tables.window kob.req.cltNonce, e.xid = kob.req.xid →
        e ∈ s₁.tables.window kob.req.cltNonce)
    (hself : ∀ b sz, job'.phase = .stored b sz ∨ job'.phase = .sending b sz →
      job'.shared = some b →
      ∃ e ∈ s₁.tables.window job'.req.cltNonce, e.xid = job'.req.xid ∧ e.buf = b ∧ e.sz = sz) :
    SavedInUse (s₁.setJob j job') := by
  intro k kob b sz hk hp hsh
  rcases setJob_jobs_cases hk with ⟨rfl, rfl⟩ | ⟨hne, hk⟩
  · exact hself b sz hp hsh
  · have hk' : s.jobs k = some kob := hjobs ▸ hk
    obtain ⟨e, he, hx, hbuf, hsz⟩ := h k kob b sz hk' hp hsh
    exact ⟨e, hwin k kob hne hk' (by simp [hsh]) e he hx, hx, hbuf, hsz⟩

/-- A check that does not overtake keeps the entries in use. -/
theorem SavedInUse.check (h : SavedInUse s) {r : ReplyTables.CheckResult}
    (hj : s.jobs j = some job) (hp : job.phase = .connSaved) (hno : ¬ s.Overtakes j)
    (hr : s.checkResult job.req = some r) (hjobs : s₁.jobs = s.jobs) (htab : s₁.tables = r.tables)
    (hself : ∀ b sz, job'.phase = .stored b sz ∨ job'.phase = .sending b sz →
      job'.shared = some b →
      ∃ e ∈ s₁.tables.window job'.req.cltNonce, e.xid = job'.req.xid ∧ e.buf = b ∧ e.sz = sz) :
    SavedInUse (s₁.setJob j job') := by
  refine h.step hjobs (fun k kob hkj hk hsome e he hx => ?_) hself
  obtain ⟨t₁, hraise, ht, -, -⟩ := ReplyTables.checkduplicateAndUpdate_inv hr
  rw [htab, ht, ReplyTables.insertSeen_window]
  by_cases hn : kob.req.cltNonce = job.req.cltNonce
  · rcases ReplyTables.raiseLowerBound_cases hraise with ⟨-, -, rfl⟩ | ⟨lb, -, -, -, rfl⟩ |
      ⟨lb, hb, hlt, -, rfl⟩
    · exact he
    · exact he
    · rw [hn] at he ⊢
      rw [ReplyTables.raised_window_self]
      rw [← ReplyTables.purged_append_kept job.req.xidRep (s.tables.window _),
        List.mem_append] at he
      refine he.resolve_left fun hpur => hno ?_
      exact ⟨job, lb, hj, hp, hb, hlt, k, kob, hkj, hk, hsome, hn,
        hx ▸ ReplyTables.lt_of_mem_purged hpur⟩
  · rw [(ReplyTables.raiseLowerBound_ne hraise hn).2.2]
    exact he

theorem savedInUse_next (hc : Cache s) (h : SavedInUse s)
    (hno : s.NoOvertake a) (hnext : s.next cfg a = some s') : SavedInUse s' := by
  -- a step that leaves the windows alone
  have hkeep : ∀ {s₁ : Server} {j : Nat} {job' : Job}, s₁.jobs = s.jobs →
      (∀ n, s₁.tables.window n = s.tables.window n) →
      (∀ b sz, job'.phase = .stored b sz ∨ job'.phase = .sending b sz → job'.shared = some b →
        ∃ e ∈ s₁.tables.window job'.req.cltNonce, e.xid = job'.req.xid ∧ e.buf = b ∧ e.sz = sz) →
      SavedInUse (s₁.setJob j job') := fun hjobs hwin hself =>
    h.step hjobs (fun k kob _ _ _ e he _ => by rw [hwin]; exact he) hself
  cases step_of_next hnext with
  | oldServer => exact hkeep rfl (fun _ => rfl) (by simp [Job.shared])
  | optOut => exact hkeep rfl (fun _ => rfl) (by simp)
  | receive => exact hkeep rfl (fun _ => rfl) (by simp)
  | createWindow => exact hkeep rfl (fun n => ReplyTables.createWindow_window n) (by simp)
  | saveConn => exact hkeep rfl (fun _ => rfl) (by simp)
  | checkNew hj hp hr _ => exact h.check hj hp hno hr rfl rfl (by simp)
  | checkInprogress hj hp hr _ => exact h.check hj hp hno hr rfl rfl (by simp)
  | @checkDone j job r e hj hp hr hv he =>
      refine h.check hj hp hno hr rfl rfl (fun b sz hb _ => ?_)
      simp only [reduceCtorEq, Phase.sending.injEq, false_or] at hb
      obtain ⟨rfl, rfl⟩ := hb
      obtain ⟨hmem, hx⟩ := ReplyTables.reply_check hr he
      exact ⟨e, hmem, hx, rfl, rfl⟩
  | checkForgotten hj hp hr _ => exact h.check hj hp hno hr rfl rfl (by simp [Job.shared])
  | runHandler => exact hkeep rfl (fun _ => rfl) (by simp)
  | handlerAbort =>
      intro k kob b sz
      exact hkeep rfl (fun _ => rfl) (by simp) k kob b sz
  | packReplyHeader => exact hkeep rfl (fun _ => rfl) (by simp)
  | @addReplyOptOut j job ret out hj hp hz =>
      obtain ⟨hnew, -⟩ := (hc.jobs j job hj).ran ret out (.inr hp)
      exact hkeep rfl (fun _ => rfl) (by simp [Job.shared, hz, hnew])
  | @addReply j job ret out t hj hp hn ht =>
      refine h.step rfl (fun k kob _ _ _ e he _ => ?_) (fun b sz hb _ => ?_)
      · exact (ReplyTables.mem_window_addReply hc.wf ht).mpr (.inl he)
      · simp only [Phase.stored.injEq, reduceCtorEq, or_false] at hb
        obtain ⟨rfl, rfl⟩ := hb
        exact ⟨_, (ReplyTables.mem_window_addReply hc.wf ht).mpr (.inr ⟨rfl, rfl⟩), rfl, rfl, rfl⟩
  | @keepConn j job dead b sz hj hp =>
      refine hkeep rfl (fun _ => rfl) (fun b' sz' hb hsh => ?_)
      simp only [reduceCtorEq, Phase.sending.injEq, false_or] at hb
      obtain ⟨rfl, rfl⟩ := hb
      exact h j job b sz hj (.inl hp) (by simpa [Job.shared, hp] using hsh)
  | @moveConn j job dead b sz c hj hp _ =>
      refine hkeep rfl (fun _ => rfl) (fun b' sz' hb hsh => ?_)
      simp only [reduceCtorEq, Phase.sending.injEq, false_or] at hb
      obtain ⟨rfl, rfl⟩ := hb
      exact h j job b sz hj (.inl hp) (by simpa [Job.shared, hp] using hsh)
  | send => exact hkeep rfl (fun _ => rfl) (by simp)
  | abort => exact h

/-! ## Runs with few activations -/

/-- The activations have numbers below `N`. -/
def JobsBelow (N : Nat) (s : Server) : Prop := ∀ k, N ≤ k → s.jobs k = none

/-- The step starts no activation with another number, and it is not a check whose
acknowledgement passes the xid of one that holds a saved reply. -/
def Quiet (N : Nat) (s : Server) : ServerAct → Bool
  | .receive j _ _ _ => decide (j < N)
  | .check j => (s.jobs j).all fun job => (List.range N).all fun k =>
      decide (k = j) || (s.jobs k).all fun kob => decide (kob.shared = none ∨
        kob.req.cltNonce ≠ job.req.cltNonce ∨ job.req.xidRep ≤ kob.req.xid)
  | _ => true

theorem JobsBelow.next {N : Nat} (h : JobsBelow N s) (hq : s.Quiet N a = true)
    (hn : s.next cfg a = some s') : JobsBelow N s' := by
  have hset : ∀ {s₁ : Server} {j : Nat} {job' : Job}, s₁.jobs = s.jobs → j < N →
      JobsBelow N (s₁.setJob j job') := by
    intro s₁ j job' hjobs hj k hk
    rw [setJob_jobs_ne _ _ (by omega), hjobs]
    exact h k hk
  have hlt : ∀ {j : Nat} {job : Job}, s.jobs j = some job → j < N := by
    intro j job hj
    by_contra hge
    rw [h j (not_lt.mp hge)] at hj
    cases hj
  cases step_of_next hn with
  | oldServer | optOut | receive => exact hset rfl (of_decide_eq_true hq)
  | createWindow hj _ | saveConn hj _ | checkNew hj _ _ _ | checkInprogress hj _ _ _
  | checkDone hj _ _ _ _ | checkForgotten hj _ _ _ | runHandler hj _ _ _
  | packReplyHeader hj _ | addReplyOptOut hj _ _ | addReply hj _ _ _ | keepConn hj _
  | moveConn hj _ _ | send hj _ => exact hset rfl (hlt hj)
  | @handlerAbort j job ret out hj _ _ _ =>
      have hran : JobsBelow N (s.setJob j { job with phase := .ran ret out }) := hset rfl (hlt hj)
      exact hran
  | abort => exact h

theorem jobsBelow_of_reachedVia {N : Nat}
    (h : (serverMachine cfg).ReachedVia (fun s a => s.Quiet N a = true) s) : JobsBelow N s :=
  h.invariant (P := JobsBelow N) (fun _ _ => rfl) fun _ _ _ hs hq hn => hs.next hq hn

theorem JobsBelow.noOvertake {N : Nat} (h : JobsBelow N s) (hq : s.Quiet N a = true) :
    s.NoOvertake a := by
  cases a with
  | check j =>
      rintro ⟨job, lb, hj, -, -, -, k, kob, hkj, hk, hsome, hn, hx⟩
      have hkN : k < N := by
        by_contra hge
        rw [h k (not_lt.mp hge)] at hk
        cases hk
      simp only [Quiet, hj, Option.all_some, List.all_eq_true, List.mem_range] at hq
      have := hq k hkN
      simp only [hk, hkj, decide_false, Bool.false_or, Option.all_some, decide_eq_true_eq] at this
      rcases this with h0 | h0 | h0
      · rw [h0] at hsome
        cases hsome
      · exact h0 hn
      · exact absurd hx (not_lt_of_ge h0)
  | _ => trivial

end Server

end RpcLock.Rpcs
