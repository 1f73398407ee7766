import RpcLock.Library.Ownership
import RpcLock.Rpcs.ReplyCache

/-!
# Who owns a reply buffer

Every block that is still needed has one owner: the activation whose `rep` it
is, or the window entry that remembers the reply.  `add_reply` passes the block
from the first to the second, and raising the bound frees the blocks of the
entries that leave.  This holds under arbitrary traffic, and so does what the
owned blocks hold.

What does not hold is that an activation about to send a saved reply still finds
its entry in the window.  `SavedInUse` says that it does.  A check destroys this
exactly when it *overtakes* another activation of its client: it raises the
bound above the xid of a reply not yet sent.
-/

namespace RpcLock.Rpcs

/-- The possible owners of a block. -/
inductive BlockOwner where
  /-- The local `marshall rep` of an activation. -/
  | job (j : Nat)
  /-- The entry of `xid` in `reply_window_[clt]`. -/
  | entry (clt xid : UInt32)
deriving DecidableEq

namespace Server

/-- Who owns which block. -/
def owns (s : Server) : BlockOwner → Ptr → Prop
  | .job j, p => ∃ job, s.jobs j = some job ∧ job.ownsRep = true ∧ job.rep = p
  | .entry n x, p => ∃ e ∈ s.tables.window n, e.xid = x ∧ e.buf = p

/-- The request is addressed to this instance, or to any. -/
def Addressed (cfg : ServerConfig) (req : Request) : Prop :=
  req.srvNonce = 0 ∨ req.srvNonce = cfg.nonce

/-- The PDU is the result of an execution for the request, and `add_reply` has
run. -/
def ResultOf (s : Server) (n x : UInt32) (r : Reply) : Prop :=
  ∃ e ∈ s.execs, ∃ job, s.jobs e.job = some job ∧ job.stored = true ∧ job.req = e.req ∧
    e.req.cltNonce = n ∧ e.req.xid = x ∧ 0 ≤ e.ret ∧ r = ⟨x, e.ret, e.out⟩

/-- The PDU answers the request. -/
inductive Answers (cfg : ServerConfig) (s : Server) (n x : UInt32) (r : Reply) : Prop where
  /-- The request is for another instance. -/
  | refused {j : Nat} {job : Job} : s.jobs j = some job → job.req.cltNonce = n →
      job.req.xid = x → ¬ Addressed cfg job.req → r = ⟨x, RpcConst.oldsrvFailure, []⟩ →
      Answers cfg s n x r
  /-- A copy of it was answered `FORGOTTEN`. -/
  | forgotten {j : Nat} {job : Job} : s.jobs j = some job → job.req.cltNonce = n →
      job.req.xid = x → job.verdict = some .forgotten →
      r = ⟨x, RpcConst.atmostonceFailure, []⟩ → Answers cfg s n x r
  | result : s.ResultOf n x r → Answers cfg s n x r

/-- What the block of an activation holds at its phase. -/
def Holds (cfg : ServerConfig) (s : Server) (job : Job) : Prop :=
  match job.phase with
  | .ran ret out => (s.aborted = false → 0 ≤ ret) ∧ (s.heap job.rep).pdu.payload = out
  | .packed ret out =>
      (s.aborted = false → 0 ≤ ret) ∧ (s.heap job.rep).pdu = ⟨job.req.xid, ret, out⟩
  -- a reply that is not shared is still in the block of `rep`
  | .stored b sz | .sending b sz => job.shared = none →
      b = job.rep ∧ job.ownsRep = true ∧ sz = (s.heap b).pdu.size ∧
        Answers cfg s job.req.cltNonce job.req.xid (s.heap b).pdu
  | _ => True

/-- Owned blocks are allocated, owned once, and hold what their owner put there. -/
structure Buffers (cfg : ServerConfig) (s : Server) : Prop where
  owned : Owned (fun p => (s.heap p).allocated = true) s.owns
  entry : ∀ n, ∀ e ∈ s.tables.window n,
    s.ResultOf n e.xid (s.heap e.buf).pdu ∧ e.sz = (s.heap e.buf).pdu.size
  holds : ∀ j job, s.jobs j = some job → s.Holds cfg job

variable {cfg : ServerConfig} {s s' s₁ : Server} {j : Nat} {job job' : Job}

theorem buffers_init : Buffers cfg Server.init where
  owned := .empty fun o p => by
    cases o <;> simp [owns, Server.init, ReplyTables.empty, ReplyTables.window]
  entry n e h := by simp [Server.init, ReplyTables.empty, ReplyTables.window] at h
  holds := by simp [Server.init]

section Answers

variable {n x : UInt32} {r : Reply}

theorem ResultOf.mono (h : s.ResultOf n x r) (hext : Extends s s') : s'.ResultOf n x r := by
  obtain ⟨e, he, job, hj, hst, hreq, hrest⟩ := h
  obtain ⟨job', hj', hev⟩ := hext.jobs _ _ hj
  exact ⟨e, hext.execs e he, job', hj', hev.stored hst, hev.req.trans hreq, hrest⟩

theorem Answers.mono (h : Answers cfg s n x r) (hext : Extends s s') : Answers cfg s' n x r := by
  cases h with
  | refused hj hn hx haddr hr =>
      obtain ⟨job', hj', hev⟩ := hext.jobs _ _ hj
      exact .refused hj' (hev.req ▸ hn) (hev.req ▸ hx) (hev.req ▸ haddr) hr
  | forgotten hj hn hx hv hr =>
      obtain ⟨job', hj', hev⟩ := hext.jobs _ _ hj
      exact .forgotten hj' (hev.req ▸ hn) (hev.req ▸ hx)
        ((hev.verdict (by simp [hv])).trans hv) hr
  | result h => exact .result (h.mono hext)

theorem Answers.xid (h : Answers cfg s n x r) : r.xid = x := by
  cases h with
  | refused _ _ _ _ hr => rw [hr]
  | forgotten _ _ _ _ hr => rw [hr]
  | result h =>
      obtain ⟨e, -, job, -, -, -, -, -, -, hr⟩ := h
      rw [hr]

/-- Only a result is not negative. -/
theorem Answers.of_nonneg (h : Answers cfg s n x r) (h0 : 0 ≤ r.ret) : s.ResultOf n x r := by
  cases h with
  | refused _ _ _ _ hr =>
      rw [hr] at h0
      simp [RpcConst.oldsrvFailure] at h0
  | forgotten _ _ _ _ hr =>
      rw [hr] at h0
      simp [RpcConst.atmostonceFailure] at h0
  | result h => exact h

end Answers

/-- A step that leaves the block of a job alone leaves what it holds alone. -/
theorem Holds.mono (h : s.Holds cfg job) (ha : s.aborted = false) (hext : Extends s s')
    (hheap : job.ownsRep = true → (s'.heap job.rep).pdu = (s.heap job.rep).pdu) :
    s'.Holds cfg job := by
  unfold Holds at h ⊢
  split at h
  · next hp => exact ⟨fun _ => h.1 ha, by rw [hheap (by simp [Job.ownsRep, hp])]; exact h.2⟩
  · next hp => exact ⟨fun _ => h.1 ha, by rw [hheap (by simp [Job.ownsRep, hp])]; exact h.2⟩
  · intro hsh
    obtain ⟨rfl, hown, hsz, hans⟩ := h hsh
    rw [hheap hown]
    exact ⟨rfl, hown, hsz, hans.mono hext⟩
  · intro hsh
    obtain ⟨rfl, hown, hsz, hans⟩ := h hsh
    rw [hheap hown]
    exact ⟨rfl, hown, hsz, hans.mono hext⟩
  · trivial

/-- The owners after a step of job `j`. -/
theorem owns_setJob (hjobs : s₁.jobs = s.jobs) {o : BlockOwner} {p : Ptr}
    (h : (s₁.setJob j job').owns o p) :
    o = .job j ∧ job'.ownsRep = true ∧ job'.rep = p ∨
    (∃ k, o = .job k ∧ k ≠ j ∧ s.owns o p) ∨ (∃ n x, o = .entry n x ∧ s₁.owns o p) := by
  cases o with
  | job k =>
      obtain ⟨kob, hk, hown, hp⟩ := h
      rcases setJob_jobs_cases hk with ⟨rfl, rfl⟩ | ⟨hne, hk⟩
      · exact .inl ⟨rfl, hown, hp⟩
      · exact .inr (.inl ⟨k, rfl, hne, kob, hjobs ▸ hk, hown, hp⟩)
  | entry n x => exact .inr (.inr ⟨n, x, rfl, h⟩)

/-- A step of job `j` that touches no block owned by another. -/
theorem Buffers.step (h : Buffers cfg s) (ha : s.aborted = false)
    (hext : Extends s (s₁.setJob j job')) (hjobs : s₁.jobs = s.jobs)
    (howned : Owned (fun p => (s₁.heap p).allocated = true) (s₁.setJob j job').owns)
    (hheap : ∀ o p, s.owns o p → o ≠ .job j → (s₁.heap p).pdu = (s.heap p).pdu)
    (hentry : ∀ n, ∀ e ∈ s₁.tables.window n, e ∈ s.tables.window n ∨
      (s₁.setJob j job').ResultOf n e.xid (s₁.heap e.buf).pdu ∧
        e.sz = (s₁.heap e.buf).pdu.size)
    (hholds : (s₁.setJob j job').Holds cfg job') : Buffers cfg (s₁.setJob j job') where
  owned := howned
  entry n e he := by
    rcases hentry n e he with hold | hnew
    · obtain ⟨hres, hsz⟩ := h.entry n e hold
      have hp : (s₁.heap e.buf).pdu = (s.heap e.buf).pdu :=
        hheap (.entry n e.xid) e.buf ⟨e, hold, rfl, rfl⟩ (by simp)
      rw [setJob_heap, hp]
      exact ⟨hres.mono hext, hsz⟩
    · exact hnew
  holds k kob hk := by
    rcases setJob_jobs_cases hk with ⟨rfl, rfl⟩ | ⟨hne, hk⟩
    · exact hholds
    · exact (h.holds k kob (hjobs ▸ hk)).mono ha hext fun hown =>
        hheap (.job k) kob.rep ⟨kob, hjobs ▸ hk, hown, rfl⟩ (by simpa using hne)

/-! ## The steps -/

/-- A new activation gets a block of its own. -/
theorem Buffers.fresh (h : Buffers cfg s) (ha : s.aborted = false)
    (hext : Extends s (s₁.setJob j job')) {p : Ptr} (hfree : (s.heap p).allocated = false)
    (hjobs : s₁.jobs = s.jobs) (htab : s₁.tables = s.tables)
    (halloc : ∀ q, (s₁.heap q).allocated = true ↔ (s.heap q).allocated = true ∨ q = p)
    (hpdu : ∀ q, q ≠ p → (s₁.heap q).pdu = (s.heap q).pdu) (hrep : job'.rep = p)
    (hholds : (s₁.setJob j job').Holds cfg job') : Buffers cfg (s₁.setJob j job') := by
  refine h.step ha hext hjobs ?_ ?_ (fun n e he => .inl (htab ▸ he)) hholds
  · have hnot : ¬ (s.heap p).allocated = true := by simp [hfree]
    refine h.owned.take hnot ((halloc p).mpr (.inr rfl)) (fun q hq => (halloc q).mpr (.inl hq))
      (fun o q ho => ?_ : ∀ o q, _ → s.owns o q ∨ o = BlockOwner.job j ∧ q = p)
    rcases owns_setJob hjobs ho with ⟨rfl, -, hq⟩ | ⟨k, rfl, -, hk⟩ | ⟨n, x, rfl, hn⟩
    · exact .inr ⟨rfl, hq ▸ hrep⟩
    · exact .inl hk
    · obtain ⟨e, he, hrest⟩ := hn
      exact .inl ⟨e, htab ▸ he, hrest⟩
  · intro o q ho _
    refine hpdu q ?_
    rintro rfl
    have hal : (s.heap q).allocated = true := h.owned.alloc o q ho
    simp [hfree] at hal

/-- A step of a job that allocates nothing, frees nothing and writes at most to
its own block. -/
theorem Buffers.keep (h : Buffers cfg s) (ha : s.aborted = false)
    (hext : Extends s (s₁.setJob j job')) (hj : s.jobs j = some job) (hjobs : s₁.jobs = s.jobs)
    (hwin : ∀ n, s₁.tables.window n = s.tables.window n)
    (halloc : ∀ q, (s₁.heap q).allocated = (s.heap q).allocated)
    (hpdu : ∀ q, (s₁.heap q).pdu = (s.heap q).pdu ∨ q = job.rep ∧ job.ownsRep = true)
    (hrep : job'.rep = job.rep) (howns : job'.ownsRep = true → job.ownsRep = true)
    (hholds : (s₁.setJob j job').Holds cfg job') : Buffers cfg (s₁.setJob j job') := by
  refine h.step ha hext hjobs ?_ ?_ (fun n e he => .inl (hwin n ▸ he)) hholds
  · refine h.owned.mono (fun q hq => by rw [halloc q]; exact hq) fun o q ho => ?_
    rcases owns_setJob hjobs ho with ⟨rfl, hr, hq⟩ | ⟨k, rfl, -, hk⟩ | ⟨n, x, rfl, hn⟩
    · exact ⟨job, hj, howns hr, hrep ▸ hq⟩
    · exact hk
    · obtain ⟨e, he, hrest⟩ := hn
      exact ⟨e, hwin n ▸ he, hrest⟩
  · intro o q ho hne
    rcases hpdu q with hq | ⟨rfl, hr⟩
    · exact hq
    · exact absurd (h.owned.unique o (.job j) job.rep ho ⟨job, hj, hr, rfl⟩) hne

/-- The check frees the blocks of the entries that leave. -/
theorem Buffers.check (h : Buffers cfg s) (ha : s.aborted = false)
    (hext : Extends s (s₁.setJob j job')) (hwf : s.tables.WF) {r : ReplyTables.CheckResult}
    (hj : s.jobs j = some job) (hp : job.phase = .connSaved)
    (hr : s.checkResult job.req = some r) (hjobs : s₁.jobs = s.jobs) (htab : s₁.tables = r.tables)
    (hfree : ∀ q, (s.heap q).allocated = true → (s₁.heap q).allocated ≠ true →
      q ∈ r.freed ∨ q = job.rep ∧ job'.ownsRep = false)
    (hpdu : ∀ q, (s₁.heap q).pdu = (s.heap q).pdu ∨ q = job.rep)
    (hrep : job'.rep = job.rep)
    (hholds : (s₁.setJob j job').Holds cfg job') : Buffers cfg (s₁.setJob j job') := by
  have howns : job.ownsRep = true := by simp [Job.ownsRep, hp]
  have hwin : ∀ n, ∀ e ∈ s₁.tables.window n, e ∈ s.tables.window n := fun n e he =>
    ReplyTables.window_check hr (htab ▸ he)
  refine h.step ha hext hjobs ?_ ?_ (fun n e he => .inl (hwin n e he)) hholds
  · have hold : ∀ o q, (s₁.setJob j job').owns o q → s.owns o q := by
      intro o q ho
      rcases owns_setJob hjobs ho with ⟨rfl, -, hq⟩ | ⟨k, rfl, -, hk⟩ | ⟨n, x, rfl, e, he, hrest⟩
      · exact ⟨job, hj, howns, hrep ▸ hq⟩
      · exact hk
      · exact ⟨e, hwin n e he, hrest⟩
    refine h.owned.shift id hold (fun _ _ _ _ _ _ he => he) fun q hq hnq => ?_
    rcases hfree q hq hnq with hfr | ⟨rfl, hno⟩
    · obtain ⟨t₁, hraise, ht, -, -⟩ := ReplyTables.checkduplicateAndUpdate_inv hr
      obtain ⟨e, he, hb, hgone⟩ := ReplyTables.freed_of_raiseLowerBound hraise (hwf.sorted _) hfr
      refine ⟨.entry job.req.cltNonce e.xid, ⟨e, he, rfl, hb⟩, ?_⟩
      rintro o rfl ⟨e', he', hx, -⟩
      rw [setJob_tables, htab, ht, ReplyTables.insertSeen_window] at he'
      exact hgone e' he' hx
    · refine ⟨.job j, ⟨job, hj, howns, rfl⟩, ?_⟩
      rintro o rfl ⟨kob, hk, hown', -⟩
      rw [setJob_jobs_self] at hk
      cases hk
      simp [hno] at hown'
  · intro o q ho hne
    rcases hpdu q with hq | rfl
    · exact hq
    · exact absurd (h.owned.unique o (.job j) job.rep ho ⟨job, hj, howns, rfl⟩) hne

theorem holds_of_packed (h : Buffers cfg s) {ret : Int} {out : List UInt8}
    (hj : s.jobs j = some job) (hp : job.phase = .packed ret out) :
    (s.aborted = false → 0 ≤ ret) ∧ (s.heap job.rep).pdu = ⟨job.req.xid, ret, out⟩ := by
  simpa [Holds, hp] using h.holds j job hj

/-- `add_reply` gives the block of the activation to the new window entry. -/
theorem Buffers.addReply (h : Buffers cfg s) (ha : s.aborted = false)
    (hext : Extends s (s₁.setJob j job')) (hc : Cache s) {ret : Int} {out : List UInt8}
    {t : ReplyTables} (hj : s.jobs j = some job) (hp : job.phase = .packed ret out)
    (hn : job.req.cltNonce ≠ 0)
    (ht : s.tables.addReply job.req.cltNonce job.req.xid job.rep
      (Reply.size ⟨job.req.xid, ret, out⟩) = some t) (hjobs : s₁.jobs = s.jobs)
    (htab : s₁.tables = t) (hheap : s₁.heap = s.heap)
    (hjob' : job' = { job with phase := .stored job.rep (Reply.size ⟨job.req.xid, ret, out⟩) }) :
    Buffers cfg (s₁.setJob j job') := by
  obtain ⟨hnew, hran⟩ := (hc.jobs j job hj).ran ret out (.inr hp)
  obtain ⟨h0, hpdu⟩ := holds_of_packed h hj hp
  have hst : job'.stored = true := by simp [hjob', Job.stored, hnew]
  have howns : job.ownsRep = true := by simp [Job.ownsRep, hp]
  have hgone : job'.ownsRep = false := by simp [hjob', Job.ownsRep, hnew, hn]
  have hfresh : ∀ e ∈ s.tables.window job.req.cltNonce, e.xid ≠ job.req.xid :=
    (ReplyTables.insertReply_spec (hc.wf.sorted _) (ReplyTables.addReply_inv ht).2.2.2.2).2.2
  have hnotjob : ∀ o q, (s₁.setJob j job').owns o q → o ≠ .job j := by
    intro o q ho
    rcases owns_setJob hjobs ho with ⟨-, hr, -⟩ | ⟨k, rfl, hne, -⟩ | ⟨n, x, rfl, -⟩
    · simp [hgone] at hr
    · simpa using hne
    · simp
  have hother : ∀ o q, (s₁.setJob j job').owns o q →
      o ≠ .entry job.req.cltNonce job.req.xid → s.owns o q := by
    intro o q ho hne
    rcases owns_setJob hjobs ho with ⟨-, hr, -⟩ | ⟨k, rfl, -, hk⟩ | ⟨n, x, rfl, e, he, hx, hq⟩
    · simp [hgone] at hr
    · exact hk
    · rcases (ReplyTables.mem_window_addReply hc.wf ht).mp (htab ▸ he) with hold | ⟨rfl, rfl⟩
      · exact ⟨e, hold, hx, hq⟩
      · exact absurd (by rw [← hx]) hne
  have hself : ∀ q, (s₁.setJob j job').owns (.entry job.req.cltNonce job.req.xid) q →
      q = job.rep := by
    rintro q ⟨e, he, hx, rfl⟩
    rcases (ReplyTables.mem_window_addReply hc.wf ht).mp (htab ▸ he) with hold | ⟨-, rfl⟩
    · exact absurd hx (hfresh e hold)
    · rfl
  refine h.step ha hext hjobs ?_ (fun _ _ _ _ => by rw [hheap]) ?_ ?_
  · -- the new entry takes the place of the job among the owners
    refine h.owned.shift (fun o => if o = .entry job.req.cltNonce job.req.xid then .job j else o)
      (fun o q ho => ?_) (fun o o' q q' ho ho' hf => ?_) (fun q hq hnq => ?_)
    · by_cases ho' : o = .entry job.req.cltNonce job.req.xid
      · subst ho'
        rw [if_pos rfl]
        exact ⟨job, hj, howns, (hself q ho).symm⟩
      · rw [if_neg ho']
        exact hother o q ho ho'
    · split at hf <;> split at hf
      · simp_all
      · exact absurd hf.symm (hnotjob o' q' ho')
      · exact absurd hf (hnotjob o q ho)
      · exact hf
    · exact absurd (hheap ▸ hq) hnq
  · intro m e he
    rcases (ReplyTables.mem_window_addReply hc.wf ht).mp (htab ▸ he) with hold | ⟨rfl, rfl⟩
    · exact .inl hold
    · rw [hheap, hpdu]
      exact .inr ⟨⟨_, hext.execs _ hran, job', setJob_jobs_self _ _ _, hst, by rw [hjob'], rfl, rfl,
        h0 ha, rfl⟩, rfl⟩
  · rw [hjob']
    simp [Holds, Job.shared, hnew, hn]

/-- The end of `dispatch` frees the block of `rep`, if it is still owned. -/
theorem Buffers.send (h : Buffers cfg s) (ha : s.aborted = false) (m : Sent)
    (hext : Extends s (({ s with sent := s.sent ++ [m], heap := job.release s.heap } :
      Server).setJob j { job with phase := .finished })) (hj : s.jobs j = some job) :
    Buffers cfg (({ s with sent := s.sent ++ [m], heap := job.release s.heap } : Server).setJob j
      { job with phase := .finished }) := by
  refine h.step ha hext rfl ?_ (fun o q _ _ => release_pdu _ _ q) (fun _ _ he => .inl he)
    (by simp [Holds])
  have hold : ∀ o q, (({ s with sent := s.sent ++ [m], heap := job.release s.heap } :
      Server).setJob j { job with phase := .finished }).owns o q → o ≠ .job j ∧ s.owns o q := by
    intro o q ho
    rcases owns_setJob rfl ho with ⟨-, hr, -⟩ | ⟨k, rfl, hne, hk⟩ | ⟨n, x, rfl, hent⟩
    · simp [Job.ownsRep] at hr
    · exact ⟨by simpa using hne, hk⟩
    · exact ⟨by simp, hent⟩
  refine h.owned.shift id (fun o q ho => (hold o q ho).2) (fun _ _ _ _ _ _ he => he)
    fun q hq hnq => ?_
  refine ⟨.job j, ?_, fun o ho hown => (hold o q hown).1 ho⟩
  unfold Job.release at hnq
  split at hnq
  · next hown =>
      rw [freeAll_allocated] at hnq
      have hqr : q = job.rep := by
        by_contra hne
        exact hnq ⟨hq, by simpa using hne⟩
      exact ⟨job, hj, hown, hqr.symm⟩
  · exact absurd hq hnq

theorem Buffers.abort (h : Buffers cfg s) (ha : s.aborted = false) : Buffers cfg s.abort where
  owned := h.owned
  entry := h.entry
  holds j job hj := (h.holds j job hj).mono ha ⟨fun _ kob hk => ⟨kob, hk, .refl kob⟩, fun _ he => he⟩
    fun _ => rfl

/-- The handler marshalls its result into the block of its job. -/
theorem Buffers.runHandler {t : Server} (h : Buffers cfg s) (ha : s.aborted = false)
    (hj : s.jobs j = some job) (hp : job.phase = .accepted) {ret : Int} {out : List UInt8}
    (hext : Extends s (t.setJob j { job with phase := .ran ret out }))
    (hjobs : t.jobs = s.jobs) (htab : t.tables = s.tables)
    (hheap : t.heap = marshallResult s.heap job.rep out) (hret : t.aborted = false → 0 ≤ ret) :
    Buffers cfg (t.setJob j { job with phase := .ran ret out }) := by
  refine h.keep ha hext hj hjobs (fun _ => by rw [htab]) (fun q => by rw [hheap]; simp)
    (fun q => ?_) rfl (by simp [Job.ownsRep, hp]) ?_
  · rw [hheap]
    by_cases hq : q = job.rep
    · exact .inr ⟨hq, by simp [Job.ownsRep, hp]⟩
    · exact .inl (pack_pdu_ne _ _ hq)
  · simpa [Holds, hheap, marshallResult] using hret

theorem buffers_next {a : ServerAct} (ho : Once s) (hc : Cache s) (h : Buffers cfg s)
    (hnext : s.next cfg a = some s') : Buffers cfg s' := by
  have ha := not_aborted_of_next hnext
  have hext := extends_of_next ho hc hnext
  cases step_of_next hnext with
  | @oldServer j c req p hj hfree h0 hne =>
      refine h.fresh ha hext hfree rfl rfl (fun q => by rw [pack_allocated, malloc_allocated])
        (fun q hq => by rw [pack_pdu_ne _ _ hq, malloc_pdu]) rfl fun _ => ?_
      rw [setJob_heap, pack_pdu_self]
      exact ⟨rfl, by simp [Job.ownsRep], by simp [Reply.size],
        .refused (setJob_jobs_self _ j _) rfl rfl (fun haddr => haddr.elim h0 hne) rfl⟩
  | optOut hj hfree _ _ =>
      exact h.fresh ha hext hfree rfl rfl (fun q => malloc_allocated _ _ q)
        (fun q _ => malloc_pdu _ _ q) rfl trivial
  | receive hj hfree _ _ =>
      exact h.fresh ha hext hfree rfl rfl (fun q => malloc_allocated _ _ q)
        (fun q _ => malloc_pdu _ _ q) rfl trivial
  | createWindow hj hp =>
      exact h.keep ha hext hj rfl (fun n => ReplyTables.createWindow_window n)
        (fun _ => rfl) (fun _ => .inl rfl) rfl (by simp [Job.ownsRep, hp]) trivial
  | saveConn hj hp =>
      exact h.keep ha hext hj rfl (fun _ => rfl) (fun _ => rfl) (fun _ => .inl rfl) rfl
        (by simp [Job.ownsRep, hp]) trivial
  | checkNew hj hp hr hv =>
      exact h.check ha hext hc.wf hj hp hr rfl rfl
        (fun q hq hnq => .inl (by
          by_contra hne
          exact hnq ((freeAll_allocated _ _ q).mpr ⟨hq, hne⟩)))
        (fun q => .inl (freeAll_pdu _ _ q)) rfl trivial
  | @checkInprogress j job r hj hp hr hv =>
      refine h.check ha hext hc.wf hj hp hr rfl rfl (fun q hq hnq => ?_) (fun q => .inl (by simp))
        rfl trivial
      rw [ne_eq, freeAll_allocated, freeAll_allocated] at hnq
      by_cases hqr : q = job.rep
      · exact .inr ⟨hqr, by simp [Job.ownsRep]⟩
      · exact .inl (by
          by_contra hne
          exact hnq ⟨⟨hq, hne⟩, by simpa using hqr⟩)
  | checkDone hj hp hr hv _ =>
      exact h.check ha hext hc.wf hj hp hr rfl rfl
        (fun q hq hnq => .inl (by
          by_contra hne
          exact hnq ((freeAll_allocated _ _ q).mpr ⟨hq, hne⟩)))
        (fun q => .inl (freeAll_pdu _ _ q)) rfl (by simp [Holds, Job.shared])
  | @checkForgotten j job r hj hp hr hv =>
      refine h.check ha hext hc.wf hj hp hr rfl rfl
        (fun q hq hnq => .inl (by
          by_contra hne
          refine hnq ?_
          rw [pack_allocated]
          exact (freeAll_allocated _ _ q).mpr ⟨hq, hne⟩))
        (fun q => ?_) rfl fun _ => ?_
      · by_cases hq : q = job.rep
        · exact .inr hq
        · exact .inl (by rw [pack_pdu_ne _ _ hq, freeAll_pdu])
      · rw [setJob_heap, pack_pdu_self]
        exact ⟨rfl, by simp [Job.ownsRep], by simp [Reply.size],
          .forgotten (setJob_jobs_self _ j _) rfl rfl rfl rfl⟩
  | runHandler hj hp hret _ => exact h.runHandler ha hj hp hext rfl rfl rfl fun _ => hret
  | @handlerAbort j job ret out hj hp _ _ =>
      -- setting the job and aborting commute
      exact h.runHandler (t := { s with
        execs := s.execs ++ [(⟨j, job.req, ret, out⟩ : Exec)]
        heap := marshallResult s.heap job.rep out, aborted := true }) ha hj hp hext rfl rfl rfl
        (by simp)
  | @packReplyHeader j job ret out hj hp =>
      have hold : (s.aborted = false → 0 ≤ ret) ∧ (s.heap job.rep).pdu.payload = out := by
        simpa [Holds, hp] using h.holds j job hj
      refine h.keep ha hext hj rfl (fun _ => rfl) (fun q => packReplyHeader_allocated _ _ q _ _)
        (fun q => ?_) rfl (by simp [Job.ownsRep, hp]) ⟨hold.1, ?_⟩
      · by_cases hq : q = job.rep
        · exact .inr ⟨hq, by simp [Job.ownsRep, hp]⟩
        · exact .inl (pack_pdu_ne _ _ hq)
      · simp [packReplyHeader, hold.2]
  | @addReplyOptOut j job ret out hj hp hz =>
      obtain ⟨hnew, hran⟩ := (hc.jobs j job hj).ran ret out (.inr hp)
      obtain ⟨h0, hpdu⟩ := holds_of_packed h hj hp
      refine h.keep ha hext hj rfl (fun _ => rfl) (fun _ => rfl) (fun _ => .inl rfl) rfl
        (by simp [Job.ownsRep, hp]) fun _ => ?_
      rw [setJob_heap, hpdu]
      exact ⟨rfl, by simp [Job.ownsRep, hz], rfl, .result ⟨_, hran, _, setJob_jobs_self _ j _,
        by simp [Job.stored, hnew], rfl, rfl, rfl, h0 ha, rfl⟩⟩
  | addReply hj hp hn ht => exact h.addReply ha hext hc hj hp hn ht rfl rfl rfl rfl
  | @keepConn j job dead b sz hj hp =>
      refine h.keep ha hext hj rfl (fun _ => rfl) (fun _ => rfl) (fun _ => .inl rfl) rfl
        (by simp [Job.ownsRep, hp]) ?_
      refine Holds.mono (s := s) ?_ ha hext fun _ => rfl
      simpa [Holds, Job.shared, Job.ownsRep, hp] using h.holds j job hj
  | @moveConn j job dead b sz c hj hp _ =>
      refine h.keep ha hext hj rfl (fun _ => rfl) (fun _ => rfl) (fun _ => .inl rfl) rfl
        (by simp [Job.ownsRep, hp]) ?_
      refine Holds.mono (s := s) ?_ ha hext fun _ => rfl
      simpa [Holds, Job.shared, Job.ownsRep, hp] using h.holds j job hj
  | send hj hp => exact h.send ha _ hext hj
  | abort => exact h.abort ha

end Server

end RpcLock.Rpcs
