import RpcLock.Rpcs.AtMostOnce
import RpcLock.Rpcs.ReplyWindow

/-!
# What the reply cache holds

The invariant `Cache` ties the three maps to the activations that filled them:
an entry of the window is the reply of one accepted activation, a stored reply
is in the window until the lower bound passes it, and a seen xid was processed.
It holds under arbitrary traffic.

`classify` reads it back at a check whose xid is above the lower bound and above
the acknowledgement it carries: the verdict is exact.
-/

namespace RpcLock.Rpcs

/-- The activation went through `add_reply`. -/
def Job.stored (job : Job) : Bool :=
  match job.verdict, job.phase with
  | some .new, .stored _ _ | some .new, .sending _ _ | some .new, .finished => true
  | _, _ => false

/-- `f->fn` returned this value and marshalled these bytes, and `add_reply` has
not run yet. -/
def Job.Ran (job : Job) (ret : Int) (out : List UInt8) : Prop :=
  job.phase = .ran ret out ∨ job.phase = .packed ret out

/-- What no step undoes about an activation. -/
structure Job.Evolves (job job' : Job) : Prop where
  req : job'.req = job.req
  rep : job'.rep = job.rep
  verdict : job.verdict ≠ none → job'.verdict = job.verdict
  stored : job.stored = true → job'.stored = true

theorem Job.Evolves.refl (job : Job) : job.Evolves job := ⟨rfl, rfl, fun _ => rfl, id⟩

theorem Job.stored_verdict {job : Job} (h : job.stored = true) : job.verdict = some .new := by
  unfold Job.stored at h
  split at h <;> simp_all

namespace Server

/-! ## What happened to a request -/

/-- A copy of the request passed the check. -/
def Processed (s : Server) (n x : UInt32) : Prop :=
  ∃ j job, s.jobs j = some job ∧ job.verdict ≠ none ∧ job.req.cltNonce = n ∧ job.req.xid = x

/-- A copy of the request was accepted as `NEW`. -/
def Accepted (s : Server) (n x : UInt32) : Prop :=
  ∃ j job, s.jobs j = some job ∧ job.verdict = some .new ∧
    job.req.cltNonce = n ∧ job.req.xid = x

/-- A copy was accepted as `NEW` and `add_reply` has not happened yet. -/
def Executing (s : Server) (n x : UInt32) : Prop :=
  ∃ j job, s.jobs j = some job ∧ job.verdict = some .new ∧ job.stored = false ∧
    job.req.cltNonce = n ∧ job.req.xid = x

/-- `add_reply` happened, with this buffer and this size: the block of the
accepted activation, and the size of the reply its handler produced. -/
def Added (s : Server) (n x : UInt32) (b : Ptr) (sz : Int) : Prop :=
  ∃ e ∈ s.execs, ∃ job, s.jobs e.job = some job ∧ job.stored = true ∧ job.req = e.req ∧
    e.req.cltNonce = n ∧ e.req.xid = x ∧ b = job.rep ∧ sz = Reply.size ⟨x, e.ret, e.out⟩

/-- Every activation and every execution of `s` is still there in `s'`. -/
structure Extends (s s' : Server) : Prop where
  jobs : ∀ j job, s.jobs j = some job → ∃ job', s'.jobs j = some job' ∧ job.Evolves job'
  execs : ∀ e ∈ s.execs, e ∈ s'.execs

variable {s s' s₁ : Server} {n x : UInt32}

theorem Extends.accepted (h : Extends s s') (ha : s.Accepted n x) : s'.Accepted n x := by
  obtain ⟨j, job, hj, hv, hn, hx⟩ := ha
  obtain ⟨job', hj', hev⟩ := h.jobs j job hj
  exact ⟨j, job', hj', by rw [hev.verdict (by simp [hv]), hv], by rw [hev.req, hn],
    by rw [hev.req, hx]⟩

theorem Extends.processed (h : Extends s s') (hp : s.Processed n x) : s'.Processed n x := by
  obtain ⟨j, job, hj, hv, hn, hx⟩ := hp
  obtain ⟨job', hj', hev⟩ := h.jobs j job hj
  exact ⟨j, job', hj', by rw [hev.verdict hv]; exact hv, by rw [hev.req, hn], by rw [hev.req, hx]⟩

theorem Extends.added {b : Ptr} {sz : Int} (h : Extends s s') (ha : s.Added n x b sz) :
    s'.Added n x b sz := by
  obtain ⟨e, he, job, hj, hst, hreq, hn, hx, hb, hsz⟩ := ha
  obtain ⟨job', hj', hev⟩ := h.jobs e.job job hj
  exact ⟨e, h.execs e he, job', hj', hev.stored hst, by rw [hev.req, hreq], hn, hx,
    by rw [hev.rep, hb], hsz⟩

/-- Setting the entry of a new job, or of a job that evolves, loses nothing. -/
theorem extends_setJob {j : Nat} {job' : Job} (hjobs : s₁.jobs = s.jobs)
    (hex : ∀ e ∈ s.execs, e ∈ s₁.execs)
    (hj : ∀ job, s.jobs j = some job → job.Evolves job') : Extends s (s₁.setJob j job') where
  jobs k kob hk := by
    by_cases hkj : k = j
    · subst hkj
      exact ⟨job', setJob_jobs_self _ _ _, hj kob hk⟩
    · exact ⟨kob, by rw [setJob_jobs_ne _ _ hkj, hjobs]; exact hk, .refl kob⟩
  execs := hex

/-! ## The invariant -/

/-- What holds of one activation. -/
structure CacheAt (s : Server) (j : Nat) (job : Job) : Prop where
  /-- The client has a window from the moment `dispatch` made sure of it. -/
  ready : job.phase = .windowReady ∨ job.phase = .connSaved ∨
    job.verdict ≠ none ∧ job.req.cltNonce ≠ 0 → (s.tables.replyWindow job.req.cltNonce).isSome
  ran : ∀ ret out, job.Ran ret out →
    job.verdict = some .new ∧ (⟨j, job.req, ret, out⟩ : Exec) ∈ s.execs
  isNew : ∀ b sz, job.phase = .stored b sz → job.verdict = some .new
  stored : job.stored = true → job.req.cltNonce ≠ 0 →
    s.tables.Below job.req.cltNonce job.req.xid ∨
      ∃ e ∈ s.tables.window job.req.cltNonce, e.xid = job.req.xid
  origin : job.verdict ≠ none → job.req.cltNonce ≠ 0 →
    s.Accepted job.req.cltNonce job.req.xid ∨ s.tables.AtOrBelow job.req.cltNonce job.req.xid

/-- What the maps hold, in terms of the activations so far. -/
structure Cache (s : Server) : Prop where
  wf : s.tables.WF
  jobs : ∀ j job, s.jobs j = some job → CacheAt s j job
  seen : ∀ n x, x ∈ s.tables.seen n → s.Processed n x
  entry : ∀ n, ∀ e ∈ s.tables.window n, n ≠ 0 ∧ s.Added n e.xid e.buf e.sz

theorem cache_init : Cache Server.init where
  wf := ReplyTables.wf_empty
  jobs := by simp [Server.init]
  seen n x h := by simp [Server.init, ReplyTables.empty, ReplyTables.seen] at h
  entry n e h := by simp [Server.init, ReplyTables.empty, ReplyTables.window] at h

/-- Heap, connections, sent replies and the abort flag do not matter. -/
theorem Cache.of_eq (h : Cache s) (ht : s'.tables = s.tables) (hj : s'.jobs = s.jobs)
    (he : s'.execs = s.execs) : Cache s' := by
  obtain ⟨t, c, hp, j, a, e, st⟩ := s
  obtain ⟨t', c', hp', j', a', e', st'⟩ := s'
  simp only at ht hj he
  subst ht hj he
  exact ⟨h.wf, fun j job hj => let c := h.jobs j job hj; ⟨c.ready, c.ran, c.isNew, c.stored,
    c.origin⟩, h.seen, h.entry⟩

/-- What holds of an activation is not lost by the steps of others. -/
theorem CacheAt.mono {j : Nat} {job : Job} (h : CacheAt s j job) (hext : Extends s s')
    (hk : s.tables.Keeps s'.tables) : CacheAt s' j job where
  ready hp := hk.window _ (h.ready hp)
  ran ret out hp := ⟨(h.ran ret out hp).1, hext.execs _ (h.ran ret out hp).2⟩
  isNew := h.isNew
  stored hst hn := by
    rcases h.stored hst hn with hb | ⟨e, he, hx⟩
    · exact .inl (hk.below _ _ hb)
    · rcases hk.entry _ e he with he' | hb
      · exact .inr ⟨e, he', hx⟩
      · exact .inl (hx ▸ hb)
  origin hv hn := (h.origin hv hn).imp hext.accepted (hk.atOrBelow _ _)

/-- A step of the job `j`: everything that must be shown is about `j`, new
entries and new seen xids. -/
theorem Cache.step (h : Cache s) {j : Nat} {job' : Job} (hjobs : s₁.jobs = s.jobs)
    (hex : ∀ e ∈ s.execs, e ∈ s₁.execs)
    (hj : ∀ job, s.jobs j = some job → job.Evolves job')
    (hwf : s₁.tables.WF) (hk : s.tables.Keeps s₁.tables)
    (hjob : CacheAt (s₁.setJob j job') j job')
    (hseen : ∀ n x, x ∈ s₁.tables.seen n → x ∈ s.tables.seen n ∨ (s₁.setJob j job').Processed n x)
    (hentry : ∀ n, ∀ e ∈ s₁.tables.window n, e ∈ s.tables.window n ∨
      n ≠ 0 ∧ (s₁.setJob j job').Added n e.xid e.buf e.sz) : Cache (s₁.setJob j job') := by
  have hext : Extends s (s₁.setJob j job') := extends_setJob hjobs hex hj
  refine ⟨hwf, fun k kob hkob => ?_, fun n x hx => ?_, fun n e he => ?_⟩
  · rcases setJob_jobs_cases hkob with ⟨rfl, rfl⟩ | ⟨-, hkob⟩
    · exact hjob
    · exact (h.jobs k kob (hjobs ▸ hkob)).mono hext hk
  · rcases hseen n x hx with hx | hp
    · exact hext.processed (h.seen n x hx)
    · exact hp
  · rcases hentry n e he with he | ha
    · exact ⟨(h.entry n e he).1, hext.added (h.entry n e he).2⟩
    · exact ha

/-- A step that leaves the maps alone. -/
theorem Cache.move (h : Cache s) {j : Nat} {job' : Job} (hjobs : s₁.jobs = s.jobs)
    (hex : ∀ e ∈ s.execs, e ∈ s₁.execs) (ht : s₁.tables = s.tables)
    (hj : ∀ job, s.jobs j = some job → job.Evolves job')
    (hjob : CacheAt (s₁.setJob j job') j job') : Cache (s₁.setJob j job') :=
  h.step hjobs hex hj (ht ▸ h.wf) (ht ▸ .refl _) hjob (fun _ _ hx => .inl (ht ▸ hx))
    (fun _ _ he => .inl (ht ▸ he))

theorem Added.accepted {b : Ptr} {sz : Int} (h : s.Added n x b sz) : s.Accepted n x := by
  obtain ⟨e, -, job, hj, hst, hreq, hn, hx, -, -⟩ := h
  exact ⟨e.job, job, hj, Job.stored_verdict hst, by rw [hreq, hn], by rw [hreq, hx]⟩

theorem Accepted.processed (h : s.Accepted n x) : s.Processed n x := by
  obtain ⟨j, job, hj, hv, hn, hx⟩ := h
  exact ⟨j, job, hj, by simp [hv], hn, hx⟩

theorem Executing.processed (h : s.Executing n x) : s.Processed n x := by
  obtain ⟨j, job, hj, hv, -, hn, hx⟩ := h
  exact ⟨j, job, hj, by simp [hv], hn, hx⟩

/-- A processed request was accepted, unless it is at or below the bound. -/
theorem Cache.origin (h : Cache s) (hp : s.Processed n x) (hn : n ≠ 0) :
    s.Accepted n x ∨ s.tables.AtOrBelow n x := by
  obtain ⟨j, job, hj, hv, rfl, rfl⟩ := hp
  exact (h.jobs j job hj).origin hv hn

section Steps

variable {j : Nat} {job job' : Job}

/-- The check gives its job a verdict. -/
theorem Cache.check (h : Cache s) {r : ReplyTables.CheckResult} (hjobs : s₁.jobs = s.jobs)
    (hex : s₁.execs = s.execs) (hr : s.checkResult job.req = some r) (htab : s₁.tables = r.tables)
    (hj : s.jobs j = some job) (hp : job.phase = .connSaved) (hnone : job.verdict = none)
    (hreq : job'.req = job.req) (hrep : job'.rep = job.rep) (hv : job'.verdict = some r.verdict)
    (hst : job'.stored = false)
    (hphase : job'.phase ≠ .windowReady ∧ job'.phase ≠ .connSaved ∧
      (∀ ret out, ¬ job'.Ran ret out) ∧ ∀ b sz, job'.phase ≠ .stored b sz) :
    Cache (s₁.setJob j job') := by
  have hkeeps := ReplyTables.Keeps.check hr
  have hev : ∀ kob, s.jobs j = some kob → kob.Evolves job' := by
    intro kob hk
    rw [hj] at hk
    cases hk
    exact ⟨hreq, hrep, fun hne => absurd hnone hne, fun hs => by
      rw [Job.stored_verdict hs] at hnone
      cases hnone⟩
  have hexec : ∀ e ∈ s.execs, e ∈ s₁.execs := fun e he => hex ▸ he
  have hext : Extends s (s₁.setJob j job') := extends_setJob hjobs hexec hev
  have hproc : (s₁.setJob j job').Processed job.req.cltNonce job.req.xid :=
    ⟨j, job', setJob_jobs_self _ _ _, by simp [hv], by rw [hreq], by rw [hreq]⟩
  have horigin : job.req.cltNonce ≠ 0 →
      (s₁.setJob j job').Accepted job.req.cltNonce job.req.xid ∨
        r.tables.AtOrBelow job.req.cltNonce job.req.xid := by
    intro hn
    rcases ReplyTables.verdict_check hr with hnew | ⟨-, hseen⟩ | ⟨-, e, -, he, hx⟩ | ⟨-, hb⟩
    · exact .inl ⟨j, job', setJob_jobs_self _ _ _, by rw [hv, hnew], by rw [hreq], by rw [hreq]⟩
    · exact (h.origin (h.seen _ _ hseen) hn).imp hext.accepted (hkeeps.atOrBelow _ _)
    · have ha := (h.entry _ e (ReplyTables.window_check hr he)).2
      exact .inl (hext.accepted (hx ▸ ha.accepted))
    · exact .inr hb
  refine h.step hjobs hexec hev (htab ▸ h.wf.check hr) (htab ▸ hkeeps) ⟨?_, ?_, ?_, ?_, ?_⟩ ?_ ?_
  · intro _
    rw [hreq, setJob_tables, htab]
    exact hkeeps.window _ ((h.jobs j job hj).ready (.inr (.inl hp)))
  · exact fun ret out he => absurd he (hphase.2.2.1 ret out)
  · exact fun b sz he => absurd he (hphase.2.2.2 b sz)
  · intro hs
    simp [hst] at hs
  · intro _ hn
    rw [hreq] at hn ⊢
    rw [setJob_tables, htab]
    exact horigin hn
  · intro m y hy
    rw [htab] at hy
    rcases ReplyTables.seen_check hr hy with hy | ⟨rfl, rfl⟩
    · exact .inl hy
    · exact .inr hproc
  · exact fun m e he => .inl (ReplyTables.window_check hr (htab ▸ he))

/-- `add_reply` stores the reply of its job. -/
theorem Cache.addReply (h : Cache s) {ret : Int} {out : List UInt8} {t : ReplyTables}
    (hj : s.jobs j = some job) (hp : job.phase = .packed ret out) (hn : job.req.cltNonce ≠ 0)
    (ht : s.tables.addReply job.req.cltNonce job.req.xid job.rep
      (Reply.size ⟨job.req.xid, ret, out⟩) = some t) (hjobs : s₁.jobs = s.jobs)
    (hex : s₁.execs = s.execs) (htab : s₁.tables = t)
    (hjob' : job' = { job with phase := .stored job.rep (Reply.size ⟨job.req.xid, ret, out⟩) }) :
    Cache (s₁.setJob j job') := by
  obtain ⟨hnew, hran⟩ := (h.jobs j job hj).ran ret out (.inr hp)
  have hst : job'.stored = true := by simp [hjob', Job.stored, hnew]
  have hev : ∀ kob, s.jobs j = some kob → kob.Evolves job' := by
    intro kob hk
    rw [hj] at hk
    cases hk
    exact ⟨by rw [hjob'], by rw [hjob'], fun _ => by rw [hjob'], fun _ => hst⟩
  have hexec : ∀ e ∈ s.execs, e ∈ s₁.execs := fun e he => hex ▸ he
  have hadded : (s₁.setJob j job').Added job.req.cltNonce job.req.xid job.rep
      (Reply.size ⟨job.req.xid, ret, out⟩) :=
    ⟨_, hexec _ hran, job', setJob_jobs_self _ _ _, hst, by rw [hjob'], rfl, rfl, by rw [hjob'],
      rfl⟩
  refine h.step hjobs hexec hev (htab ▸ h.wf.addReply ht) (htab ▸ .addReply h.wf ht)
    ⟨?_, ?_, ?_, ?_, ?_⟩ ?_ ?_
  · intro _
    rw [setJob_tables, htab, hjob']
    exact (ReplyTables.Keeps.addReply h.wf ht).window _
      ((h.jobs j job hj).ready (.inr (.inr ⟨by simp [hnew], hn⟩)))
  · intro ret' out' he
    simp [hjob', Job.Ran] at he
  · intro b sz _
    rw [hjob']
    exact hnew
  · intro _ _
    rw [setJob_tables, htab, hjob']
    exact .inr ⟨_, (ReplyTables.mem_window_addReply h.wf ht).mpr (.inr ⟨rfl, rfl⟩), rfl⟩
  · intro _ _
    exact .inl (by rw [hjob'] at hadded ⊢; exact hadded.accepted)
  · intro m y hy
    rw [htab] at hy
    unfold ReplyTables.seen at hy
    rw [(ReplyTables.addReply_inv ht).2.1] at hy
    exact .inl hy
  · intro m e he
    rw [htab] at he
    rcases (ReplyTables.mem_window_addReply h.wf ht).mp he with he | ⟨rfl, rfl⟩
    · exact .inl he
    · exact .inr ⟨hn, hadded⟩

/-- A step past the check that keeps the maps: the handler, the reply header, the
choice of the connection, the send. -/
theorem Cache.advance (h : Cache s) (hjobs : s₁.jobs = s.jobs) (hex : ∀ e ∈ s.execs, e ∈ s₁.execs)
    (htab : s₁.tables = s.tables) (hj : s.jobs j = some job) (hreq : job'.req = job.req)
    (hrep : job'.rep = job.rep) (hv : job'.verdict = job.verdict)
    (hst : job.stored = true → job'.stored = true)
    (hst' : job'.stored = true → job.stored = true ∨ job.req.cltNonce = 0)
    (hphase : job'.phase ≠ .windowReady ∧ job'.phase ≠ .connSaved)
    (hran : ∀ ret out, job'.Ran ret out →
      job.verdict = some .new ∧ (⟨j, job.req, ret, out⟩ : Exec) ∈ s₁.execs)
    (hnew : ∀ b sz, job'.phase = .stored b sz → job.verdict = some .new) :
    Cache (s₁.setJob j job') := by
  have hev : ∀ kob, s.jobs j = some kob → kob.Evolves job' := by
    intro kob hk
    rw [hj] at hk
    cases hk
    exact ⟨hreq, hrep, fun _ => hv, hst⟩
  have hold := (h.jobs j job hj).mono (extends_setJob hjobs hex hev)
    (show s.tables.Keeps (s₁.setJob j job').tables from htab ▸ .refl _)
  refine h.move hjobs hex htab hev ⟨?_, ?_, ?_, ?_, ?_⟩
  · rintro (hp | hp | hp)
    · exact absurd hp hphase.1
    · exact absurd hp hphase.2
    · rw [hreq] at hp ⊢
      exact hold.ready (.inr (.inr (hv ▸ hp)))
  · intro ret out hr
    rw [hv, hreq]
    exact hran ret out hr
  · rw [hv]
    exact hnew
  · intro hs hn
    rw [hreq] at hn ⊢
    rcases hst' hs with hs | hz
    · exact hold.stored hs hn
    · exact absurd hz hn
  · rw [hv, hreq]
    exact hold.origin

end Steps

theorem cache_next {cfg : ServerConfig} {a : ServerAct} (ho : Once s) (h : Cache s)
    (hnext : s.next cfg a = some s') : Cache s' := by
  have hrun : ∀ j job ret out, s.jobs j = some job → job.phase = .accepted →
      Cache (s.afterHandler j job ret out) := by
    intro j job ret out hj hp
    have hnew := ho.accepted j job hj hp
    exact h.advance rfl (fun e he => List.mem_append_left _ he) rfl hj rfl rfl rfl
      (by simp [Job.stored, hp]) (by simp [Job.stored]) (by simp) (by simp [Job.Ran, hnew])
      (by simp)
  cases step_of_next hnext with
  | oldServer hj _ _ _ =>
      exact h.move rfl (fun _ he => he) rfl (fun job hk => by simp [hj] at hk)
        ⟨by simp, by simp [Job.Ran], by simp, by simp [Job.stored], by simp⟩
  | optOut hj _ _ hz =>
      exact h.move rfl (fun _ he => he) rfl (fun job hk => by simp [hj] at hk)
        ⟨by simp [hz], by simp [Job.Ran], by simp, by simp [hz], by simp [hz]⟩
  | receive hj _ _ _ =>
      exact h.move rfl (fun _ he => he) rfl (fun job hk => by simp [hj] at hk)
        ⟨by simp, by simp [Job.Ran], by simp, by simp [Job.stored], by simp⟩
  | @createWindow j job hj hp =>
      have hv : job.verdict = none := ho.early j job hj (.inl hp)
      refine h.step rfl (fun _ he => he) (fun kob hk => ?_) h.wf.createWindow .createWindow
        ⟨fun _ => ReplyTables.createWindow_isSome, by simp [Job.Ran], by simp,
          by simp [Job.stored, hv], by simp [hv]⟩ (fun m y hy => .inl ?_) (fun m e he => .inl ?_)
      · rw [hj] at hk
        cases hk
        exact ⟨rfl, rfl, fun _ => rfl, fun hs => by simp [Job.stored, hv] at hs⟩
      · simpa [ReplyTables.seen] using hy
      · simpa using he
  | @saveConn j job hj hp =>
      have hv : job.verdict = none := ho.early j job hj (.inr (.inl hp))
      refine h.move rfl (fun _ he => he) rfl (fun kob hk => ?_)
        ⟨fun _ => (h.jobs j job hj).ready (.inl hp), by simp [Job.Ran], by simp,
          by simp [Job.stored, hv], by simp [hv]⟩
      rw [hj] at hk
      cases hk
      exact ⟨rfl, rfl, fun _ => rfl, fun hs => by simp [Job.stored, hv] at hs⟩
  | checkNew hj hp hr hv =>
      exact h.check rfl rfl hr rfl hj hp (ho.early _ _ hj (.inr (.inr hp))) rfl rfl (by rw [hv])
        (by simp [Job.stored]) (by simp [Job.Ran])
  | checkInprogress hj hp hr hv =>
      exact h.check rfl rfl hr rfl hj hp (ho.early _ _ hj (.inr (.inr hp))) rfl rfl (by rw [hv])
        (by simp [Job.stored]) (by simp [Job.Ran])
  | checkDone hj hp hr hv _ =>
      exact h.check rfl rfl hr rfl hj hp (ho.early _ _ hj (.inr (.inr hp))) rfl rfl (by rw [hv])
        (by simp [Job.stored]) (by simp [Job.Ran])
  | checkForgotten hj hp hr hv =>
      exact h.check rfl rfl hr rfl hj hp (ho.early _ _ hj (.inr (.inr hp))) rfl rfl (by rw [hv])
        (by simp [Job.stored]) (by simp [Job.Ran])
  | runHandler hj hp _ _ => exact hrun _ _ _ _ hj hp
  | handlerAbort hj hp _ _ => exact (hrun _ _ _ _ hj hp).of_eq rfl rfl rfl
  | @packReplyHeader j job ret out hj hp =>
      refine h.advance rfl (fun _ he => he) rfl hj rfl rfl rfl (by simp [Job.stored, hp])
        (by simp [Job.stored]) (by simp) (fun ret' out' hr => ?_) (by simp)
      simp only [Job.Ran, reduceCtorEq, Phase.packed.injEq, false_or] at hr
      obtain ⟨rfl, rfl⟩ := hr
      exact (h.jobs j job hj).ran ret out (.inl hp)
  | addReplyOptOut hj hp hz =>
      have hnew := ((h.jobs _ _ hj).ran _ _ (.inr hp)).1
      exact h.advance rfl (fun _ he => he) rfl hj rfl rfl rfl (by simp [Job.stored, hp])
        (fun _ => .inr hz) (by simp) (by simp [Job.Ran]) (fun _ _ _ => hnew)
  | addReply hj hp hn ht => exact h.addReply hj hp hn ht rfl rfl rfl rfl
  | keepConn hj hp =>
      have hnew := (h.jobs _ _ hj).isNew _ _ hp
      exact h.advance rfl (fun _ he => he) rfl hj rfl rfl rfl (by simp [Job.stored, hnew])
        (by simp [Job.stored, hnew, hp]) (by simp) (by simp [Job.Ran]) (by simp)
  | moveConn hj hp _ =>
      have hnew := (h.jobs _ _ hj).isNew _ _ hp
      exact h.advance rfl (fun _ he => he) rfl hj rfl rfl rfl (by simp [Job.stored, hnew])
        (by simp [Job.stored, hnew, hp]) (by simp) (by simp [Job.Ran]) (by simp)
  | @send j job b sz hj hp =>
      have hst : ({ job with phase := .finished } : Job).stored = job.stored := by
        unfold Job.stored
        rw [hp]
        split <;> simp_all
      exact h.advance rfl (fun _ he => he) rfl hj rfl rfl rfl (fun hs => hst ▸ hs)
        (fun hs => .inl (hst ▸ hs)) (by simp) (by simp [Job.Ran]) (by simp)
  | abort => exact h.of_eq rfl rfl rfl

theorem cache_of_reachable {cfg : ServerConfig} (h : (serverMachine cfg).Reachable s) :
    Once s ∧ Cache s :=
  Machine.Reachable.invariant (P := fun s => Once s ∧ Cache s) h ⟨once_init, cache_init⟩
    fun _ _ _ hs hn => ⟨once_next hs.1 hn, cache_next hs.1 hs.2 hn⟩

/-! ## Nothing is undone -/

/-- A step loses no activation, no verdict, no stored reply and no execution. -/
theorem extends_of_next {cfg : ServerConfig} {a : ServerAct} (ho : Once s) (hc : Cache s)
    (hn : s.next cfg a = some s') : Extends s s' := by
  have hfresh : ∀ {s₁ : Server} {j : Nat} {job' : Job}, s₁.jobs = s.jobs → s₁.execs = s.execs →
      s.jobs j = none → Extends s (s₁.setJob j job') := by
    intro s₁ j job' hjobs hex hj
    refine extends_setJob hjobs (fun e he => hex ▸ he) fun job hk => ?_
    rw [hj] at hk
    cases hk
  have hmove : ∀ {s₁ : Server} {j : Nat} {job job' : Job}, s₁.jobs = s.jobs →
      (∀ e ∈ s.execs, e ∈ s₁.execs) → s.jobs j = some job → job.Evolves job' →
      Extends s (s₁.setJob j job') := by
    intro s₁ j job job' hjobs hex hj hev
    refine extends_setJob hjobs hex fun kob hk => ?_
    rw [hj] at hk
    cases hk
    exact hev
  have hearly : ∀ {j : Nat} {job job' : Job}, s.jobs j = some job →
      job.phase = .unpacked ∨ job.phase = .windowReady ∨ job.phase = .connSaved →
      job'.req = job.req → job'.rep = job.rep → job.Evolves job' := by
    intro j job job' hj hp hreq hrep
    have hv := ho.early j job hj hp
    exact ⟨hreq, hrep, fun h => absurd hv h, fun hs => by simp [Job.stored, hv] at hs⟩
  have hrun : ∀ {j : Nat} {job : Job} (ret : Int) (out : List UInt8), s.jobs j = some job →
      job.phase = .accepted →
      Extends s (s.afterHandler j job ret out) := fun ret out hj hp =>
    hmove rfl (fun _ he => List.mem_append_left _ he) hj
      ⟨rfl, rfl, fun _ => rfl, by simp [Job.stored, hp]⟩
  cases step_of_next hn with
  | oldServer hj _ _ _ => exact hfresh rfl rfl hj
  | optOut hj _ _ _ => exact hfresh rfl rfl hj
  | receive hj _ _ _ => exact hfresh rfl rfl hj
  | createWindow hj hp => exact hmove rfl (fun _ he => he) hj (hearly hj (.inl hp) rfl rfl)
  | saveConn hj hp => exact hmove rfl (fun _ he => he) hj (hearly hj (.inr (.inl hp)) rfl rfl)
  | checkNew hj hp _ _ =>
      exact hmove rfl (fun _ he => he) hj (hearly hj (.inr (.inr hp)) rfl rfl)
  | checkInprogress hj hp _ _ =>
      exact hmove rfl (fun _ he => he) hj (hearly hj (.inr (.inr hp)) rfl rfl)
  | checkDone hj hp _ _ _ =>
      exact hmove rfl (fun _ he => he) hj (hearly hj (.inr (.inr hp)) rfl rfl)
  | checkForgotten hj hp _ _ =>
      exact hmove rfl (fun _ he => he) hj (hearly hj (.inr (.inr hp)) rfl rfl)
  | runHandler hj hp _ _ => exact hrun _ _ hj hp
  | handlerAbort hj hp _ _ => exact ⟨(hrun _ _ hj hp).jobs, (hrun _ _ hj hp).execs⟩
  | packReplyHeader hj hp =>
      exact hmove rfl (fun _ he => he) hj ⟨rfl, rfl, fun _ => rfl, by simp [Job.stored, hp]⟩
  | addReplyOptOut hj hp _ =>
      exact hmove rfl (fun _ he => he) hj ⟨rfl, rfl, fun _ => rfl, by simp [Job.stored, hp]⟩
  | addReply hj hp _ _ =>
      exact hmove rfl (fun _ he => he) hj ⟨rfl, rfl, fun _ => rfl, by simp [Job.stored, hp]⟩
  | keepConn hj hp =>
      have hnew := (hc.jobs _ _ hj).isNew _ _ hp
      exact hmove rfl (fun _ he => he) hj ⟨rfl, rfl, fun _ => rfl, by simp [Job.stored, hnew]⟩
  | moveConn hj hp _ =>
      have hnew := (hc.jobs _ _ hj).isNew _ _ hp
      exact hmove rfl (fun _ he => he) hj ⟨rfl, rfl, fun _ => rfl, by simp [Job.stored, hnew]⟩
  | @send j job b sz hj hp =>
      refine hmove rfl (fun _ he => he) hj ⟨rfl, rfl, fun _ => rfl, fun hs => ?_⟩
      have hnew := Job.stored_verdict hs
      simp [Job.stored, hnew]
  | abort => exact ⟨fun j job hj => ⟨job, hj, .refl job⟩, fun _ he => he⟩

/-- A verdict is an old one, or that of an activation without a check, or the step
is the check that gives it. -/
theorem verdict_of_next {cfg : ServerConfig} {a : ServerAct} (hn : s.next cfg a = some s')
    {j : Nat} {job : Job} (hj : s'.jobs j = some job) (hv : job.verdict ≠ none) :
    (∃ kob, s.jobs j = some kob ∧ kob.verdict = job.verdict ∧ kob.req = job.req) ∨
    job.req.cltNonce = 0 ∨
    ∃ kob r, s.jobs j = some kob ∧ kob.phase = .connSaved ∧ kob.req = job.req ∧
      s.checkResult job.req = some r ∧ job.verdict = some r.verdict ∧ s'.tables = r.tables := by
  have hset : ∀ {s₁ : Server} {l : Nat} {lob lob' : Job}, (s₁.setJob l lob').jobs j = some job →
      s₁.jobs = s.jobs → s.jobs l = some lob → lob'.req = lob.req → lob'.verdict = lob.verdict →
      ∃ kob, s.jobs j = some kob ∧ kob.verdict = job.verdict ∧ kob.req = job.req := by
    intro s₁ l lob lob' hk hjobs hl hreq hver
    rcases setJob_jobs_cases hk with ⟨rfl, rfl⟩ | ⟨-, hk⟩
    · exact ⟨lob, hl, hver.symm, hreq.symm⟩
    · exact ⟨job, hjobs ▸ hk, rfl, rfl⟩
  have hfresh : ∀ {s₁ : Server} {l : Nat} {lob' : Job}, (s₁.setJob l lob').jobs j = some job →
      s₁.jobs = s.jobs → lob'.verdict = none ∨ lob'.req.cltNonce = 0 →
      (∃ kob, s.jobs j = some kob ∧ kob.verdict = job.verdict ∧ kob.req = job.req) ∨
        job.req.cltNonce = 0 := by
    intro s₁ l lob' hk hjobs hnew
    rcases setJob_jobs_cases hk with ⟨rfl, rfl⟩ | ⟨-, hk⟩
    · exact .inr (hnew.resolve_left hv)
    · exact .inl ⟨job, hjobs ▸ hk, rfl, rfl⟩
  have hcheck : ∀ {s₁ : Server} {l : Nat} {lob lob' : Job} {r : ReplyTables.CheckResult},
      (s₁.setJob l lob').jobs j = some job → s₁.jobs = s.jobs → s.jobs l = some lob →
      lob.phase = .connSaved → s.checkResult lob.req = some r → lob'.req = lob.req →
      lob'.verdict = some r.verdict → s₁.tables = r.tables →
      (∃ kob, s.jobs j = some kob ∧ kob.verdict = job.verdict ∧ kob.req = job.req) ∨
        ∃ kob r, s.jobs j = some kob ∧ kob.phase = .connSaved ∧ kob.req = job.req ∧
          s.checkResult job.req = some r ∧ job.verdict = some r.verdict ∧
          s₁.tables = r.tables := by
    intro s₁ l lob lob' r hk hjobs hl hp hr hreq hver htab
    rcases setJob_jobs_cases hk with ⟨rfl, rfl⟩ | ⟨-, hk⟩
    · exact .inr ⟨lob, r, hl, hp, hreq.symm, hreq ▸ hr, hver, htab⟩
    · exact .inl ⟨job, hjobs ▸ hk, rfl, rfl⟩
  cases step_of_next hn with
  | oldServer => exact (hfresh hj rfl (.inl rfl)).imp_right .inl
  | optOut _ _ _ h0 => exact (hfresh hj rfl (.inr h0)).imp_right .inl
  | receive => exact (hfresh hj rfl (.inl rfl)).imp_right .inl
  | createWindow hl _ => exact .inl (hset hj rfl hl rfl rfl)
  | saveConn hl _ => exact .inl (hset hj rfl hl rfl rfl)
  | checkNew hl hp hr hv =>
      exact (hcheck hj rfl hl hp hr rfl (congrArg some hv.symm) rfl).imp_right .inr
  | checkInprogress hl hp hr hv =>
      exact (hcheck hj rfl hl hp hr rfl (congrArg some hv.symm) rfl).imp_right .inr
  | checkDone hl hp hr hv _ =>
      exact (hcheck hj rfl hl hp hr rfl (congrArg some hv.symm) rfl).imp_right .inr
  | checkForgotten hl hp hr hv =>
      exact (hcheck hj rfl hl hp hr rfl (congrArg some hv.symm) rfl).imp_right .inr
  | runHandler hl _ _ _ => exact .inl (hset hj rfl hl rfl rfl)
  | handlerAbort hl _ _ _ => exact .inl (hset hj rfl hl rfl rfl)
  | packReplyHeader hl _ => exact .inl (hset hj rfl hl rfl rfl)
  | addReplyOptOut hl _ _ => exact .inl (hset hj rfl hl rfl rfl)
  | addReply hl _ _ _ => exact .inl (hset hj rfl hl rfl rfl)
  | keepConn hl _ => exact .inl (hset hj rfl hl rfl rfl)
  | moveConn hl _ _ => exact .inl (hset hj rfl hl rfl rfl)
  | send hl _ => exact .inl (hset hj rfl hl rfl rfl)
  | abort => exact .inl ⟨job, hj, rfl, rfl⟩

/-! ## Exact verdicts -/

/-- While it executes, its reply is not added. -/
theorem Once.not_added_of_executing (ho : Once s) (hn : n ≠ 0) (h : s.Executing n x) {b : Ptr}
    {sz : Int} : ¬ s.Added n x b sz := by
  rintro ⟨e, -, kob, hk, hst, hreq, hen, hex, -, -⟩
  obtain ⟨j, job, hj, hv, hns, hjn, hjx⟩ := h
  have hjk : j = e.job := ho.unique j e.job job kob hj hk hv (Job.stored_verdict hst)
    (hjn.symm ▸ hn) (by rw [hjn, hreq, hen]) (by rw [hjx, hreq, hex])
  subst hjk
  rw [hj] at hk
  cases hk
  rw [hst] at hns
  cases hns

/-- The verdict `r` is exact for the request `(n, x)`. -/
structure Exact (s : Server) (n x : UInt32) (r : ReplyTables.CheckResult) : Prop where
  isNew : r.verdict = .new ↔ ¬ s.Processed n x
  inprogress : r.verdict = .inprogress ↔ s.Executing n x
  done : r.verdict = .done ↔ ∃ b sz, s.Added n x b sz
  /-- `*b` and `*sz` are what `add_reply` stored. -/
  reply : r.verdict = .done → ∃ e, r.reply = some e ∧ s.Added n x e.buf e.sz
  notForgotten : r.verdict ≠ .forgotten

/-- A processed request is not answered `NEW` again. -/
theorem Once.not_processed_of_new (ho : Once s) (hn : n ≠ 0) {a : UInt32}
    {r : ReplyTables.CheckResult} (hr : s.tables.checkduplicateAndUpdate n x a = some r)
    (hv : r.verdict = .new) : ¬ s.Processed n x := by
  rintro ⟨j, job, hj, hne, rfl, rfl⟩
  exact ReplyTables.not_remembers_of_new hr hv (ho.remembers j job hj hne hn)

/-- An accepted request is executing, or its reply is in the window, or it fell
below the bound. -/
theorem Cache.executing_or_entry (h : Cache s) (hn : n ≠ 0) (ha : s.Accepted n x) :
    s.Executing n x ∨ s.tables.Below n x ∨ ∃ e ∈ s.tables.window n, e.xid = x := by
  obtain ⟨j, job, hj, hv, rfl, rfl⟩ := ha
  by_cases hst : job.stored = true
  · exact .inr ((h.jobs j job hj).stored hst hn)
  · exact .inl ⟨j, job, hj, hv, by simpa using hst, rfl, rfl⟩

/-- Above the bound and the acknowledgement, the verdict is exact. -/
theorem classify (ho : Once s) (h : Cache s) (hw : (s.tables.replyWindow n).isSome) (hn : n ≠ 0)
    {a : UInt32} (hack : a < x) (hbound : ∀ lb, s.tables.replyLowerBound n = some lb → lb < x) :
    ∃ r, s.tables.checkduplicateAndUpdate n x a = some r ∧ Exact s n x r := by
  obtain ⟨t₁, fr, hraise⟩ := @ReplyTables.exists_raiseLowerBound s.tables n a h.wf hw
  obtain ⟨r, hr⟩ : ∃ r, s.tables.checkduplicateAndUpdate n x a = some r := by
    unfold ReplyTables.checkduplicateAndUpdate
    rw [hraise]
    exact ⟨_, rfl⟩
  have hkeeps := ReplyTables.Keeps.check hr
  have hnotAt : ¬ r.tables.AtOrBelow n x := by
    obtain ⟨t₂, hraise₂, ht, -, -⟩ := ReplyTables.checkduplicateAndUpdate_inv hr
    obtain ⟨b, hb, -, hba, -⟩ := ReplyTables.raiseLowerBound_bound hraise₂
    rintro ⟨lb, hlb, hle⟩
    rw [ht, ReplyTables.insertSeen_bound, hb] at hlb
    cases hlb
    rcases hba with rfl | hold
    · exact absurd hack (not_lt_of_ge hle)
    · exact absurd (hbound _ hold) (not_lt_of_ge hle)
  have hnotBelow : ¬ r.tables.Below n x := fun ⟨lb, hlb, hlt⟩ => hnotAt ⟨lb, hlb, le_of_lt hlt⟩
  have hreply : r.verdict = .done → ∃ e, r.reply = some e ∧ s.Added n x e.buf e.sz := by
    intro hv
    obtain ⟨e, he⟩ := ReplyTables.reply_of_done hr hv
    obtain ⟨hmem, hx⟩ := ReplyTables.reply_check hr he
    exact ⟨e, he, hx ▸ (h.entry n e (ReplyTables.window_check hr hmem)).2⟩
  -- which of the three it is
  have hcases : (r.verdict = .new ∧ ¬ s.Processed n x) ∨
      (r.verdict = .inprogress ∧ s.Executing n x) ∨
      (r.verdict = .done ∧ ∃ b sz, s.Added n x b sz) := by
    rcases ReplyTables.verdict_check hr with hv | ⟨hv, hseen⟩ | ⟨hv, -⟩ | ⟨-, hb⟩
    · exact .inl ⟨hv, ho.not_processed_of_new hn hr hv⟩
    · have hacc : s.Accepted n x := (h.origin (h.seen n x hseen) hn).resolve_right fun hb =>
        hnotAt (hkeeps.atOrBelow _ _ hb)
      rcases h.executing_or_entry hn hacc with hexec | hb | ⟨e, he, hx⟩
      · exact .inr (.inl ⟨hv, hexec⟩)
      · exact absurd (hkeeps.below _ _ hb) hnotBelow
      · rcases hkeeps.entry n e he with he' | hb
        · exact absurd hx (ReplyTables.not_mem_window_of_not_done hr (by simp [hv]) e he')
        · exact absurd (hx ▸ hb) hnotBelow
    · obtain ⟨e, -, hadd⟩ := hreply hv
      exact .inr (.inr ⟨hv, e.buf, e.sz, hadd⟩)
    · exact absurd hb hnotAt
  refine ⟨r, hr, ?_⟩
  rcases hcases with ⟨hv, hnp⟩ | ⟨hv, hexec⟩ | ⟨hv, b, sz, hadd⟩
  · have hne : ¬ s.Executing n x := fun hexec => hnp hexec.processed
    have hna : ¬ ∃ b sz, s.Added n x b sz := fun ⟨b, sz, hadd⟩ => hnp hadd.accepted.processed
    exact ⟨iff_of_true hv hnp, iff_of_false (by simp [hv]) hne, iff_of_false (by simp [hv]) hna,
      hreply, by simp [hv]⟩
  · have hna : ¬ ∃ b sz, s.Added n x b sz := fun ⟨_, _, hadd⟩ =>
      ho.not_added_of_executing hn hexec hadd
    exact ⟨iff_of_false (by simp [hv]) (not_not.mpr hexec.processed), iff_of_true hv hexec,
      iff_of_false (by simp [hv]) hna, hreply, by simp [hv]⟩
  · have hne : ¬ s.Executing n x := fun hexec => ho.not_added_of_executing hn hexec hadd
    exact ⟨iff_of_false (by simp [hv]) (not_not.mpr hadd.accepted.processed),
      iff_of_false (by simp [hv]) hne, iff_of_true hv ⟨b, sz, hadd⟩, hreply, by simp [hv]⟩

end Server

end RpcLock.Rpcs
