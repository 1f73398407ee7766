import RpcLock.Rpcs.ReplyLedger
import RpcLock.Rpcs.ReplyCache

/-!
# `dispatch` keeps the discipline of the ledger

Every run of a server instance makes a run of `ledgerMachine`: the three
critical sections under `reply_window_m_` are its calls, and the other steps of
`dispatch` do not touch the maps.  What was accepted as `NEW` and has not gone
through `add_reply` is what the ledger has pending.

So what is proved about arbitrary calls holds of the server, and in particular
`dispatch` never fails a `VERIFY` of the two functions.
-/

namespace RpcLock.Rpcs

/-- The activation was accepted as `NEW` and its reply is not stored yet. -/
def Job.Executes (job : Job) (n x : UInt32) : Prop :=
  job.verdict = some .new ∧ job.stored = false ∧ job.req.cltNonce = n ∧ job.req.xid = x

namespace Server

variable {s s' s₁ : Server} {l : Ledger} {j : Nat} {job job' : Job} {n x : UInt32}

/-! ## What is executing after a step -/

theorem executing_split : s.Executing n x ↔
    (∃ job, s.jobs j = some job ∧ job.Executes n x) ∨
      ∃ k kob, k ≠ j ∧ s.jobs k = some kob ∧ kob.Executes n x := by
  constructor
  · rintro ⟨k, kob, hk, hex⟩
    by_cases hkj : k = j
    · exact .inl ⟨kob, hkj ▸ hk, hex⟩
    · exact .inr ⟨k, kob, hkj, hk, hex⟩
  · rintro (⟨kob, hk, hex⟩ | ⟨k, kob, -, hk, hex⟩)
    · exact ⟨j, kob, hk, hex⟩
    · exact ⟨k, kob, hk, hex⟩

theorem executing_setJob (hjobs : s₁.jobs = s.jobs) : (s₁.setJob j job').Executing n x ↔
    job'.Executes n x ∨ ∃ k kob, k ≠ j ∧ s.jobs k = some kob ∧ kob.Executes n x := by
  rw [@executing_split _ j, setJob_jobs_self]
  refine or_congr ⟨?_, fun h => ⟨job', rfl, h⟩⟩ ?_
  · rintro ⟨job, he, hex⟩
    cases he
    exact hex
  · refine exists_congr fun k => exists_congr fun kob => and_congr_right fun hk => ?_
    rw [setJob_jobs_ne _ _ hk, hjobs]

/-- The entry of a job changes, but not whether it executes. -/
theorem executing_same (hjobs : s₁.jobs = s.jobs)
    (h : job'.Executes n x ↔ ∃ job, s.jobs j = some job ∧ job.Executes n x) :
    (s₁.setJob j job').Executing n x ↔ s.Executing n x := by
  rw [executing_setJob hjobs, @executing_split s j, h]

/-! ## The ledger of a server instance -/

/-- The ledger has the maps of the server, and pending what the server executes
for clients that want at-most-once. -/
structure Tracks (s : Server) (l : Ledger) : Prop where
  tables : l.tables = s.tables
  pending : ∀ n x, (n, x) ∈ l.filter.pending ↔ n ≠ 0 ∧ s.Executing n x
  /-- Only a client that wants at-most-once gets as far as the check. -/
  early : ∀ j job, s.jobs j = some job →
    job.phase = .unpacked ∨ job.phase = .windowReady ∨ job.phase = .connSaved →
    job.req.cltNonce ≠ 0

theorem tracks_init : Tracks Server.init Ledger.init where
  tables := rfl
  pending n x := by simp [Ledger.init, Filter.init, Server.init, Executing]
  early j job h := by simp [Server.init] at h

/-- The entry of a job changes, and what is left to show is about that job. -/
theorem Tracks.setJob {l' : Ledger} (h : Tracks s l) (hjobs : s₁.jobs = s.jobs)
    (htab : l'.tables = s₁.tables)
    (hpend : ∀ n x, (n, x) ∈ l'.filter.pending ↔ n ≠ 0 ∧ (s₁.setJob j job').Executing n x)
    (hearly : job'.phase = .unpacked ∨ job'.phase = .windowReady ∨ job'.phase = .connSaved →
      job'.req.cltNonce ≠ 0) : Tracks (s₁.setJob j job') l' where
  tables := htab
  pending := hpend
  early k kob hk hp := by
    rcases setJob_jobs_cases hk with ⟨rfl, rfl⟩ | ⟨-, hk⟩
    · exact hearly hp
    · exact h.early k kob (hjobs ▸ hk) hp

/-- A step that leaves the maps alone, and what executes. -/
theorem Tracks.move (h : Tracks s l) (hjobs : s₁.jobs = s.jobs) (htab : s₁.tables = s.tables)
    (hex : ∀ n x, n ≠ 0 → (job'.Executes n x ↔ ∃ job, s.jobs j = some job ∧ job.Executes n x))
    (hearly : job'.phase = .unpacked ∨ job'.phase = .windowReady ∨ job'.phase = .connSaved →
      job'.req.cltNonce ≠ 0) : Tracks (s₁.setJob j job') l := by
  refine h.setJob hjobs (h.tables.trans htab.symm) (fun n x => ?_) hearly
  rw [h.pending n x]
  exact and_congr_right fun hn => (executing_same hjobs (hex n x hn)).symm

/-- The activation after a step executes what the one before it did. -/
theorem executes_same (hj : s.jobs j = some job) (h : job'.Executes n x ↔ job.Executes n x) :
    job'.Executes n x ↔ ∃ job, s.jobs j = some job ∧ job.Executes n x := by
  rw [h]
  refine ⟨fun hex => ⟨job, hj, hex⟩, ?_⟩
  rintro ⟨kob, hk, hex⟩
  rw [hj] at hk
  cases hk
  exact hex

/-- A new activation without a verdict executes nothing. -/
theorem executes_fresh (hj : s.jobs j = none) (hex : ¬ job'.Executes n x) :
    job'.Executes n x ↔ ∃ job, s.jobs j = some job ∧ job.Executes n x := by
  simp [hj, hex]

theorem not_executes_of_verdict (h : job.verdict ≠ some .new) : ¬ job.Executes n x :=
  fun hex => h hex.1

theorem executes_none (h : job.verdict = none) (h' : job'.verdict = none) :
    job'.Executes n x ↔ job.Executes n x :=
  iff_of_false (not_executes_of_verdict (by simp [h'])) (not_executes_of_verdict (by simp [h]))

/-- The check of the server is the check of the ledger. -/
theorem Tracks.check (h : Tracks s l) (hl : ledgerMachine.Reachable l) (ho : Once s) (hc : Cache s)
    {r : ReplyTables.CheckResult} (hj : s.jobs j = some job) (hp : job.phase = .connSaved)
    (hr : s.checkResult job.req = some r) (hjobs : s₁.jobs = s.jobs) (htab : s₁.tables = r.tables)
    (hreq : job'.req = job.req) (hv : job'.verdict = some r.verdict) (hst : job'.stored = false)
    (hphase : job'.phase ≠ .unpacked ∧ job'.phase ≠ .windowReady ∧ job'.phase ≠ .connSaved) :
    ∃ l', ledgerMachine.Reachable l' ∧ Tracks (s₁.setJob j job') l' := by
  have hready : (l.tables.replyWindow job.req.cltNonce).isSome :=
    h.tables ▸ (hc.jobs j job hj).ready (.inr (.inl hp))
  have hn : job.req.cltNonce ≠ 0 := h.early j job hj (.inr (.inr hp))
  have hnone : job.verdict = none := ho.early j job hj (.inr (.inr hp))
  have hr' : l.tables.checkduplicateAndUpdate job.req.cltNonce job.req.xid job.req.xidRep =
      some r := by
    rw [h.tables]
    exact hr
  obtain ⟨l', hl', ht', hp'⟩ := Ledger.exists_next_check hready hr'
  refine ⟨l', Ledger.reachable_next hl hl', h.setJob hjobs (ht'.trans htab.symm) (fun m y => ?_) ?_⟩
  · -- the pair of the job starts to execute exactly on `NEW`
    have hself : job'.Executes m y ↔
        r.verdict = .new ∧ m = job.req.cltNonce ∧ y = job.req.xid := by
      unfold Job.Executes
      rw [hv, hst, hreq]
      simp [eq_comm]
    have hold : s.Executing m y ↔ ∃ k kob, k ≠ j ∧ s.jobs k = some kob ∧ kob.Executes m y := by
      rw [@executing_split s j]
      refine or_iff_right ?_
      rintro ⟨kob, hk, hex⟩
      rw [hj] at hk
      cases hk
      exact not_executes_of_verdict (by simp [hnone]) hex
    rw [executing_setJob hjobs, ← hold, hself, hp']
    split
    · next hnew =>
        rw [List.mem_cons, h.pending m y, Prod.mk.injEq]
        constructor
        · rintro (⟨rfl, rfl⟩ | ⟨hm, hex⟩)
          · exact ⟨hn, .inl ⟨hnew, rfl, rfl⟩⟩
          · exact ⟨hm, .inr hex⟩
        · rintro ⟨hm, ⟨-, he⟩ | hex⟩
          · exact .inl he
          · exact .inr ⟨hm, hex⟩
    · next hnew =>
        rw [h.pending m y]
        simp [hnew]
  · rintro (hp | hp | hp)
    · exact absurd hp hphase.1
    · exact absurd hp hphase.2.1
    · exact absurd hp hphase.2.2

/-- So is `add_reply`. -/
theorem Tracks.addReply (h : Tracks s l) (hl : ledgerMachine.Reachable l) (ho : Once s)
    (hc : Cache s) {ret : Int} {out : List UInt8} {t : ReplyTables} (hj : s.jobs j = some job)
    (hp : job.phase = .packed ret out) (hn : job.req.cltNonce ≠ 0) {b : Ptr} {sz : Int}
    (ht : s.tables.addReply job.req.cltNonce job.req.xid b sz = some t)
    (hjobs : s₁.jobs = s.jobs) (htab : s₁.tables = t)
    (hjob' : job' = { job with phase := .stored b sz }) :
    ∃ l', ledgerMachine.Reachable l' ∧ Tracks (s₁.setJob j job') l' := by
  obtain ⟨hnew, -⟩ := (hc.jobs j job hj).ran ret out (.inr hp)
  have hexec : job.Executes job.req.cltNonce job.req.xid :=
    ⟨hnew, by simp [Job.stored, hnew, hp], rfl, rfl⟩
  have hpend : (job.req.cltNonce, job.req.xid) ∈ l.filter.pending :=
    (h.pending _ _).mpr ⟨hn, j, job, hj, hexec⟩
  obtain ⟨l', hl', ht', hp'⟩ := Ledger.exists_next_addReply hpend (h.tables.symm ▸ ht)
  have hnodup := (Ledger.inv_of_reachable hl).nodup
  refine ⟨l', Ledger.reachable_next hl hl', h.setJob hjobs (ht'.trans htab.symm)
    (fun m y => ?_) (by simp [hjob'])⟩
  have hself : ¬ job'.Executes m y := by
    rintro ⟨-, hst, -⟩
    simp [hjob', Job.stored, hnew] at hst
  rw [executing_setJob hjobs, or_iff_right hself, hp', hnodup.mem_erase_iff, h.pending m y]
  constructor
  · rintro ⟨hne, hm, hex⟩
    refine ⟨hm, (executing_split.mp hex).resolve_left ?_⟩
    rintro ⟨kob, hk, -, -, hkn, hkx⟩
    rw [hj] at hk
    cases hk
    exact hne (by rw [← hkn, ← hkx])
  · rintro ⟨hm, k, kob, hkj, hk, hex⟩
    refine ⟨?_, hm, k, kob, hk, hex⟩
    -- no other activation was accepted for the pair
    rintro ⟨⟩
    exact hkj (ho.unique k j kob job hk hj hex.1 hnew (by rw [hex.2.2.1]; exact hn) hex.2.2.1
      hex.2.2.2)

theorem tracks_next {cfg : ServerConfig} {a : ServerAct} (ho : Once s) (hc : Cache s)
    (h : Tracks s l) (hl : ledgerMachine.Reachable l) (hn : s.next cfg a = some s') :
    ∃ l', ledgerMachine.Reachable l' ∧ Tracks s' l' := by
  cases step_of_next hn with
  | oldServer hj _ _ _ =>
      exact ⟨l, hl, h.move rfl rfl (fun n x _ => executes_fresh hj
        (not_executes_of_verdict (by simp))) (by simp)⟩
  | optOut hj _ _ hz =>
      exact ⟨l, hl, h.move rfl rfl (fun n x hn => executes_fresh hj
        fun hex => hn (hex.2.2.1.symm.trans hz)) (by simp)⟩
  | receive hj _ _ hz =>
      exact ⟨l, hl, h.move rfl rfl (fun n x _ => executes_fresh hj
        (not_executes_of_verdict (by simp))) fun _ => hz⟩
  | @createWindow j job hj hp =>
      have hnone := ho.early j job hj (.inl hp)
      obtain ⟨l', hl', ht', hp'⟩ := Ledger.exists_next_createWindow l job.req.cltNonce
      refine ⟨l', Ledger.reachable_next hl hl', h.setJob rfl ?_ (fun n x => ?_)
        fun _ => h.early j job hj (.inl hp)⟩
      · rw [ht', h.tables]
      · rw [hp', h.pending n x]
        exact and_congr_right fun _ => Iff.symm (executing_same rfl
          (executes_same hj (executes_none hnone hnone)))
  | @saveConn j job hj hp =>
      have hnone := ho.early j job hj (.inr (.inl hp))
      exact ⟨l, hl, h.move rfl rfl (fun n x _ => executes_same hj (executes_none hnone hnone))
        fun _ => h.early j job hj (.inr (.inl hp))⟩
  | checkNew hj hp hr hv =>
      exact h.check hl ho hc hj hp hr rfl rfl rfl (by rw [hv]) (by simp [Job.stored]) (by simp)
  | checkInprogress hj hp hr hv =>
      exact h.check hl ho hc hj hp hr rfl rfl rfl (by rw [hv]) (by simp [Job.stored]) (by simp)
  | checkDone hj hp hr hv _ =>
      exact h.check hl ho hc hj hp hr rfl rfl rfl (by rw [hv]) (by simp [Job.stored]) (by simp)
  | checkForgotten hj hp hr hv =>
      exact h.check hl ho hc hj hp hr rfl rfl rfl (by rw [hv]) (by simp [Job.stored]) (by simp)
  | runHandler hj hp _ _ =>
      exact ⟨l, hl, h.move rfl rfl (fun n x _ => executes_same hj
        (by simp [Job.Executes, Job.stored, hp])) (by simp)⟩
  | @handlerAbort j job ret out hj hp _ _ =>
      have hm : Tracks (s.afterHandler j job ret out) l :=
        h.move rfl rfl (fun n x _ => executes_same hj (by simp [Job.Executes, Job.stored, hp]))
          (by simp)
      exact ⟨l, hl, hm.tables, hm.pending, hm.early⟩
  | packReplyHeader hj hp =>
      exact ⟨l, hl, h.move rfl rfl (fun n x _ => executes_same hj
        (by simp [Job.Executes, Job.stored, hp])) (by simp)⟩
  | addReplyOptOut hj _ hz =>
      exact ⟨l, hl, h.move rfl rfl (fun n x hn => executes_same hj (iff_of_false
        (fun hex => hn (hex.2.2.1.symm.trans hz)) fun hex => hn (hex.2.2.1.symm.trans hz)))
        (by simp)⟩
  | addReply hj hp hz ht => exact h.addReply hl ho hc hj hp hz ht rfl rfl rfl
  | @keepConn j job dead b sz hj hp =>
      have hnew := (hc.jobs _ _ hj).isNew _ _ hp
      exact ⟨l, hl, h.move rfl rfl (fun n x _ => executes_same hj
        (by simp [Job.Executes, Job.stored, hp, hnew])) (by simp)⟩
  | moveConn hj hp _ =>
      have hnew := (hc.jobs _ _ hj).isNew _ _ hp
      exact ⟨l, hl, h.move rfl rfl (fun n x _ => executes_same hj
        (by simp [Job.Executes, Job.stored, hp, hnew])) (by simp)⟩
  | @send j job b sz hj hp =>
      refine ⟨l, hl, h.move rfl rfl (fun n x _ => executes_same hj ?_) (by simp)⟩
      unfold Job.Executes Job.stored
      rw [hp]
      split <;> simp_all
  | abort => exact ⟨l, hl, h.tables, h.pending, h.early⟩

/-- Every reachable server has a reachable ledger. -/
theorem exists_ledger {cfg : ServerConfig} (h : (serverMachine cfg).Reachable s) :
    ∃ l, ledgerMachine.Reachable l ∧ Tracks s l := by
  refine (h.invariant (P := fun s => (Once s ∧ Cache s) ∧
    ∃ l, ledgerMachine.Reachable l ∧ Tracks s l) ?_ ?_).2
  · exact ⟨⟨once_init, cache_init⟩, _, .init, tracks_init⟩
  · rintro s s' a ⟨⟨ho, hc⟩, l, hl, ht⟩ hn
    exact ⟨⟨once_next ho hn, cache_next ho hc hn⟩, tracks_next ho hc ht hl hn⟩

/-- The check of `dispatch` fails no `VERIFY`. -/
theorem checkResult_isSome {cfg : ServerConfig} (h : (serverMachine cfg).Reachable s)
    (hj : s.jobs j = some job) (hp : job.phase = .connSaved) :
    (s.checkResult job.req).isSome := by
  obtain ⟨-, hc⟩ := cache_of_reachable h
  obtain ⟨r, hr⟩ := @ReplyTables.exists_check s.tables job.req.cltNonce job.req.xid
    job.req.xidRep hc.wf ((hc.jobs j job hj).ready (.inr (.inl hp)))
  exact Option.isSome_iff_exists.mpr ⟨r, hr⟩

/-- Neither does its `add_reply`. -/
theorem addReply_isSome {cfg : ServerConfig} (h : (serverMachine cfg).Reachable s)
    (hj : s.jobs j = some job) {ret : Int} {out : List UInt8} (hp : job.phase = .packed ret out)
    (hn : job.req.cltNonce ≠ 0) (b : Ptr) (sz : Int) :
    (s.tables.addReply job.req.cltNonce job.req.xid b sz).isSome := by
  obtain ⟨-, hc⟩ := cache_of_reachable h
  obtain ⟨l, hl, htr⟩ := exists_ledger h
  obtain ⟨hnew, -⟩ := (hc.jobs j job hj).ran ret out (.inr hp)
  have hinv := Ledger.inv_of_reachable hl
  have hpend : (job.req.cltNonce, job.req.xid) ∈ l.filter.pending :=
    (htr.pending _ _).mpr ⟨hn, j, job, hj, hnew, by simp [Job.stored, hnew, hp], rfl, rfl⟩
  rw [← htr.tables]
  obtain ⟨t, ht⟩ := @ReplyTables.exists_addReply l.tables job.req.cltNonce job.req.xid b sz
    (hinv.pending _ _ hpend).1 (hinv.not_mem_window hpend)
  exact Option.isSome_iff_exists.mpr ⟨t, ht⟩

end Server

end RpcLock.Rpcs
