import RpcLock.Rpcs.DispatchSteps

/-!
# At most once on the server

Two machines share the filter.  `filterMachine` drives the three critical
sections of `reply_window_m_` directly, with arbitrary arguments: any client,
any xid, any acknowledgement, lying or stale.  Its only discipline is that of
`dispatch`: `add_reply` is called once and only after a `NEW` verdict.
`serverMachine` runs whole activations of `dispatch` under arbitrary requests.

In both, `NEW` is answered only for an xid that is not remembered, and every
submitted xid is remembered from then on.
-/

namespace RpcLock.Rpcs

/-! ## Arbitrary traffic on the three maps -/

/-- A call under `reply_window_m_`. -/
inductive FilterCall where
  | createWindow (n : UInt32)
  | check (n x a : UInt32)
  | addReply (n x : UInt32) (b : Ptr) (sz : Int)
deriving DecidableEq, Repr

/-- The maps, the `NEW` verdicts not yet followed by `add_reply`, and every
verdict given so far, oldest last. -/
structure Filter where
  tables : ReplyTables
  pending : List (UInt32 × UInt32)
  verdicts : List (UInt32 × UInt32 × RpcState)

namespace Filter

def init : Filter := ⟨.empty, [], []⟩

/-- One call.  `none` when a `VERIFY` fails, or when `dispatch` would not make
the call. -/
def next (s : Filter) : FilterCall → Option Filter
  | .createWindow n => some { s with tables := s.tables.createWindow n }
  | .check n x a =>
      match s.tables.checkduplicateAndUpdate n x a with
      | none => none
      | some r => some {
          tables := r.tables
          pending := if r.verdict = .new then (n, x) :: s.pending else s.pending
          verdicts := (n, x, r.verdict) :: s.verdicts }
  | .addReply n x b sz =>
      if (n, x) ∈ s.pending then
        match s.tables.addReply n x b sz with
        | none => none
        | some t => some { s with tables := t, pending := s.pending.erase (n, x) }
      else none

end Filter

/-- The filter under arbitrary traffic. -/
def filterMachine : Machine Filter FilterCall where
  init := .init
  next := Filter.next

namespace Filter

/-- Every answered xid is remembered, and no pair got `NEW` twice. -/
structure Once (s : Filter) : Prop where
  remembers : ∀ n x v, (n, x, v) ∈ s.verdicts → s.tables.Remembers n x
  once : ∀ n x, s.verdicts.count (n, x, .new) ≤ 1

theorem once_init : Once Filter.init where
  remembers := by
    intro n x v h
    cases h
  once n x := by simp [Filter.init]

theorem once_next {s s' : Filter} {c : FilterCall} (h : Once s) (hn : s.next c = some s') :
    Once s' := by
  cases c with
  | createWindow n =>
      cases hn
      exact ⟨fun m y v hm => (h.remembers m y v hm).createWindow, h.once⟩
  | check n x a =>
      simp only [Filter.next] at hn
      cases hr : s.tables.checkduplicateAndUpdate n x a with
      | none => simp [hr] at hn
      | some r =>
          simp only [hr, Option.some.injEq] at hn
          subst hn
          constructor
          · intro m y v hm
            rcases List.mem_cons.mp hm with he | hm
            · cases he
              exact ReplyTables.remembers_of_check hr
            · exact (h.remembers m y v hm).check hr
          · intro m y
            by_cases hnew : r.verdict = .new ∧ m = n ∧ y = x
            · obtain ⟨hv, rfl, rfl⟩ := hnew
              -- the pair was not remembered, so it was never answered before
              have hnot : (m, y, RpcState.new) ∉ s.verdicts := fun hm =>
                ReplyTables.not_remembers_of_new hr hv (h.remembers m y _ hm)
              simp [hv, List.count_eq_zero_of_not_mem hnot]
            · have hne : (n, x, r.verdict) ≠ (m, y, RpcState.new) := by
                intro he
                simp only [Prod.mk.injEq] at he
                exact hnew ⟨he.2.2, he.1.symm, he.2.1.symm⟩
              rw [List.count_cons_of_ne hne]
              exact h.once m y
  | addReply n x b sz =>
      simp only [Filter.next] at hn
      split at hn
      · cases hr : s.tables.addReply n x b sz with
        | none => simp [hr] at hn
        | some t =>
            simp only [hr, Option.some.injEq] at hn
            subst hn
            exact ⟨fun m y v hm => (h.remembers m y v hm).addReply hr, h.once⟩
      · cases hn

theorem once_of_reachable {s : Filter} (h : filterMachine.Reachable s) : Once s :=
  h.invariant once_init fun _ _ _ hs hn => once_next hs hn

end Filter

/-! ## Whole activations of `dispatch` -/

namespace Server

/-- The activations that passed `checkduplicate_and_update` are remembered, at
most one of them was accepted for each pair, and only an accepted one runs its
handler, once. -/
structure Once (s : Server) : Prop where
  /-- Before the check there is no verdict. -/
  early : ∀ j job, s.jobs j = some job →
    job.phase = .unpacked ∨ job.phase = .windowReady ∨ job.phase = .connSaved →
    job.verdict = none
  accepted : ∀ j job, s.jobs j = some job → job.phase = .accepted → job.verdict = some .new
  remembers : ∀ j job, s.jobs j = some job → job.verdict ≠ none → job.req.cltNonce ≠ 0 →
    s.tables.Remembers job.req.cltNonce job.req.xid
  unique : ∀ j k job job', s.jobs j = some job → s.jobs k = some job' →
    job.verdict = some .new → job'.verdict = some .new → job.req.cltNonce ≠ 0 →
    job.req.cltNonce = job'.req.cltNonce → job.req.xid = job'.req.xid → j = k
  exec_job : ∀ e ∈ s.execs, ∃ job, s.jobs e.job = some job ∧ job.req = e.req ∧
    job.verdict = some .new ∧ job.phase ≠ .accepted
  exec_nodup : (s.execs.map Exec.job).Nodup

theorem once_init : Once Server.init where
  early := by simp [Server.init]
  accepted := by simp [Server.init]
  remembers := by simp [Server.init]
  unique := by simp [Server.init]
  exec_job := by simp [Server.init]
  exec_nodup := by simp [Server.init]

theorem Once.abort {s : Server} (h : Once s) : Once s.abort :=
  ⟨h.early, h.accepted, h.remembers, h.unique, h.exec_job, h.exec_nodup⟩

section Moves

variable {s s₁ : Server} {j : Nat} {job job' : Job}

/-- A step that keeps the request and the verdict of its job, forgets nothing
and runs no handler. -/
theorem Once.move (h : Once s) (hjobs : s₁.jobs = s.jobs) (hex : s₁.execs = s.execs)
    (hmem : ∀ n x, s.tables.Remembers n x → s₁.tables.Remembers n x)
    (hj : s.jobs j = some job) (hreq : job'.req = job.req) (hv : job'.verdict = job.verdict)
    (hearly : job'.phase = .unpacked ∨ job'.phase = .windowReady ∨ job'.phase = .connSaved →
      job.verdict = none)
    (hacc : job'.phase ≠ .accepted) : Once (s₁.setJob j job') := by
  have hold : ∀ k kob, (s₁.setJob j job').jobs k = some kob →
      ∃ kob', s.jobs k = some kob' ∧ kob.req = kob'.req ∧ kob.verdict = kob'.verdict := by
    intro k kob hk
    rcases setJob_jobs_cases hk with ⟨rfl, rfl⟩ | ⟨-, hk⟩
    · exact ⟨job, hj, hreq, hv⟩
    · exact ⟨kob, hjobs ▸ hk, rfl, rfl⟩
  constructor
  · intro k kob hk hp
    rcases setJob_jobs_cases hk with ⟨rfl, rfl⟩ | ⟨-, hk⟩
    · rw [hv]
      exact hearly hp
    · exact h.early k kob (hjobs ▸ hk) hp
  · intro k kob hk hp
    rcases setJob_jobs_cases hk with ⟨rfl, rfl⟩ | ⟨-, hk⟩
    · exact absurd hp hacc
    · exact h.accepted k kob (hjobs ▸ hk) hp
  · intro k kob hk hne hz
    obtain ⟨kob', hk', hr, hvk⟩ := hold k kob hk
    rw [hr] at hz ⊢
    rw [hvk] at hne
    exact hmem _ _ (h.remembers k kob' hk' hne hz)
  · intro k l kob lob hk hl hkv hlv hz hn hx
    obtain ⟨kob', hk', hkr, hkv'⟩ := hold k kob hk
    obtain ⟨lob', hl', hlr, hlv'⟩ := hold l lob hl
    rw [hkr] at hz
    rw [hkr, hlr] at hn hx
    exact h.unique k l kob' lob' hk' hl' (hkv' ▸ hkv) (hlv' ▸ hlv) hz hn hx
  · intro e he
    rw [setJob_execs, hex] at he
    obtain ⟨kob, hk, hr, hvk, hp⟩ := h.exec_job e he
    by_cases hjk : e.job = j
    · rw [hjk] at hk ⊢
      rw [hj] at hk
      cases hk
      exact ⟨job', setJob_jobs_self _ _ _, hreq.trans hr, hv.trans hvk, hacc⟩
    · exact ⟨kob, by rw [setJob_jobs_ne _ _ hjk, hjobs]; exact hk, hr, hvk, hp⟩
  · rw [setJob_execs, hex]
    exact h.exec_nodup

/-- A new activation: nothing but its own entry is added. -/
theorem Once.fresh (h : Once s) (hjobs : s₁.jobs = s.jobs) (hex : s₁.execs = s.execs)
    (htab : s₁.tables = s.tables) (hj : s.jobs j = none)
    (hv : job'.verdict = none ∧ job'.phase ≠ .accepted ∨
      job'.verdict = some .new ∧ job'.req.cltNonce = 0 ∧ job'.phase = .accepted) :
    Once (s₁.setJob j job') := by
  constructor
  · intro k kob hk hp
    rcases setJob_jobs_cases hk with ⟨rfl, rfl⟩ | ⟨-, hk⟩
    · rcases hv with ⟨hv, -⟩ | ⟨-, -, hph⟩
      · exact hv
      · simp [hph] at hp
    · exact h.early k kob (hjobs ▸ hk) hp
  · intro k kob hk hp
    rcases setJob_jobs_cases hk with ⟨rfl, rfl⟩ | ⟨-, hk⟩
    · rcases hv with ⟨-, hph⟩ | ⟨hv, -, -⟩
      · exact absurd hp hph
      · exact hv
    · exact h.accepted k kob (hjobs ▸ hk) hp
  · intro k kob hk hne hz
    rw [setJob_tables, htab]
    rcases setJob_jobs_cases hk with ⟨rfl, rfl⟩ | ⟨-, hk⟩
    · rcases hv with ⟨hv, -⟩ | ⟨-, hz', -⟩
      · exact absurd hv hne
      · exact absurd hz' hz
    · exact h.remembers k kob (hjobs ▸ hk) hne hz
  · -- an accepted entry of a client with a nonce is an old one
    have hold : ∀ k kob, (s₁.setJob j job').jobs k = some kob → kob.verdict = some .new →
        kob.req.cltNonce ≠ 0 → s.jobs k = some kob := by
      intro k kob hk hkv hz
      rcases setJob_jobs_cases hk with ⟨rfl, rfl⟩ | ⟨-, hk⟩
      · rcases hv with ⟨hv, -⟩ | ⟨-, hz', -⟩
        · rw [hv] at hkv
          cases hkv
        · exact absurd hz' hz
      · exact hjobs ▸ hk
    intro k l kob lob hk hl hkv hlv hz hn hx
    exact h.unique k l kob lob (hold k kob hk hkv hz) (hold l lob hl hlv (hn ▸ hz)) hkv hlv hz hn hx
  · intro e he
    rw [setJob_execs, hex] at he
    obtain ⟨kob, hk, hrest⟩ := h.exec_job e he
    have hjk : e.job ≠ j := by
      intro hjk
      rw [hjk, hj] at hk
      cases hk
    exact ⟨kob, by rw [setJob_jobs_ne _ _ hjk, hjobs]; exact hk, hrest⟩
  · rw [setJob_execs, hex]
    exact h.exec_nodup

/-- The check gives its job a verdict. -/
theorem Once.check (h : Once s) {r : ReplyTables.CheckResult} (hjobs : s₁.jobs = s.jobs)
    (hex : s₁.execs = s.execs) (hr : s.checkResult job.req = some r) (htab : s₁.tables = r.tables)
    (hj : s.jobs j = some job) (hp : job.phase = .connSaved) (hreq : job'.req = job.req)
    (hv : job'.verdict = some r.verdict)
    (hphase : job'.phase = .accepted ∧ r.verdict = .new ∨
      job'.phase ≠ .accepted ∧ job'.phase ≠ .unpacked ∧ job'.phase ≠ .windowReady ∧
        job'.phase ≠ .connSaved) :
    Once (s₁.setJob j job') := by
  have hnone : job.verdict = none := h.early j job hj (.inr (.inr hp))
  constructor
  · intro k kob hk hpk
    rcases setJob_jobs_cases hk with ⟨rfl, rfl⟩ | ⟨-, hk⟩
    · rcases hphase with ⟨hph, -⟩ | ⟨-, h1, h2, h3⟩
      · simp [hph] at hpk
      · simp [h1, h2, h3] at hpk
    · exact h.early k kob (hjobs ▸ hk) hpk
  · intro k kob hk hpk
    rcases setJob_jobs_cases hk with ⟨rfl, rfl⟩ | ⟨-, hk⟩
    · rcases hphase with ⟨-, hnew⟩ | ⟨hne, -⟩
      · rw [hv, hnew]
      · exact absurd hpk hne
    · exact h.accepted k kob (hjobs ▸ hk) hpk
  · intro k kob hk hne hz
    rw [setJob_tables, htab]
    rcases setJob_jobs_cases hk with ⟨rfl, rfl⟩ | ⟨-, hk⟩
    · rw [hreq]
      exact ReplyTables.remembers_of_check hr
    · exact (h.remembers k kob (hjobs ▸ hk) hne hz).check hr
  · -- a second accepted activation of the pair would have been remembered
    have hclash : ∀ k kob, s.jobs k = some kob → r.verdict = .new → kob.verdict = some .new →
        kob.req.cltNonce ≠ 0 → kob.req.cltNonce = job.req.cltNonce →
        kob.req.xid = job.req.xid → False := by
      intro k kob hk hnew hkv hz hn hx
      have hrem := h.remembers k kob hk (by simp [hkv]) hz
      rw [hn, hx] at hrem
      exact ReplyTables.not_remembers_of_new hr hnew hrem
    intro k l kob lob hk hl hkv hlv hz hn hx
    rcases setJob_jobs_cases hk with ⟨rfl, rfl⟩ | ⟨-, hk'⟩ <;>
      rcases setJob_jobs_cases hl with ⟨rfl, rfl⟩ | ⟨-, hl'⟩
    · rfl
    · rw [hv, Option.some.injEq] at hkv
      rw [hreq] at hz hn hx
      exact (hclash l lob (hjobs ▸ hl') hkv hlv (hn ▸ hz) hn.symm hx.symm).elim
    · rw [hv, Option.some.injEq] at hlv
      rw [hreq] at hn hx
      exact (hclash k kob (hjobs ▸ hk') hlv hkv hz hn hx).elim
    · exact h.unique k l kob lob (hjobs ▸ hk') (hjobs ▸ hl') hkv hlv hz hn hx
  · intro e he
    rw [setJob_execs, hex] at he
    obtain ⟨kob, hk, hr', hvk, hpk⟩ := h.exec_job e he
    have hjk : e.job ≠ j := by
      intro hjk
      rw [hjk, hj] at hk
      cases hk
      rw [hnone] at hvk
      cases hvk
    exact ⟨kob, by rw [setJob_jobs_ne _ _ hjk, hjobs]; exact hk, hr', hvk, hpk⟩
  · rw [setJob_execs, hex]
    exact h.exec_nodup

/-- The handler of an accepted job runs. -/
theorem Once.runHandler (h : Once s) (ret : Int) (out : List UInt8)
    (hj : s.jobs j = some job) (hp : job.phase = .accepted) :
    Once (s.afterHandler j job ret out) := by
  have hacc : job.verdict = some .new := h.accepted j job hj hp
  have hmove : Once (s.setJob j { job with phase := .ran ret out }) :=
    h.move rfl rfl (fun _ _ hm => hm) hj rfl rfl (by simp) (by simp)
  have hnotin : j ∉ s.execs.map Exec.job := by
    intro hm
    obtain ⟨e, he, rfl⟩ := List.mem_map.mp hm
    obtain ⟨kob, hk, -, -, hne⟩ := h.exec_job e he
    rw [hj] at hk
    cases hk
    exact hne hp
  refine ⟨hmove.early, hmove.accepted, hmove.remembers, hmove.unique, ?_, ?_⟩
  · intro e he
    rcases List.mem_append.mp he with he | he
    · exact hmove.exec_job e he
    · rw [List.mem_singleton] at he
      subst he
      exact ⟨_, setJob_jobs_self _ _ _, rfl, hacc, by simp⟩
  · change ((s.execs ++ [(⟨j, job.req, ret, out⟩ : Exec)]).map Exec.job).Nodup
    rw [List.map_append]
    exact List.nodup_append.mpr ⟨h.exec_nodup, by simp, by
      intro k hk l hl
      rw [List.map_singleton, List.mem_singleton] at hl
      subst hl
      rintro rfl
      exact hnotin hk⟩

end Moves

theorem once_next {cfg : ServerConfig} {s s' : Server} {a : ServerAct} (h : Once s)
    (hn : s.next cfg a = some s') : Once s' := by
  cases step_of_next hn with
  | oldServer hj _ _ _ => exact h.fresh rfl rfl rfl hj (.inl ⟨rfl, by simp⟩)
  | optOut hj _ _ hz => exact h.fresh rfl rfl rfl hj (.inr ⟨rfl, hz, rfl⟩)
  | receive hj _ _ _ => exact h.fresh rfl rfl rfl hj (.inl ⟨rfl, by simp⟩)
  | createWindow hj hp =>
      exact h.move rfl rfl (fun _ _ hm => hm.createWindow) hj rfl rfl
        (fun _ => h.early _ _ hj (.inl hp)) (by simp)
  | saveConn hj hp =>
      exact h.move rfl rfl (fun _ _ hm => hm) hj rfl rfl
        (fun _ => h.early _ _ hj (.inr (.inl hp))) (by simp)
  | checkNew hj hp hr hv => exact h.check rfl rfl hr rfl hj hp rfl (by rw [hv]) (.inl ⟨rfl, hv⟩)
  | checkInprogress hj hp hr hv =>
      exact h.check rfl rfl hr rfl hj hp rfl (by rw [hv]) (.inr (by simp))
  | checkDone hj hp hr hv _ =>
      exact h.check rfl rfl hr rfl hj hp rfl (by rw [hv]) (.inr (by simp))
  | checkForgotten hj hp hr hv =>
      exact h.check rfl rfl hr rfl hj hp rfl (by rw [hv]) (.inr (by simp))
  | runHandler hj hp _ _ => exact h.runHandler _ _ hj hp
  | handlerAbort hj hp _ _ => exact (h.runHandler _ _ hj hp).abort
  | packReplyHeader hj _ => exact h.move rfl rfl (fun _ _ hm => hm) hj rfl rfl (by simp) (by simp)
  | addReplyOptOut hj _ _ =>
      exact h.move rfl rfl (fun _ _ hm => hm) hj rfl rfl (by simp) (by simp)
  | addReply hj _ _ ht =>
      exact h.move rfl rfl (fun _ _ hm => hm.addReply ht) hj rfl rfl (by simp) (by simp)
  | keepConn hj _ => exact h.move rfl rfl (fun _ _ hm => hm) hj rfl rfl (by simp) (by simp)
  | moveConn hj _ _ => exact h.move rfl rfl (fun _ _ hm => hm) hj rfl rfl (by simp) (by simp)
  | send hj _ => exact h.move rfl rfl (fun _ _ hm => hm) hj rfl rfl (by simp) (by simp)
  | abort => exact h.abort

theorem once_of_reachable {cfg : ServerConfig} {s : Server}
    (h : (serverMachine cfg).Reachable s) : Once s :=
  h.invariant once_init fun _ _ _ hs hn => once_next hs hn

/-- The handler executions for one request of one client. -/
def runs (s : Server) (n x : UInt32) : List Exec :=
  s.execs.filter fun e => decide (e.req.cltNonce = n ∧ e.req.xid = x)

theorem mem_runs {s : Server} {n x : UInt32} {e : Exec} :
    e ∈ s.runs n x ↔ e ∈ s.execs ∧ e.req.cltNonce = n ∧ e.req.xid = x := by
  simp [runs]

/-- Two executions for the same request are the same one. -/
theorem Once.runs_length_le {s : Server} (h : Once s) {n : UInt32} (hn : n ≠ 0) (x : UInt32) :
    (s.runs n x).length ≤ 1 := by
  have hnodup : ((s.runs n x).map Exec.job).Nodup :=
    h.exec_nodup.sublist (List.filter_sublist.map Exec.job)
  match hl : s.runs n x with
  | [] => simp
  | [_] => simp
  | e :: f :: l =>
      have he : e ∈ s.runs n x := by simp [hl]
      have hf : f ∈ s.runs n x := by simp [hl]
      obtain ⟨hes, hen, hex⟩ := mem_runs.mp he
      obtain ⟨hfs, hfn, hfx⟩ := mem_runs.mp hf
      obtain ⟨job, hj, hjr, hjv, -⟩ := h.exec_job e hes
      obtain ⟨job', hj', hjr', hjv', -⟩ := h.exec_job f hfs
      have hjob : e.job = f.job := h.unique _ _ _ _ hj hj' hjv hjv'
        (by rw [hjr, hen]; exact hn) (by rw [hjr, hjr', hen, hfn]) (by rw [hjr, hjr', hex, hfx])
      rw [hl] at hnodup
      simp [hjob] at hnodup

end Server

/-- `checkduplicate_and_update` answers `NEW` at most once for each client and
xid, for every sequence of calls, and `dispatch` runs a handler at most once for
each client that wants at-most-once and each xid. -/
theorem new_at_most_once :
    (∀ s, filterMachine.Reachable s → ∀ n x, s.verdicts.count (n, x, .new) ≤ 1) ∧
    (∀ cfg s, (serverMachine cfg).Reachable s → ∀ n x, n ≠ 0 → (s.runs n x).length ≤ 1) :=
  ⟨fun _ h n x => (Filter.once_of_reachable h).once n x,
    fun _ _ h _ x hn => (Server.once_of_reachable h).runs_length_le hn x⟩

end RpcLock.Rpcs
