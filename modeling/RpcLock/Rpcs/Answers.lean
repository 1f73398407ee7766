import RpcLock.Rpcs.Overtaking

/-!
# What a server instance sends and executes

`Sound` collects what holds along runs without overtaking: every reply that was
sent answers the request of the activation that sent it.  `Serves` holds along
every run: an instance executes only requests addressed to it or to nobody, and
bind returns its nonce.
-/

namespace RpcLock.Rpcs

/-- With the right size, `send` puts the whole PDU of the block on the wire. -/
theorem readPdu_of_size {h : Ptr → Block} {b : Ptr} {sz : Int} (hsz : sz = (h b).pdu.size) :
    readPdu h b sz = (h b).pdu := by
  have hlen : (sz - rpcHeaderSz).toNat = (h b).pdu.payload.length := by
    rw [hsz, Reply.size]
    omega
  simp only [readPdu, hlen, List.take_length]

namespace Server

variable {cfg : ServerConfig} {s s' s₁ : Server} {a : ServerAct}

/-! ## Replies that were sent -/

/-- Every reply that was sent answers its request. -/
def SentAnswers (cfg : ServerConfig) (s : Server) : Prop :=
  ∀ m ∈ s.sent, Answers cfg s m.req.cltNonce m.req.xid m.pdu

/-- What a job is about to send answers its request. -/
theorem answers_of_sending (hb : Buffers cfg s) (hs : SavedInUse s) {j : Nat} {job : Job} {b : Ptr}
    {sz : Int} (hj : s.jobs j = some job) (hp : job.phase = .sending b sz) :
    Answers cfg s job.req.cltNonce job.req.xid (readPdu s.heap b sz) := by
  cases hsh : job.shared with
  | none =>
      have hown := hb.holds j job hj
      simp only [Holds, hp] at hown
      obtain ⟨-, -, hsz, ha⟩ := hown hsh
      rw [readPdu_of_size hsz]
      exact ha
  | some b' =>
      obtain ⟨sz', hp'⟩ := Job.phase_of_shared hsh
      simp only [hp, reduceCtorEq, Phase.sending.injEq, false_or] at hp'
      obtain ⟨rfl, rfl⟩ := hp'
      obtain ⟨e, he, hx, rfl, rfl⟩ := hs j job b sz hj (.inr hp) hsh
      obtain ⟨ha, hsz⟩ := hb.entry _ e he
      rw [readPdu_of_size hsz, ← hx]
      exact .result ha

theorem sentAnswers_next (ho : Once s) (hc : Cache s) (hb : Buffers cfg s) (hs : SavedInUse s)
    (h : SentAnswers cfg s) (hn : s.next cfg a = some s') : SentAnswers cfg s' := by
  have hext := extends_of_next ho hc hn
  have hold : ∀ m ∈ s.sent, Answers cfg s' m.req.cltNonce m.req.xid m.pdu := fun m hm =>
    (h m hm).mono hext
  cases step_of_next hn with
  | @send j job b sz hj hp =>
      intro m hm
      rcases List.mem_append.mp hm with hm | hm
      · exact hold m hm
      · rw [List.mem_singleton] at hm
        subst hm
        exact (answers_of_sending hb hs hj hp).mono hext
  | _ => exact hold

/-- What holds along the runs without overtaking. -/
structure Sound (cfg : ServerConfig) (s : Server) : Prop where
  once : Once s
  cache : Cache s
  buffers : Buffers cfg s
  saved : SavedInUse s
  sent : SentAnswers cfg s

theorem sound_of_reachedVia (h : (serverMachine cfg).ReachedVia NoOvertake s) : Sound cfg s :=
  h.invariant ⟨once_init, cache_init, buffers_init, savedInUse_init, by
    intro m hm
    simp [serverMachine, Server.init] at hm⟩ fun _ _ _ hs hno hn =>
    ⟨once_next hs.once hn, cache_next hs.once hs.cache hn,
      buffers_next hs.once hs.cache hs.buffers hn, savedInUse_next hs.cache hs.saved hno hn,
      sentAnswers_next hs.once hs.cache hs.buffers hs.saved hs.sent hn⟩

/-! ## Runs in which no check frees anything -/

/-- The check frees no reply at all. -/
def FreesNothing (s : Server) : ServerAct → Bool
  | .check j =>
      match s.jobs j with
      | none => true
      | some job =>
          match s.checkResult job.req with
          | none => true
          | some r => r.freed.isEmpty
  | _ => true

/-- A check that frees nothing overtakes nobody. -/
theorem Sound.noOvertake (h : Sound cfg s) (hf : s.FreesNothing a = true) : s.NoOvertake a := by
  cases a with
  | check j =>
      intro hov
      obtain ⟨job, r, hj, -, hr, b, hb, -⟩ := (freesInUse_iff h.cache h.buffers h.saved).mpr hov
      simp only [FreesNothing, hj, hr, List.isEmpty_iff] at hf
      simp [hf] at hb
  | _ => trivial

/-! ## Requests that were executed -/

/-- An instance serves what is addressed to it, and bind returns its nonce. -/
structure Serves (cfg : ServerConfig) (s : Server) : Prop where
  jobs : ∀ j job, s.jobs j = some job → job.verdict ≠ none ∨ job.phase = .unpacked ∨
    job.phase = .windowReady ∨ job.phase = .connSaved → Addressed cfg job.req
  execs : ∀ e ∈ s.execs, Addressed cfg e.req
  bind : ∀ e ∈ s.execs, e.req.proc = RpcConst.bind → bindResult cfg e.ret e.out

theorem serves_init : Serves cfg Server.init where
  jobs := by simp [Server.init]
  execs := by simp [Server.init]
  bind := by simp [Server.init]

/-- A step that executes nothing. -/
theorem Serves.step (h : Serves cfg s) {j : Nat} {job' : Job} (hjobs : s₁.jobs = s.jobs)
    (hex : s₁.execs = s.execs)
    (hjob : job'.verdict ≠ none ∨ job'.phase = .unpacked ∨ job'.phase = .windowReady ∨
      job'.phase = .connSaved → Addressed cfg job'.req) : Serves cfg (s₁.setJob j job') where
  jobs k kob hk hp := by
    rcases setJob_jobs_cases hk with ⟨rfl, rfl⟩ | ⟨-, hk⟩
    · exact hjob hp
    · exact h.jobs k kob (hjobs ▸ hk) hp
  execs e he := h.execs e (hex ▸ he)
  bind e he := h.bind e (hex ▸ he)

/-- The same for a job that keeps its request. -/
theorem Serves.move (h : Serves cfg s) {j : Nat} {job job' : Job} (hjobs : s₁.jobs = s.jobs)
    (hex : s₁.execs = s.execs) (hj : s.jobs j = some job) (hreq : job'.req = job.req)
    (hold : job'.verdict ≠ none ∨ job'.phase = .unpacked ∨ job'.phase = .windowReady ∨
      job'.phase = .connSaved → job.verdict ≠ none ∨ job.phase = .unpacked ∨
        job.phase = .windowReady ∨ job.phase = .connSaved) : Serves cfg (s₁.setJob j job') :=
  h.step hjobs hex fun hv => hreq ▸ h.jobs j job hj (hold hv)

theorem serves_next (ho : Once s) (h : Serves cfg s) (hn : s.next cfg a = some s') :
    Serves cfg s' := by
  have hrun : ∀ j job ret out, s.jobs j = some job → job.phase = .accepted →
      (job.req.proc = RpcConst.bind → bindResult cfg ret out) →
      Serves cfg (s.afterHandler j job ret out) := by
    intro j job ret out hj hp hbind
    have haddr := h.jobs j job hj (.inl (by simp [ho.accepted j job hj hp]))
    have hmove : Serves cfg (s.setJob j { job with phase := .ran ret out }) :=
      h.step rfl rfl fun _ => haddr
    refine ⟨hmove.jobs, fun e he => ?_, fun e he => ?_⟩
    · rcases List.mem_append.mp he with he | he
      · exact h.execs e he
      · rw [List.mem_singleton] at he
        subst he
        exact haddr
    · rcases List.mem_append.mp he with he | he
      · exact h.bind e he
      · rw [List.mem_singleton] at he
        subst he
        exact hbind
  cases step_of_next hn with
  | oldServer => exact h.step rfl rfl (by simp)
  | optOut _ _ haddr _ => exact h.step rfl rfl fun _ => haddr
  | receive _ _ haddr _ => exact h.step rfl rfl fun _ => haddr
  | createWindow hj hp => exact h.move rfl rfl hj rfl fun _ => .inr (.inl hp)
  | saveConn hj hp => exact h.move rfl rfl hj rfl fun _ => .inr (.inr (.inl hp))
  | checkNew hj hp _ _ => exact h.move rfl rfl hj rfl fun _ => .inr (.inr (.inr hp))
  | checkInprogress hj hp _ _ => exact h.move rfl rfl hj rfl fun _ => .inr (.inr (.inr hp))
  | checkDone hj hp _ _ _ => exact h.move rfl rfl hj rfl fun _ => .inr (.inr (.inr hp))
  | checkForgotten hj hp _ _ => exact h.move rfl rfl hj rfl fun _ => .inr (.inr (.inr hp))
  | runHandler hj hp _ hbind => exact hrun _ _ _ _ hj hp hbind
  | handlerAbort hj hp _ hbind =>
      have hr := hrun _ _ _ _ hj hp hbind
      exact ⟨hr.jobs, hr.execs, hr.bind⟩
  | packReplyHeader hj _ => exact h.move rfl rfl hj rfl fun hv => .inl (by simpa using hv)
  | addReplyOptOut hj _ _ => exact h.move rfl rfl hj rfl fun hv => .inl (by simpa using hv)
  | addReply hj _ _ _ => exact h.move rfl rfl hj rfl fun hv => .inl (by simpa using hv)
  | keepConn hj _ => exact h.move rfl rfl hj rfl fun hv => .inl (by simpa using hv)
  | moveConn hj _ _ => exact h.move rfl rfl hj rfl fun hv => .inl (by simpa using hv)
  | send hj _ => exact h.move rfl rfl hj rfl fun hv => .inl (by simpa using hv)
  | abort => exact ⟨h.jobs, h.execs, h.bind⟩

theorem serves_of_reachable (h : (serverMachine cfg).Reachable s) : Serves cfg s :=
  (Machine.Reachable.invariant (P := fun s => Once s ∧ Serves cfg s) h ⟨once_init, serves_init⟩
    fun _ _ _ hs hn => ⟨once_next hs.1 hn, serves_next hs.1 hs.2 hn⟩).2

/-- Two executions for one request of a client are the same one. -/
theorem Once.exec_index_unique (h : Once s) {p q : Nat} {e f : Exec} (he : s.execs[p]? = some e)
    (hf : s.execs[q]? = some f) (hn : e.req.cltNonce ≠ 0) (hnn : e.req.cltNonce = f.req.cltNonce)
    (hx : e.req.xid = f.req.xid) : p = q := by
  obtain ⟨job, hj, hjr, hjv, -⟩ := h.exec_job e (List.mem_of_getElem? he)
  obtain ⟨job', hj', hjr', hjv', -⟩ := h.exec_job f (List.mem_of_getElem? hf)
  have hjob : e.job = f.job := h.unique _ _ _ _ hj hj' hjv hjv' (by rw [hjr]; exact hn)
    (by rw [hjr, hjr', hnn]) (by rw [hjr, hjr', hx])
  have hp : (s.execs.map Exec.job)[p]? = some e.job := by simp [he]
  have hq : (s.execs.map Exec.job)[q]? = some e.job := by simp [hf, hjob]
  obtain ⟨hpl, -⟩ := List.getElem?_eq_some_iff.mp hp
  exact (List.getElem?_inj hpl h.exec_nodup).mp (hp.trans hq.symm)

end Server

end RpcLock.Rpcs
