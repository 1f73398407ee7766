import RpcLock.Rpcs.References

/-!
# Every step accounts for its references

The operations of a step on the counts are the change in the numbers of holders.
An activation keeps the reference `got_pdu` took until it returns, or exchanges
it for one to the saved connection.
-/

namespace RpcLock.Rpcs

namespace ConnServer

variable {cfg : ServerConfig} {s s' : ConnServer} {e : Effect} {j : Nat} {job : Job} {t : Server}
  {a : ConnAct}

/-! ## The steps of an activation -/

/-- A step that keeps the connections of all activations, none of which returns. -/
structure Keeps (u t : Server) (j : Nat) (job : Job) : Prop where
  jobs : ∃ job', t.jobs = Function.update u.jobs j (some job') ∧ job'.conn = job.conn ∧
    (t.aborted = false → job'.phase ≠ .finished)
  conns : t.conns = u.conns

theorem keeps_abort {u : Server} (hj : u.jobs j = some job) : Keeps u u.abort j job where
  jobs := ⟨job, by rw [← hj, Function.update_eq_self]; rfl, rfl, fun h => by cases h⟩
  conns := rfl

theorem keeps_setJob {u u' : Server} {job' : Job} (hjobs : u'.jobs = u.jobs)
    (hconns : u'.conns = u.conns) (hconn : job'.conn = job.conn) (hp : job'.phase ≠ .finished) :
    Keeps u (u'.setJob j job') j job where
  jobs := ⟨job', by rw [Server.setJob, hjobs], hconn, fun _ => hp⟩
  conns := hconns

theorem keeps_createWindow {u : Server} (hj : u.jobs j = some job)
    (h : u.next cfg (.createWindow j) = some t) : Keeps u t j job := by
  cases Server.step_of_next h with
  | createWindow hj' _ =>
      cases hj.symm.trans hj'
      exact keeps_setJob rfl rfl rfl Phase.noConfusion
  | abort => exact keeps_abort hj

theorem keeps_runHandler {u : Server} {ret : Int} {out : List UInt8} (hj : u.jobs j = some job)
    (h : u.next cfg (.runHandler j ret out) = some t) : Keeps u t j job := by
  cases Server.step_of_next h with
  | runHandler hj' _ _ _ =>
      cases hj.symm.trans hj'
      exact keeps_setJob rfl rfl rfl Phase.noConfusion
  | handlerAbort hj' _ _ _ =>
      cases hj.symm.trans hj'
      exact ⟨⟨_, rfl, rfl, fun h => by cases h⟩, rfl⟩
  | abort => exact keeps_abort hj

theorem keeps_packReplyHeader {u : Server} (hj : u.jobs j = some job)
    (h : u.next cfg (.packReplyHeader j) = some t) : Keeps u t j job := by
  cases Server.step_of_next h with
  | packReplyHeader hj' _ =>
      cases hj.symm.trans hj'
      exact keeps_setJob rfl rfl rfl Phase.noConfusion
  | abort => exact keeps_abort hj

theorem keeps_addReply {u : Server} (hj : u.jobs j = some job)
    (h : u.next cfg (.addReply j) = some t) : Keeps u t j job := by
  cases Server.step_of_next h with
  | addReplyOptOut hj' _ _ =>
      cases hj.symm.trans hj'
      exact keeps_setJob rfl rfl rfl Phase.noConfusion
  | addReply hj' _ _ _ =>
      cases hj.symm.trans hj'
      exact keeps_setJob rfl rfl rfl Phase.noConfusion
  | abort => exact keeps_abort hj

/-- An activation that takes a step has not returned. -/
theorem not_finished_of_next {u : Server} {a : ServerAct} (h : u.next cfg a = some t)
    (hj : u.jobs j = some job)
    (ha : a = .createWindow j ∨ a = .saveConn j ∨ a = .check j ∨
      (∃ ret out, a = .runHandler j ret out) ∨ a = .packReplyHeader j ∨ a = .addReply j ∨
      (∃ d, a = .pickConn j d) ∨ a = .send j) : job.phase ≠ .finished := by
  intro hp
  rcases ha with rfl | rfl | rfl | ⟨ret, out, rfl⟩ | rfl | rfl | ⟨d, rfl⟩ | rfl <;>
    obtain ⟨-, job', hj', hf⟩ := Server.withJob_inv h <;>
    cases hj.symm.trans hj' <;> simp [hp] at hf

/-- The lists after a step that keeps the connections. -/
theorem Tidy.keeps (ht : s.Tidy) (hj : s.server.jobs j = some job) (hp : job.phase ≠ .finished)
    (hk : Keeps s.server t j job) (ha : t.aborted = false) : { s with server := t }.Tidy where
  running_nodup := ht.running_nodup
  mem_running k := by
    obtain ⟨job', hjobs, -, hp'⟩ := hk.jobs
    exact ht.mem_running_update hj hp hjobs (hp' ha) k
  keys_nodup := ht.keys_nodup
  mem_keys n := by
    simp only [hk.conns]
    exact ht.mem_keys n

theorem held_keeps (hj : s.server.jobs j = some job) (hk : Keeps s.server t j job) (c : ConnId) :
    { s with server := t }.held c = s.held c := by
  obtain ⟨job', hjobs, hconn, -⟩ := hk.jobs
  simp only [held, holders, queued, hjobs, hk.conns, jobsOn_update_same hj hconn]

theorem Inv.keeps (hinv : s.Inv) (halive : s.server.aborted = false)
    (hj : s.server.jobs j = some job) (hp : job.phase ≠ .finished)
    (hk : Keeps s.server t j job) : EffectOk s ([], { s with server := t }) :=
  hinv.activationOk (.nil (held_keeps hj hk)) (fun op hop => by cases hop)
    ((hinv.tidy halive).keeps hj hp hk)

/-- The lists after an activation returned. -/
theorem Tidy.returned (ht : s.Tidy) {job' : Job} {oldServed : List ConnId}
    (hjobs : t.jobs = Function.update s.server.jobs j (some job')) (hp' : job'.phase = .finished)
    (hconns : t.conns = s.server.conns) :
    { s with server := t, running := s.running.erase j, oldServed := oldServed }.Tidy where
  running_nodup := ht.running_nodup.erase j
  mem_running k := by
    simp only [hjobs]
    rw [ht.running_nodup.mem_erase_iff, ht.mem_running k]
    by_cases hkj : k = j
    · subst hkj
      simp [hp']
    · simp [hkj]
  keys_nodup := ht.keys_nodup
  mem_keys n := by
    simp only [hconns]
    exact ht.mem_keys n

/-- An activation returns and gives its reference back. -/
theorem Inv.returned (hinv : s.Inv) (halive : s.server.aborted = false)
    (hj : s.server.jobs j = some job) (hp : job.phase ≠ .finished) {job' : Job}
    (hjobs : t.jobs = Function.update s.server.jobs j (some job')) (hp' : job'.phase = .finished)
    (hconns : t.conns = s.server.conns) :
    EffectOk s ([.decref job.conn], { s with server := t, running := s.running.erase j }) := by
  have ht := hinv.tidy halive
  have hmem := ht.mem_running_of hj hp
  have hpos := jobsOn_pos hmem hj
  refine hinv.activationOk (.decref fun c => ?_) ?_ fun _ => ht.returned hjobs hp' hconns
  · have := jobsOn_erase ht.running_nodup hmem hj (some job') c
    simp only [held, holders, queued, hjobs, hconns]
    omega
  · intro op hop
    rw [List.mem_singleton.mp hop]
    simp only [RefOp.target, holders]
    omega

/-- An activation returns and keeps its reference. -/
theorem Inv.returnedOld (hinv : s.Inv) (halive : s.server.aborted = false)
    (hj : s.server.jobs j = some job) (hp : job.phase ≠ .finished) {job' : Job}
    (hjobs : t.jobs = Function.update s.server.jobs j (some job')) (hp' : job'.phase = .finished)
    (hconns : t.conns = s.server.conns) :
    EffectOk s ([], { s with
      server := t, running := s.running.erase j, oldServed := job.conn :: s.oldServed }) := by
  have ht := hinv.tidy halive
  have hmem := ht.mem_running_of hj hp
  refine hinv.activationOk (.nil fun c => ?_) (fun op hop => by cases hop)
    fun _ => ht.returned hjobs hp' hconns
  have := jobsOn_erase ht.running_nodup hmem hj (some job') c
  simp only [held, holders, queued, hjobs, hconns, List.count_cons, beq_iff_eq]
  omega

theorem Inv.check (hinv : s.Inv) (hj : s.server.jobs j = some job)
    (h : s.server.next cfg (.check j) = some t) : EffectOk s (s.check j job t) := by
  have halive := Server.not_aborted_of_next h
  have hp := not_finished_of_next h hj (by simp)
  unfold ConnServer.check
  have hgo : ∀ {job' : Job} {u : Server}, u.jobs = s.server.jobs → u.conns = s.server.conns →
      job'.conn = job.conn → job'.phase ≠ .finished → t = u.setJob j job' →
      EffectOk s (if (t.jobs j).any (·.phase = .finished) then
        ([.decref job.conn], { s with server := t, running := s.running.erase j })
        else ([], { s with server := t })) := by
    rintro job' u hjobs hconns hconn hp' rfl
    rw [if_neg (by simp [hp'])]
    exact hinv.keeps halive hj hp (keeps_setJob hjobs hconns hconn hp')
  cases Server.step_of_next h with
  | checkNew hj' _ _ _ =>
      cases hj.symm.trans hj'
      refine hgo ?_ ?_ ?_ ?_ rfl
      exacts [rfl, rfl, rfl, Phase.noConfusion]
  | checkInprogress hj' _ _ _ =>
      cases hj.symm.trans hj'
      rw [if_pos (by simp)]
      exact hinv.returned halive hj hp rfl rfl rfl
  | checkDone hj' _ _ _ _ =>
      cases hj.symm.trans hj'
      refine hgo ?_ ?_ ?_ ?_ rfl
      exacts [rfl, rfl, rfl, Phase.noConfusion]
  | checkForgotten hj' _ _ _ =>
      cases hj.symm.trans hj'
      refine hgo ?_ ?_ ?_ ?_ rfl
      exacts [rfl, rfl, rfl, Phase.noConfusion]
  | abort =>
      rw [if_neg (by simp [hj, hp])]
      exact hinv.keeps halive hj hp (keeps_abort hj)

theorem send_inv {u : Server} (hj : u.jobs j = some job) (h : u.next cfg (.send j) = some t) :
    (∃ job', t.jobs = Function.update u.jobs j (some job') ∧ job'.phase = .finished) ∧
      t.conns = u.conns := by
  obtain ⟨-, job', hj', hf⟩ := Server.withJob_inv h
  cases hj.symm.trans hj'
  cases hp : job.phase <;> simp only [hp, reduceCtorEq] at hf
  cases hf
  exact ⟨⟨_, rfl, rfl⟩, rfl⟩

theorem Inv.finish (hinv : s.Inv) (hj : s.server.jobs j = some job)
    (h : s.server.next cfg (.send j) = some t) : EffectOk s (s.finish cfg j job t) := by
  have halive := Server.not_aborted_of_next h
  have hp := not_finished_of_next h hj (by simp)
  obtain ⟨⟨job', hjobs, hp'⟩, hconns⟩ := send_inv hj h
  unfold ConnServer.finish
  split
  · exact hinv.returnedOld halive hj hp hjobs hp' hconns
  · exact hinv.returned halive hj hp hjobs hp' hconns

theorem saveConn_inv {u : Server} (hj : u.jobs j = some job)
    (h : u.next cfg (.saveConn j) = some t) :
    job.phase = .windowReady ∧
    t.jobs = Function.update u.jobs j (some { job with phase := .connSaved }) ∧
    t.conns = Function.update u.conns job.req.cltNonce
      (some (Server.newestConn cfg (u.conns job.req.cltNonce) job.conn)) := by
  obtain ⟨-, job', hj', hf⟩ := Server.withJob_inv h
  cases hj.symm.trans hj'
  cases hp : job.phase <;> simp only [hp, reduceCtorEq] at hf
  cases hf
  exact ⟨rfl, rfl, rfl⟩

theorem Inv.saveConn (hinv : s.Inv) (hj : s.server.jobs j = some job)
    (h : s.server.next cfg (.saveConn j) = some t) : EffectOk s (s.saveConn cfg job t) := by
  have halive := Server.not_aborted_of_next h
  have hp := not_finished_of_next h hj (by simp)
  have ht := hinv.tidy halive
  have hmem := ht.mem_running_of hj hp
  have hpos := jobsOn_pos hmem hj
  obtain ⟨-, hjobs, hconns⟩ := saveConn_inv hj h
  have hrunning := ht.mem_running_update hj hp hjobs Phase.noConfusion
  have hon : ∀ c, jobsOn (Function.update s.server.jobs j (some { job with phase := .connSaved }))
      s.running c = jobsOn s.server.jobs s.running c :=
    jobsOn_update_same hj rfl
  have hsome : ∀ m, m ∈ s.insertKey job.req.cltNonce ↔ (t.conns m).isSome := by
    intro m
    rw [hconns]
    by_cases hm : m = job.req.cltNonce
    · subst hm
      simp only [Function.update_self, Option.isSome_some, iff_true, insertKey]
      split
      · assumption
      · exact List.mem_cons_self
    · rw [Function.update_of_ne hm, ← ht.mem_keys m, insertKey]
      split
      · rfl
      · simp [hm]
  cases hc : s.server.conns job.req.cltNonce with
  | none =>
      simp only [ConnServer.saveConn, hc]
      have hnew := ht.not_mem_keys hc
      have hkeys : s.insertKey job.req.cltNonce = job.req.cltNonce :: s.keys := if_neg hnew
      refine hinv.activationOk (.incref fun c => ?_) ?_
        fun _ => ⟨ht.running_nodup, hrunning, ?_, hsome⟩
      · have := entriesOf_insert hnew s.server.conns job.conn c
        simp only [held, holders, queued, hjobs, hconns, hkeys, hc, Server.newestConn, hon]
        omega
      · intro op hop
        rw [List.mem_singleton.mp hop]
        simp only [RefOp.target, holders]
        omega
      · simp only [hkeys]
        exact List.nodup_cons.mpr ⟨hnew, ht.keys_nodup⟩
  | some c₀ =>
      simp only [ConnServer.saveConn, hc]
      have hin := ht.mem_keys_of hc
      have hkeys : s.insertKey job.req.cltNonce = s.keys := if_pos hin
      rw [hkeys] at hsome
      have hentry := entriesOf_pos hin hc
      split
      · next hlt =>
          refine hinv.activationOk (.exchange ?_ fun c => ?_) ?_
            fun _ => ⟨ht.running_nodup, hrunning, ht.keys_nodup, hsome⟩
          · simp only [held, holders]
            omega
          · have := entriesOf_update ht.keys_nodup hin hc job.conn c
            simp only [held, holders, queued, hjobs, hconns, hc, Server.newestConn, if_pos hlt, hon]
            omega
          · intro op hop
            simp only [List.mem_cons, List.not_mem_nil, or_false] at hop
            rcases hop with rfl | rfl <;> simp only [RefOp.target, holders] <;> omega
      · next hge =>
          refine hinv.activationOk (.nil fun c => ?_) (fun op hop => by cases hop)
            fun _ => ⟨ht.running_nodup, hrunning, ht.keys_nodup, hsome⟩
          have hsame : Function.update s.server.conns job.req.cltNonce (some c₀) =
              s.server.conns := by rw [← hc, Function.update_eq_self]
          simp only [held, holders, queued, hjobs, hconns, hc, Server.newestConn, if_neg hge,
            hsame, hon]

/-- The outcomes of the choice of the connection. -/
theorem pickConn_inv {u : Server} {dead : Bool} (hj : u.jobs j = some job)
    (h : u.next cfg (.pickConn j dead) = some t) :
    ∃ b sz, job.phase = .stored b sz ∧
      ((dead = true ∧ u.conns job.req.cltNonce = none ∧ t = u.abort) ∨
      (∃ c, dead = true ∧ u.conns job.req.cltNonce = some c ∧ c ≠ job.conn ∧
        t = u.setJob j { job with conn := c, phase := .sending b sz }) ∨
      ((dead = true → u.conns job.req.cltNonce = some job.conn) ∧
        t = u.setJob j { job with phase := .sending b sz })) := by
  obtain ⟨-, job', hj', hf⟩ := Server.withJob_inv h
  cases hj.symm.trans hj'
  cases hp : job.phase <;> simp only [hp, reduceCtorEq] at hf
  next b sz =>
    refine ⟨b, sz, rfl, ?_⟩
    split at hf
    · next hg =>
        split at hf
        · next hc =>
            cases hf
            exact .inl ⟨hg.1, hc, rfl⟩
        · next c hc =>
            cases hf
            refine .inr (.inl ⟨c, hg.1, hc, ?_, rfl⟩)
            rintro rfl
            exact hg.2 hc
    · next hg =>
        cases hf
        exact .inr (.inr ⟨fun hd => not_not.mp fun hne => hg ⟨hd, hne⟩, rfl⟩)

theorem Inv.pickConn (hinv : s.Inv) (hj : s.server.jobs j = some job)
    (h : s.server.next cfg (.pickConn j (s.dead job.conn)) = some t) :
    EffectOk s (s.pickConn j job t) := by
  have halive := Server.not_aborted_of_next h
  have hp := not_finished_of_next h hj (by simp)
  have ht := hinv.tidy halive
  have hmem := ht.mem_running_of hj hp
  have hpos := jobsOn_pos hmem hj
  obtain ⟨b, sz, -, hcases⟩ := pickConn_inv hj h
  have hstay : ∀ {keys : List UInt32}, keys = s.keys →
      t = s.server.setJob j { job with phase := .sending b sz } →
      EffectOk s ([], { s with server := t, keys := keys }) := by
    rintro keys rfl rfl
    exact hinv.keeps halive hj hp (keeps_setJob rfl rfl rfl Phase.noConfusion)
  unfold ConnServer.pickConn
  rcases hcases with ⟨hd, hc, rfl⟩ | ⟨c₁, hd, hc, hne, rfl⟩ | ⟨hd, rfl⟩
  · rw [if_pos hd]
    simp only [hc]
    have hkeys : s.insertKey job.req.cltNonce = job.req.cltNonce :: s.keys :=
      if_neg (ht.not_mem_keys hc)
    refine hinv.activationOk (.decref fun c => ?_) ?_ fun ha => by cases ha
    · have := jobsOn_erase ht.running_nodup hmem hj (some job) c
      rw [← hj, Function.update_eq_self] at this
      simp only [held, holders, queued, hkeys, Server.abort_jobs, Server.abort_conns,
        entriesOf_null hc]
      omega
    · intro op hop
      rw [List.mem_singleton.mp hop]
      simp only [RefOp.target, holders]
      omega
  · rw [if_pos hd]
    simp only [hc]
    rw [if_neg hne]
    have hin := ht.mem_keys_of hc
    have hkeys : s.insertKey job.req.cltNonce = s.keys := if_pos hin
    have hentry := entriesOf_pos hin hc
    refine hinv.activationOk (.exchange ?_ fun c => ?_) ?_ fun _ => ⟨ht.running_nodup, ?_, ?_, ?_⟩
    · simp only [held, holders]
      omega
    · have := jobsOn_update ht.running_nodup hmem hj
        { job with conn := c₁, phase := .sending b sz } c
      simp only at this
      simp only [held, holders, queued, hkeys, Server.setJob]
      omega
    · intro op hop
      simp only [List.mem_cons, List.not_mem_nil, or_false] at hop
      rcases hop with rfl | rfl <;> simp only [RefOp.target, holders] <;> omega
    · exact ht.mem_running_update hj hp rfl Phase.noConfusion
    · simp only [hkeys]
      exact ht.keys_nodup
    · intro n
      simp only [hkeys, Server.setJob_conns]
      exact ht.mem_keys n
  · by_cases hdead : s.dead job.conn = true
    · rw [if_pos hdead]
      simp only [hd hdead, if_true]
      exact hstay (if_pos (ht.mem_keys_of (hd hdead))) rfl
    · rw [if_neg hdead]
      exact hstay rfl rfl

/-! ## The entry of `dispatch` -/

/-- A job leaves the queue. -/
theorem queued_cons {d : Djob} {rest : List Djob} (hq : s.jobq = d :: rest) (c : ConnId) :
    s.queued c = { s with jobq := rest }.queued c + if d.conn = c then 1 else 0 := by
  simp [queued, hq, List.countP_cons]

/-- The outcomes of the entry of `dispatch`: an activation, or an unknown procedure. -/
theorem receive_inv {u : Server} {c : ConnId} {req : Request} {p : Ptr} (hu : u.aborted = false)
    (h : u.next cfg (.receive j c req p) = some t) : u.jobs j = none ∧
      (t = u.abort ∨ t.aborted = false ∧ t.conns = u.conns ∧ ∃ job',
        t.jobs = Function.update u.jobs j (some job') ∧ job'.conn = c ∧ job'.phase ≠ .finished) := by
  simp only [Server.next] at h
  split at h
  · cases h
  next hg =>
    cases h
    simp only [not_or, Bool.not_eq_true, Option.isSome_eq_false_iff,
      Option.isNone_iff_eq_none] at hg
    refine ⟨hg.2.1, ?_⟩
    unfold Server.receive
    simp only
    split
    · exact .inr ⟨hu, rfl, _, rfl, rfl, Phase.noConfusion⟩
    · split
      · exact .inl rfl
      · split
        · exact .inr ⟨hu, rfl, _, rfl, rfl, Phase.noConfusion⟩
        · exact .inr ⟨hu, rfl, _, rfl, rfl, Phase.noConfusion⟩

/-- The lists after an activation began. -/
theorem Tidy.started (ht : s.Tidy) (hj : s.server.jobs j = none) {job' : Job} {jobq : List Djob}
    (hjobs : t.jobs = Function.update s.server.jobs j (some job')) (hp' : job'.phase ≠ .finished)
    (hconns : t.conns = s.server.conns) :
    { s with jobq := jobq, server := t, running := j :: s.running }.Tidy where
  running_nodup := List.nodup_cons.mpr ⟨ht.not_mem_running hj, ht.running_nodup⟩
  mem_running k := by
    simp only [hjobs]
    rw [List.mem_cons, ht.mem_running k]
    by_cases hkj : k = j
    · subst hkj
      simp [hp']
    · simp [hkj]
  keys_nodup := ht.keys_nodup
  mem_keys n := by
    simp only [hconns]
    exact ht.mem_keys n

theorem Inv.dispatch (hinv : s.Inv) (halive : s.server.aborted = false) {d : Djob}
    {rest : List Djob} {p : Ptr} (hq : s.jobq = d :: rest)
    (h : dispatch cfg { s with jobq := rest } d j p = some e) : EffectOk s e := by
  have ht := hinv.tidy halive
  have hqueued := queued_cons hq
  have htouched : ∀ op ∈ [RefOp.decref d.conn],
      0 < s.holders op.target ∨ s.dead op.target = false := by
    intro op hop
    rw [List.mem_singleton.mp hop]
    refine .inl ?_
    have := hqueued d.conn
    simp only [if_true] at this
    simp only [RefOp.target, holders]
    omega
  unfold ConnServer.dispatch at h
  split at h
  · cases h
    refine hinv.effectOk (.decref fun c => ?_) htouched hinv.nodup (fun _ h => h) (fun _ h => h) rfl
      fun _ => ht.of_eq rfl rfl rfl
    have := hqueued c
    simp only [held, holders] at this ⊢
    omega
  · next req hreq =>
      obtain ⟨t, hn, rfl⟩ := Option.map_eq_some_iff.mp h
      obtain ⟨hj, rfl | ⟨ha, hconns, job', hjobs, hconn, hp'⟩⟩ := receive_inv halive hn
      · rw [if_pos (by rfl)]
        refine hinv.effectOk (.decref fun c => ?_) htouched hinv.nodup (fun _ h => h)
          (fun _ h => h) rfl fun ha => by cases ha
        have := hqueued c
        simp only [held, holders, Server.abort_jobs, Server.abort_conns] at this ⊢
        simp only [queued] at this ⊢
        omega
      · -- the reference of the job is that of the activation
        rw [if_neg (by simp [ha])]
        refine hinv.effectOk (.nil fun c => ?_) (fun op hop => by cases hop) hinv.nodup
          (fun _ h => h) (fun _ h => h) rfl fun _ => ht.started hj hjobs hp' hconns
        have := hqueued c
        have hcons := jobsOn_cons (ht.not_mem_running hj) s.server.jobs job' c
        rw [hconn] at hcons
        simp only [held, holders, hjobs, hconns] at this ⊢
        simp only [queued] at this ⊢
        omega

/-! ## One step -/

theorem Inv.gotPdu (hinv : s.Inv) (halive : s.server.aborted = false) {c : ConnId}
    (b : List UInt8) (hc : c ∈ s.accepted) (hd : s.dead c = false) :
    EffectOk s (s.gotPdu c b) := by
  have ht := hinv.tidy halive
  have hcount : 0 < s.accepted.count c := List.count_pos_iff.mpr hc
  unfold ConnServer.gotPdu
  simp only
  split
  · refine hinv.effectOk (.incref fun k => ?_) ?_ hinv.nodup (fun _ h => h) (fun _ h => h) rfl
      fun _ => ht.of_eq rfl rfl rfl
    · simp only [held, holders, queued, List.countP_append, List.countP_singleton,
        decide_eq_true_eq]
      omega
    · intro op hop
      rw [List.mem_singleton.mp hop]
      exact .inr hd
  · refine hinv.effectOk (.borrow ?_ fun k => rfl) ?_ hinv.nodup (fun _ h => h) (fun _ h => h) rfl
      fun _ => ht.of_eq rfl rfl rfl
    · simp only [held]
      omega
    · intro op hop
      simp only [List.mem_cons, List.not_mem_nil, or_false] at hop
      rcases hop with rfl | rfl <;> exact .inr hd

/-- Every effect accounts for the references it moves. -/
theorem Inv.effect (hinv : s.Inv) (halive : s.server.aborted = false)
    (h : s.effect cfg a = some e) : EffectOk s e := by
  have ht := hinv.tidy halive
  cases a with
  | accept c =>
      simp only [ConnServer.effect] at h
      split at h
      case isFalse => cases h
      case isTrue hg =>
        cases h
        refine hinv.effectOk (.incref fun k => ?_) ?_ (List.nodup_cons.mpr ⟨hg.2.2, hinv.nodup⟩)
          (fun _ h => List.mem_cons_of_mem c h) (fun _ h => h) rfl
          fun _ => ht.of_eq rfl rfl rfl
        · simp only [held, holders, queued, List.count_cons, beq_iff_eq]
          omega
        · intro op hop
          rw [List.mem_singleton.mp hop]
          exact .inr hg.2.1
  | die c =>
      simp only [ConnServer.effect] at h
      split at h
      case isFalse => cases h
      case isTrue hg =>
        cases h
        refine hinv.effectOk (.nil fun k => rfl) (fun op hop => by cases hop) hinv.nodup
          (fun _ h => h) (fun k hk => ?_) rfl
          fun _ => ht.of_eq rfl rfl rfl
        by_cases hkc : k = c
        · subst hkc
          exact Function.update_self _ _ _
        · exact (Function.update_of_ne hkc _ _).trans hk
  | gotPdu c b =>
      simp only [ConnServer.effect] at h
      split at h
      case isFalse => cases h
      case isTrue hg =>
        cases h
        exact hinv.gotPdu halive b hg.1 hg.2
  | dispatch j p =>
      simp only [ConnServer.effect] at h
      split at h
      · cases h
      · next d rest hq => exact hinv.dispatch halive hq h
  | createWindow j =>
      obtain ⟨job, t, hj, hn, rfl⟩ := activation_inv h
      exact hinv.keeps halive hj (not_finished_of_next hn hj (by simp)) (keeps_createWindow hj hn)
  | saveConn j =>
      obtain ⟨job, t, hj, hn, rfl⟩ := activation_inv h
      exact hinv.saveConn hj hn
  | check j =>
      obtain ⟨job, t, hj, hn, rfl⟩ := activation_inv h
      exact hinv.check hj hn
  | runHandler j ret out =>
      obtain ⟨job, t, hj, hn, rfl⟩ := activation_inv h
      exact hinv.keeps halive hj (not_finished_of_next hn hj (by simp)) (keeps_runHandler hj hn)
  | packReplyHeader j =>
      obtain ⟨job, t, hj, hn, rfl⟩ := activation_inv h
      exact hinv.keeps halive hj (not_finished_of_next hn hj (by simp))
        (keeps_packReplyHeader hj hn)
  | addReply j =>
      obtain ⟨job, t, hj, hn, rfl⟩ := activation_inv h
      exact hinv.keeps halive hj (not_finished_of_next hn hj (by simp)) (keeps_addReply hj hn)
  | pickConn j =>
      simp only [ConnServer.effect] at h
      split at h
      · cases h
      · next job hj =>
          obtain ⟨job', t, hj', hn, rfl⟩ := activation_inv h
          cases hj.symm.trans hj'
          exact hinv.pickConn hj hn
  | send j =>
      obtain ⟨job, t, hj, hn, rfl⟩ := activation_inv h
      exact hinv.finish hj hn
  | collect c =>
      simp only [ConnServer.effect] at h
      split at h
      case isFalse => cases h
      case isTrue hg =>
        cases h
        refine ⟨.nil fun _ => rfl, hinv.nodup,
          fun _ => ht.of_eq rfl rfl rfl, ?_⟩
        intro k hk
        cases hk
        exact ⟨hg.2.1, hg.2.2.1, (hinv.refs c).symm.trans hg.2.2.2⟩
  | erase =>
      simp only [ConnServer.effect] at h
      split at h
      · cases h
      · next c hc =>
          cases h
          obtain ⟨hin, -, -⟩ := hinv.collecting c hc
          have hcount : 0 < s.accepted.count c := List.count_pos_iff.mpr hin
          refine ⟨.decref fun k => ?_, hinv.nodup.erase c,
            fun _ => ht.of_eq rfl rfl rfl,
            fun k hk => by cases hk⟩
          simp only [held, holders, queued, List.count_erase, beq_iff_eq]
          split
          · next he =>
              subst he
              omega
          · omega

/-- A step of a live process applies its operations. -/
theorem next_inv (h : s.next cfg a = some s') :
    s.server.aborted = false ∧ ∃ e, s.effect cfg a = some e ∧
      ((RefOp.applyAll s.refno e.1 = none ∧ s' = { s with server := s.server.abort }) ∨
      ∃ r, RefOp.applyAll s.refno e.1 = some r ∧ s' = { e.2 with refno := r }) := by
  unfold ConnServer.next at h
  split at h
  · cases h
  · next halive =>
      obtain ⟨e, he, rfl⟩ := Option.map_eq_some_iff.mp h
      refine ⟨by simpa using halive, e, he, ?_⟩
      cases hr : RefOp.applyAll s.refno e.1 with
      | none => exact .inl ⟨rfl, rfl⟩
      | some r => exact .inr ⟨r, rfl, rfl⟩

/-- No `VERIFY(refno_>=0)` fails. -/
theorem Inv.next (hinv : s.Inv) (h : s.next cfg a = some s') :
    s'.Inv ∧ ∃ e r, s.effect cfg a = some e ∧ s' = { e.2 with refno := r } := by
  obtain ⟨halive, e, he, hcases⟩ := next_inv h
  have hok := hinv.effect halive he
  obtain ⟨r', hr', hrefs⟩ := hok.backed.applyAll hinv.refs
  rcases hcases with ⟨hnone, -⟩ | ⟨r, hr, rfl⟩
  · rw [hr'] at hnone
    cases hnone
  · rw [hr'] at hr
    cases hr
    refine ⟨⟨hrefs, hok.nodup, fun ha => ?_, hok.collecting⟩, e, r', he, rfl⟩
    exact (hok.tidy ha).of_eq rfl rfl rfl

theorem inv_of_reachable (h : (connServerMachine cfg).Reachable s) : s.Inv :=
  h.invariant .init fun _ _ _ hs hn => (Inv.next hs hn).1

end ConnServer

end RpcLock.Rpcs
