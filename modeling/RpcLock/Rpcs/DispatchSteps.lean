import RpcLock.Rpcs.Dispatch

/-!
# What a step of `dispatch` can do

`Step` lists the outcomes of `Server.next`, one constructor for each path
through the source, with the state it leaves behind.  `step_of_next` says that
the list is complete, and every invariant of a server instance is a case
analysis on it.
-/

namespace RpcLock.Rpcs

/-! ## The heap operations -/

@[simp] theorem malloc_pdu (h : Ptr → Block) (p q : Ptr) : (malloc h p q).pdu = (h q).pdu := by
  by_cases hq : q = p
  · subst hq
    simp [malloc]
  · simp [malloc, hq]

theorem malloc_allocated (h : Ptr → Block) (p q : Ptr) :
    (malloc h p q).allocated = true ↔ (h q).allocated = true ∨ q = p := by
  by_cases hq : q = p
  · subst hq
    simp [malloc]
  · simp [malloc, hq]

@[simp] theorem freeAll_pdu (h : Ptr → Block) (ps : List Ptr) (q : Ptr) :
    (freeAll h ps q).pdu = (h q).pdu := by
  unfold freeAll
  split <;> rfl

theorem freeAll_allocated (h : Ptr → Block) (ps : List Ptr) (q : Ptr) :
    (freeAll h ps q).allocated = true ↔ (h q).allocated = true ∧ q ∉ ps := by
  unfold freeAll
  split <;> simp_all

@[simp] theorem pack_pdu_self (h : Ptr → Block) (p : Ptr) (r : Reply) :
    (pack h p r p).pdu = r := by simp [pack]

theorem pack_pdu_ne (h : Ptr → Block) {p q : Ptr} (r : Reply) (hq : q ≠ p) :
    (pack h p r q).pdu = (h q).pdu := by simp [pack, hq]

@[simp] theorem pack_allocated (h : Ptr → Block) (p q : Ptr) (r : Reply) :
    (pack h p r q).allocated = (h q).allocated := by
  by_cases hq : q = p
  · subst hq
    simp [pack]
  · simp [pack, hq]

@[simp] theorem marshallResult_allocated (h : Ptr → Block) (p q : Ptr) (out : List UInt8) :
    (marshallResult h p out q).allocated = (h q).allocated := pack_allocated _ _ _ _

@[simp] theorem packReplyHeader_allocated (h : Ptr → Block) (p q : Ptr) (x : UInt32) (ret : Int) :
    (packReplyHeader h p x ret q).allocated = (h q).allocated := pack_allocated _ _ _ _

@[simp] theorem release_pdu (h : Ptr → Block) (job : Job) (q : Ptr) :
    (job.release h q).pdu = (h q).pdu := by
  unfold Job.release
  split
  · exact freeAll_pdu h _ q
  · rfl

namespace Server

/-! ## Setting a job -/

@[simp] theorem setJob_tables (s : Server) (j : Nat) (job : Job) :
    (s.setJob j job).tables = s.tables := rfl
@[simp] theorem setJob_conns (s : Server) (j : Nat) (job : Job) :
    (s.setJob j job).conns = s.conns := rfl
@[simp] theorem setJob_heap (s : Server) (j : Nat) (job : Job) :
    (s.setJob j job).heap = s.heap := rfl
@[simp] theorem setJob_execs (s : Server) (j : Nat) (job : Job) :
    (s.setJob j job).execs = s.execs := rfl
@[simp] theorem setJob_sent (s : Server) (j : Nat) (job : Job) :
    (s.setJob j job).sent = s.sent := rfl
@[simp] theorem setJob_aborted (s : Server) (j : Nat) (job : Job) :
    (s.setJob j job).aborted = s.aborted := rfl
@[simp] theorem setJob_jobs_self (s : Server) (j : Nat) (job : Job) :
    (s.setJob j job).jobs j = some job := by simp [setJob]
theorem setJob_jobs_ne (s : Server) {j k : Nat} (job : Job) (h : k ≠ j) :
    (s.setJob j job).jobs k = s.jobs k := by simp [setJob, h]

@[simp] theorem afterHandler_aborted (s : Server) (j : Nat) (job : Job) (ret : Int)
    (out : List UInt8) : (s.afterHandler j job ret out).aborted = s.aborted := rfl

@[simp] theorem abort_tables (s : Server) : s.abort.tables = s.tables := rfl
@[simp] theorem abort_conns (s : Server) : s.abort.conns = s.conns := rfl
@[simp] theorem abort_heap (s : Server) : s.abort.heap = s.heap := rfl
@[simp] theorem abort_jobs (s : Server) : s.abort.jobs = s.jobs := rfl
@[simp] theorem abort_execs (s : Server) : s.abort.execs = s.execs := rfl
@[simp] theorem abort_sent (s : Server) : s.abort.sent = s.sent := rfl

/-- After setting the entry of `j`, an entry is the new one or an old one. -/
theorem setJob_jobs_cases {s : Server} {j k : Nat} {job job' : Job}
    (h : (s.setJob j job).jobs k = some job') :
    (k = j ∧ job' = job) ∨ (k ≠ j ∧ s.jobs k = some job') := by
  by_cases hk : k = j
  · subst hk
    rw [setJob_jobs_self] at h
    exact .inl ⟨rfl, (Option.some.inj h).symm⟩
  · rw [setJob_jobs_ne s job hk] at h
    exact .inr ⟨hk, h⟩

/-! ## The outcomes of a step -/

/-- The outcomes of a step, path by path. -/
inductive Step (cfg : ServerConfig) (s : Server) : ServerAct → Server → Prop where
  | oldServer {j c req p} :
      s.jobs j = none → (s.heap p).allocated = false →
      req.srvNonce ≠ 0 → req.srvNonce ≠ cfg.nonce →
      Step cfg s (.receive j c req p)
        ({ s with heap := pack (malloc s.heap p) p ⟨req.xid, RpcConst.oldsrvFailure, []⟩ }.setJob j
          ⟨c, req, p, none, .sending p rpcHeaderSz⟩)
  | optOut {j c req p} :
      s.jobs j = none → (s.heap p).allocated = false →
      (req.srvNonce = 0 ∨ req.srvNonce = cfg.nonce) → req.cltNonce = 0 →
      Step cfg s (.receive j c req p)
        ({ s with heap := malloc s.heap p }.setJob j ⟨c, req, p, some .new, .accepted⟩)
  | receive {j c req p} :
      s.jobs j = none → (s.heap p).allocated = false →
      (req.srvNonce = 0 ∨ req.srvNonce = cfg.nonce) → req.cltNonce ≠ 0 →
      Step cfg s (.receive j c req p)
        ({ s with heap := malloc s.heap p }.setJob j ⟨c, req, p, none, .unpacked⟩)
  | createWindow {j job} :
      s.jobs j = some job → job.phase = .unpacked →
      Step cfg s (.createWindow j)
        ({ s with tables := s.tables.createWindow job.req.cltNonce }.setJob j
          { job with phase := .windowReady })
  | saveConn {j job} :
      s.jobs j = some job → job.phase = .windowReady →
      Step cfg s (.saveConn j)
        ({ s with
          conns := Function.update s.conns job.req.cltNonce
            (some (newestConn cfg (s.conns job.req.cltNonce) job.conn)) }.setJob j
          { job with phase := .connSaved })
  | checkNew {j job r} :
      s.jobs j = some job → job.phase = .connSaved →
      s.checkResult job.req = some r → r.verdict = .new →
      Step cfg s (.check j)
        ({ s with tables := r.tables, heap := freeAll s.heap r.freed }.setJob j
          { job with verdict := some .new, phase := .accepted })
  | checkInprogress {j job r} :
      s.jobs j = some job → job.phase = .connSaved →
      s.checkResult job.req = some r → r.verdict = .inprogress →
      Step cfg s (.check j)
        ({ s with
          tables := r.tables
          heap := freeAll (freeAll s.heap r.freed) [job.rep] }.setJob j
          { job with verdict := some .inprogress, phase := .finished })
  | checkDone {j job r e} :
      s.jobs j = some job → job.phase = .connSaved →
      s.checkResult job.req = some r → r.verdict = .done → r.reply = some e →
      Step cfg s (.check j)
        ({ s with tables := r.tables, heap := freeAll s.heap r.freed }.setJob j
          { job with verdict := some .done, phase := .sending e.buf e.sz })
  | checkForgotten {j job r} :
      s.jobs j = some job → job.phase = .connSaved →
      s.checkResult job.req = some r → r.verdict = .forgotten →
      Step cfg s (.check j)
        ({ s with
          tables := r.tables
          heap := pack (freeAll s.heap r.freed) job.rep
            ⟨job.req.xid, RpcConst.atmostonceFailure, []⟩ }.setJob j
          { job with verdict := some .forgotten, phase := .sending job.rep rpcHeaderSz })
  | runHandler {j job ret out} :
      s.jobs j = some job → job.phase = .accepted → 0 ≤ ret →
      (job.req.proc = RpcConst.bind → bindResult cfg ret out) →
      Step cfg s (.runHandler j ret out) (s.afterHandler j job ret out)
  | handlerAbort {j job ret out} :
      s.jobs j = some job → job.phase = .accepted → ret < 0 →
      (job.req.proc = RpcConst.bind → bindResult cfg ret out) →
      Step cfg s (.runHandler j ret out) (s.afterHandler j job ret out).abort
  | packReplyHeader {j job ret out} :
      s.jobs j = some job → job.phase = .ran ret out →
      Step cfg s (.packReplyHeader j)
        ({ s with heap := packReplyHeader s.heap job.rep job.req.xid ret }.setJob j
          { job with phase := .packed ret out })
  | addReplyOptOut {j job ret out} :
      s.jobs j = some job → job.phase = .packed ret out → job.req.cltNonce = 0 →
      Step cfg s (.addReply j) (s.setJob j
        { job with phase := .stored job.rep (Reply.size ⟨job.req.xid, ret, out⟩) })
  | addReply {j job ret out t} :
      s.jobs j = some job → job.phase = .packed ret out → job.req.cltNonce ≠ 0 →
      s.tables.addReply job.req.cltNonce job.req.xid job.rep
        (Reply.size ⟨job.req.xid, ret, out⟩) = some t →
      Step cfg s (.addReply j) ({ s with tables := t }.setJob j
        { job with phase := .stored job.rep (Reply.size ⟨job.req.xid, ret, out⟩) })
  | keepConn {j job dead b sz} :
      s.jobs j = some job → job.phase = .stored b sz →
      Step cfg s (.pickConn j dead) (s.setJob j { job with phase := .sending b sz })
  | moveConn {j job dead b sz c} :
      s.jobs j = some job → job.phase = .stored b sz → s.conns job.req.cltNonce = some c →
      Step cfg s (.pickConn j dead) (s.setJob j { job with conn := c, phase := .sending b sz })
  | send {j job b sz} :
      s.jobs j = some job → job.phase = .sending b sz →
      Step cfg s (.send j)
        ({ s with
          sent := s.sent ++ [(⟨job.conn, job.req, readPdu s.heap b sz⟩ : Sent)]
          heap := job.release s.heap }.setJob j { job with phase := .finished })
  /-- An unknown procedure, a failed `VERIFY` or a null pointer. -/
  | abort {a} : Step cfg s a s.abort

theorem withJob_inv {s s' : Server} {j : Nat} {f : Job → Option Server}
    (h : s.withJob j f = some s') :
    s.aborted = false ∧ ∃ job, s.jobs j = some job ∧ f job = some s' := by
  unfold withJob at h
  split at h
  · cases h
  · next ha =>
      cases hj : s.jobs j with
      | none => simp [hj] at h
      | some job =>
          simp only [hj] at h
          exact ⟨by simpa using ha, job, rfl, h⟩

/-- A process that aborted takes no step. -/
theorem not_aborted_of_next {cfg : ServerConfig} {s s' : Server} {a : ServerAct}
    (h : s.next cfg a = some s') : s.aborted = false := by
  cases a with
  | receive j c req p =>
      simp only [Server.next] at h
      split at h
      · cases h
      · next hg => simpa using fun ha => hg (.inl ha)
  | createWindow | saveConn | check | runHandler | packReplyHeader | addReply | pickConn | send =>
      exact (withJob_inv h).1

theorem step_of_receive (cfg : ServerConfig) (s : Server) {j : Nat} {c : ConnId} {req : Request}
    {p : Ptr} (hj : s.jobs j = none) (hp : (s.heap p).allocated = false) :
    Step cfg s (.receive j c req p) (s.receive cfg j c req p) := by
  unfold Server.receive
  simp only
  split
  · next hold => exact .oldServer hj hp hold.1 hold.2
  · next hnew =>
      have hsrv : req.srvNonce = 0 ∨ req.srvNonce = cfg.nonce := by
        by_contra hc
        exact hnew (not_or.mp hc)
      split
      · exact .abort
      · split
        · next hz => exact .optOut hj hp hsrv hz
        · next hz => exact .receive hj hp hsrv hz

theorem step_of_check (cfg : ServerConfig) (s : Server) {j : Nat} {job : Job}
    {r : ReplyTables.CheckResult} (hj : s.jobs j = some job) (hp : job.phase = .connSaved)
    (hr : s.checkResult job.req = some r) :
    Step cfg s (.check j) (s.afterCheck j job r) := by
  unfold Server.afterCheck
  cases hv : r.verdict with
  | new => exact @Step.checkNew cfg s j job r hj hp hr hv
  | inprogress =>
      have hown : ({ job with verdict := some RpcState.inprogress } : Job).ownsRep = true := by
        simp [Job.ownsRep, hp]
      simp only [Job.release, hown, if_true]
      exact @Step.checkInprogress cfg s j job r hj hp hr hv
  | done =>
      obtain ⟨e, he⟩ := ReplyTables.reply_of_done hr hv
      simp only [he]
      exact @Step.checkDone cfg s j job r e hj hp hr hv he
  | forgotten => exact @Step.checkForgotten cfg s j job r hj hp hr hv

/-- Every step of a server instance is one of the listed outcomes. -/
theorem step_of_next {cfg : ServerConfig} {s s' : Server} {a : ServerAct}
    (h : s.next cfg a = some s') : Step cfg s a s' := by
  cases a with
  | receive j c req p =>
      simp only [Server.next] at h
      split at h
      · cases h
      · next hg =>
          cases h
          simp only [not_or, Bool.not_eq_true, Option.isSome_eq_false_iff,
            Option.isNone_iff_eq_none] at hg
          exact step_of_receive cfg s hg.2.1 hg.2.2
  | createWindow j =>
      obtain ⟨-, job, hj, hf⟩ := withJob_inv h
      cases hp : job.phase <;> simp only [hp, reduceCtorEq] at hf
      cases hf
      exact .createWindow hj hp
  | saveConn j =>
      obtain ⟨-, job, hj, hf⟩ := withJob_inv h
      cases hp : job.phase <;> simp only [hp, reduceCtorEq] at hf
      cases hf
      exact .saveConn hj hp
  | check j =>
      obtain ⟨-, job, hj, hf⟩ := withJob_inv h
      cases hp : job.phase <;> simp only [hp, reduceCtorEq] at hf
      cases hr : s.checkResult job.req with
      | none =>
          simp only [hr, Option.some.injEq] at hf
          subst hf
          exact .abort
      | some r =>
          simp only [hr, Option.some.injEq] at hf
          subst hf
          exact step_of_check cfg s hj hp hr
  | runHandler j ret out =>
      obtain ⟨-, job, hj, hf⟩ := withJob_inv h
      cases hp : job.phase <;> simp only [hp, reduceCtorEq] at hf
      split at hf
      · cases hf
      · next hb =>
          have hbind : job.req.proc = RpcConst.bind → bindResult cfg ret out := fun hproc =>
            not_not.mp fun hn => hb ⟨hproc, hn⟩
          split at hf
          · next hneg =>
              cases hf
              exact .handlerAbort hj hp hneg hbind
          · next hpos =>
              cases hf
              exact .runHandler hj hp (not_lt.mp hpos) hbind
  | packReplyHeader j =>
      obtain ⟨-, job, hj, hf⟩ := withJob_inv h
      cases hp : job.phase <;> simp only [hp, reduceCtorEq] at hf
      cases hf
      exact .packReplyHeader hj hp
  | addReply j =>
      obtain ⟨-, job, hj, hf⟩ := withJob_inv h
      cases hp : job.phase <;> simp only [hp, reduceCtorEq] at hf
      split at hf
      · next hz =>
          cases hf
          exact .addReplyOptOut hj hp hz
      · next hz =>
          split at hf
          · cases hf
            exact .abort
          · next ht =>
              cases hf
              exact .addReply hj hp hz ht
  | pickConn j dead =>
      obtain ⟨-, job, hj, hf⟩ := withJob_inv h
      cases hp : job.phase <;> simp only [hp, reduceCtorEq] at hf
      split at hf
      · split at hf
        · cases hf
          exact .abort
        · next hc =>
            cases hf
            exact .moveConn hj hp hc
      · cases hf
        exact .keepConn hj hp
  | send j =>
      obtain ⟨-, job, hj, hf⟩ := withJob_inv h
      cases hp : job.phase <;> simp only [hp, reduceCtorEq] at hf
      cases hf
      exact .send hj hp

end Server

end RpcLock.Rpcs
