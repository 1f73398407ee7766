import RpcLock.Rpcs.ReplyBuffers
import RpcLock.Rpcs.ReplyConnection
import Mathlib.Data.List.Sort

/-!
# The memory of a server instance and its end

Every allocated reply block has an owner: an activation, or an entry of the reply
window.  So nothing is lost while the instance runs, and once every activation has
returned the allocated blocks are those of the entries, which is what
`free_reply_window` frees.

`Life` is a server instance with its connections from the constructor to the end
of `~rpcs`.  The destructor of `tcpsconn` joins the accept thread, then closes and
gives up its connections one after the other, while the jobs go on.  The destructor
of the pool waits for the queue and the activations.  At the end a connection is
left alive only by an entry of `conns_`, which nobody gives back, or by the leak of
the path for an old server instance.
-/

namespace RpcLock.Rpcs

namespace Server

variable {cfg : ServerConfig} {s s' s₁ : Server} {a : ServerAct} {j : Nat} {job job' : Job}

/-! ## Every block has an owner -/

/-- Every allocated block has an owner. -/
def Accounted (s : Server) : Prop := ∀ p, (s.heap p).allocated = true → ∃ o, s.owns o p

/-- A step of job `j` that frees what it takes from its owner. -/
theorem Accounted.step (h : Accounted s) (hjobs : s₁.jobs = s.jobs)
    (halloc : ∀ p, (s₁.heap p).allocated = true →
      (s.heap p).allocated = true ∨ job'.ownsRep = true ∧ job'.rep = p)
    (hself : ∀ job p, s.jobs j = some job → job.ownsRep = true → job.rep = p →
      (s₁.heap p).allocated = true → ∃ o, (s₁.setJob j job').owns o p)
    (hentry : ∀ n, ∀ e ∈ s.tables.window n, (s₁.heap e.buf).allocated = true →
      e ∈ s₁.tables.window n) : Accounted (s₁.setJob j job') := by
  intro p hp
  rw [setJob_heap] at hp
  rcases halloc p hp with hold | ⟨hown, rfl⟩
  · obtain ⟨o, ho⟩ := h p hold
    cases o with
    | job k =>
        obtain ⟨kob, hk, hown, hrep⟩ := ho
        by_cases hkj : k = j
        · subst hkj
          exact hself kob p hk hown hrep hp
        · exact ⟨.job k, kob, by rw [setJob_jobs_ne _ _ hkj, hjobs]; exact hk, hown, hrep⟩
    | entry n x =>
        obtain ⟨e, he, hx, rfl⟩ := ho
        exact ⟨.entry n x, e, hentry n e he hp, hx, rfl⟩
  · exact ⟨.job j, job', setJob_jobs_self _ _ _, hown, rfl⟩

/-- A job that keeps its block. -/
theorem owns_self {p : Ptr} (hown : job'.ownsRep = true) (hrep : job'.rep = p) :
    ∃ o, (s₁.setJob j job').owns o p := ⟨.job j, job', setJob_jobs_self _ _ _, hown, hrep⟩

/-- A new activation. -/
theorem Accounted.fresh (h : Accounted s) {p : Ptr} (hj : s.jobs j = none)
    (hjobs : s₁.jobs = s.jobs) (htab : s₁.tables = s.tables)
    (halloc : ∀ q, (s₁.heap q).allocated = true → (s.heap q).allocated = true ∨ q = p)
    (hown : job'.ownsRep = true) (hrep : job'.rep = p) : Accounted (s₁.setJob j job') := by
  refine h.step hjobs (fun q hq => (halloc q hq).imp_right fun hqp => ⟨hown, hrep.trans hqp.symm⟩)
    (fun job q hk => ?_) (fun n e he _ => htab ▸ he)
  rw [hj] at hk
  cases hk

/-- A job that goes on with its block, or without one. -/
theorem Accounted.keep (h : Accounted s) (hj : s.jobs j = some job) (hjobs : s₁.jobs = s.jobs)
    (hwin : ∀ n, s₁.tables.window n = s.tables.window n)
    (halloc : ∀ q, (s₁.heap q).allocated = true → (s.heap q).allocated = true)
    (hrep : job'.rep = job.rep) (howns : job.ownsRep = true → job'.ownsRep = true) :
    Accounted (s₁.setJob j job') := by
  refine h.step hjobs (fun q hq => .inl (halloc q hq)) (fun kob q hk hown hq _ => ?_)
    (fun n e he _ => by rw [hwin n]; exact he)
  rw [hj] at hk
  cases hk
  exact owns_self (howns hown) (hrep.trans hq)

/-- An entry that leaves at a check is freed. -/
theorem mem_window_of_check {r : ReplyTables.CheckResult} {req : Request}
    (hr : s.checkResult req = some r) {n : UInt32} {e : ReplyT} (he : e ∈ s.tables.window n)
    (hfr : e.buf ∉ r.freed) : e ∈ r.tables.window n := by
  obtain ⟨t₁, hraise, ht, -, -⟩ := ReplyTables.checkduplicateAndUpdate_inv hr
  rw [ht, ReplyTables.insertSeen_window]
  by_cases hn : n = req.cltNonce
  · subst hn
    rcases ReplyTables.raiseLowerBound_window hraise with ⟨hw, -⟩ | ⟨hw, hfreed, -⟩
    · exact hw ▸ he
    · rw [← ReplyTables.purged_append_kept req.xidRep (s.tables.window req.cltNonce),
        List.mem_append] at he
      rcases he with he | he
      · exact absurd (hfreed ▸ List.mem_map_of_mem he) hfr
      · exact hw ▸ he
  · rw [(ReplyTables.raiseLowerBound_ne hraise hn).2.2]
    exact he

/-- The check frees the blocks of the entries that leave, and only those. -/
theorem Accounted.check (h : Accounted s) {r : ReplyTables.CheckResult}
    (hj : s.jobs j = some job) (hr : s.checkResult job.req = some r) (hjobs : s₁.jobs = s.jobs)
    (htab : s₁.tables = r.tables)
    (halloc : ∀ q, (s₁.heap q).allocated = true → (s.heap q).allocated = true ∧ q ∉ r.freed)
    (hrep : job'.rep = job.rep)
    (howns : ∀ q, q = job.rep → (s₁.heap q).allocated = true → job'.ownsRep = true) :
    Accounted (s₁.setJob j job') := by
  refine h.step hjobs (fun q hq => .inl (halloc q hq).1) (fun kob q hk _ hq hal => ?_)
    (fun n e he hal => htab ▸ mem_window_of_check hr he (halloc _ hal).2)
  rw [hj] at hk
  cases hk
  exact owns_self (howns q hq.symm hal) (hrep.trans hq)

theorem accounted_init : Accounted Server.init := by
  intro p hp
  simp [Server.init] at hp

theorem accounted_next (hc : Cache s) (h : Accounted s) (hn : s.next cfg a = some s') :
    Accounted s' := by
  cases step_of_next hn with
  | oldServer hj _ _ _ =>
      exact h.fresh hj rfl rfl (fun q hq => (malloc_allocated _ _ q).mp (by
        rwa [pack_allocated] at hq)) (by simp [Job.ownsRep]) rfl
  | optOut hj _ _ _ | receive hj _ _ _ =>
      exact h.fresh hj rfl rfl (fun q hq => (malloc_allocated _ _ q).mp hq) (by simp [Job.ownsRep])
        rfl
  | createWindow hj _ =>
      exact h.keep hj rfl (fun n => ReplyTables.createWindow_window n) (fun _ hq => hq) rfl
        fun _ => by simp [Job.ownsRep]
  | saveConn hj _ =>
      exact h.keep hj rfl (fun _ => rfl) (fun _ hq => hq) rfl fun _ => by simp [Job.ownsRep]
  | checkNew hj hp hr _ =>
      exact h.check hj hr rfl rfl (fun q hq => (freeAll_allocated _ _ q).mp hq) rfl
        fun _ _ _ => by simp [Job.ownsRep]
  | checkInprogress hj hp hr _ =>
      refine h.check hj hr rfl rfl (fun q hq => ?_) rfl fun q hq hal => ?_
      · exact (freeAll_allocated _ _ q).mp ((freeAll_allocated _ _ q).mp hq).1
      · exact absurd (List.mem_singleton.mpr hq) ((freeAll_allocated _ _ q).mp hal).2
  | checkDone hj hp hr _ _ =>
      exact h.check hj hr rfl rfl (fun q hq => (freeAll_allocated _ _ q).mp hq) rfl
        fun _ _ _ => by simp [Job.ownsRep]
  | checkForgotten hj hp hr _ =>
      exact h.check hj hr rfl rfl
        (fun q hq => (freeAll_allocated _ _ q).mp (by rwa [pack_allocated] at hq)) rfl
        fun _ _ _ => by simp [Job.ownsRep]
  | runHandler hj _ _ _ =>
      exact h.keep hj rfl (fun _ => rfl) (fun q hq => marshallResult_allocated _ _ q _ ▸ hq) rfl
        fun _ => by simp [Job.ownsRep]
  | @handlerAbort j job ret out hj _ _ _ =>
      have hkeep : Accounted (s.afterHandler j job ret out) :=
        h.keep hj rfl (fun _ => rfl) (fun q hq => marshallResult_allocated _ _ q _ ▸ hq) rfl
          fun _ => by simp [Job.ownsRep]
      exact hkeep
  | packReplyHeader hj _ =>
      exact h.keep hj rfl (fun _ => rfl) (fun q hq => packReplyHeader_allocated _ _ q _ _ ▸ hq) rfl
        fun _ => by simp [Job.ownsRep]
  | addReplyOptOut hj _ hz =>
      exact h.keep hj rfl (fun _ => rfl) (fun _ hq => hq) rfl fun _ => by simp [Job.ownsRep, hz]
  | @addReply j job ret out t hj hp hn ht =>
      refine h.step rfl (fun q hq => .inl hq) (fun kob q hk _ hq _ => ?_) fun n e he _ =>
          (ReplyTables.mem_window_addReply hc.wf ht).mpr (.inl he)
      rw [hj] at hk
      cases hk
      -- the block passes from the activation to the new entry
      exact ⟨.entry job.req.cltNonce job.req.xid, _,
        (ReplyTables.mem_window_addReply hc.wf ht).mpr (.inr ⟨rfl, rfl⟩), rfl, hq⟩
  | keepConn hj hp | moveConn hj hp _ =>
      exact h.keep hj rfl (fun _ => rfl) (fun _ hq => hq) rfl
        fun hown => by simpa [Job.ownsRep, hp] using hown
  | @send j job b sz hj hp =>
      refine h.step rfl (fun q hq => .inl ?_) (fun kob q hk hown hq hal => ?_) fun _ _ he _ => he
      · unfold Job.release at hq
        split at hq
        · exact ((freeAll_allocated _ _ q).mp hq).1
        · exact hq
      · rw [hj] at hk
        cases hk
        unfold Job.release at hal
        rw [if_pos hown] at hal
        exact absurd (List.mem_singleton.mpr hq.symm) ((freeAll_allocated _ _ q).mp hal).2
  | abort => exact h

theorem accounted_of_reachable (h : (serverMachine cfg).Reachable s) :
    Once s ∧ Cache s ∧ Buffers cfg s ∧ Accounted s :=
  h.invariant (P := fun s => Once s ∧ Cache s ∧ Buffers cfg s ∧ Accounted s)
    ⟨once_init, cache_init, buffers_init, accounted_init⟩ fun _ _ _ hs hn =>
      ⟨once_next hs.1 hn, cache_next hs.1 hs.2.1 hn, buffers_next hs.1 hs.2.1 hs.2.2.1 hn,
        accounted_next hs.2.1 hs.2.2.2 hn⟩

/-- Windows are made by `dispatch` before the check, for the client of the job. -/
theorem windows_of_next (hc : Cache s) (hn : s.next cfg a = some s') {n : UInt32}
    (hw : (s'.tables.replyWindow n).isSome) : (s.tables.replyWindow n).isSome ∨
      ∃ j job, a = .createWindow j ∧ s.jobs j = some job ∧ job.req.cltNonce = n := by
  have hcheck : ∀ {j : Nat} {job : Job} {r : ReplyTables.CheckResult}, s.jobs j = some job →
      job.phase = .connSaved → s.checkResult job.req = some r →
      (r.tables.replyWindow n).isSome → (s.tables.replyWindow n).isSome := by
    intro j job r hj hp hr hw
    obtain ⟨t₁, hraise, ht, -, -⟩ := ReplyTables.checkduplicateAndUpdate_inv hr
    rw [ht, ReplyTables.insertSeen_replyWindow] at hw
    by_cases hn : n = job.req.cltNonce
    · subst hn
      exact (hc.jobs j job hj).ready (.inr (.inl hp))
    · rcases ReplyTables.raiseLowerBound_cases hraise with ⟨-, -, rfl⟩ | ⟨_, -, -, -, rfl⟩ |
        ⟨_, -, -, -, rfl⟩
      · exact hw
      · exact hw
      · simpa [ReplyTables.raised, hn] using hw
  cases step_of_next hn with
  | @createWindow j job hj _ =>
      by_cases hn : job.req.cltNonce = n
      · exact .inr ⟨j, job, rfl, hj, hn⟩
      · rw [setJob_tables] at hw
        unfold ReplyTables.createWindow at hw
        split at hw
        · exact .inl (by simpa [Function.update_of_ne (Ne.symm hn)] using hw)
        · exact .inl hw
  | checkNew hj hp hr _ | checkInprogress hj hp hr _ | checkDone hj hp hr _ _
  | checkForgotten hj hp hr _ => exact .inl (hcheck hj hp hr hw)
  | addReply _ _ _ ht =>
      exact .inl (by rwa [setJob_tables, (ReplyTables.addReply_inv ht).2.2.1] at hw)
  | _ => exact .inl hw

end Server

/-! ## The connections and the destructor -/

namespace ConnServer

variable {cfg : ServerConfig} {s : ConnServer} {e : Effect} {a : ConnAct}

/-- What a step leaves to `tcpsconn`, and the windows after it. -/
structure Beside (s : ConnServer) (a : ConnAct) (e : Effect) : Prop where
  kept : (∀ c, a ≠ .accept c) → (∀ c, a ≠ .collect c) → a ≠ .erase →
    e.2.accepted = s.accepted ∧ e.2.collecting = s.collecting
  windows : ∀ n, (e.2.server.tables.replyWindow n).isSome →
    (s.server.tables.replyWindow n).isSome ∨
      ∃ j job, a = .createWindow j ∧ s.server.jobs j = some job ∧ job.req.cltNonce = n

/-- A step of the server instance that makes no window, or none. -/
theorem beside_of_server (cfg : ServerConfig) (hc : s.server.Cache)
    (hacc : e.2.accepted = s.accepted) (hcoll : e.2.collecting = s.collecting)
    (hserver : e.2.server = s.server ∨
      ∃ b, s.server.next cfg b = some e.2.server ∧ ∀ j, b ≠ .createWindow j) :
    Beside s a e where
  kept _ _ _ := ⟨hacc, hcoll⟩
  windows n hw := by
    rcases hserver with heq | ⟨b, hn, hb⟩
    · exact .inl (heq ▸ hw)
    · rcases Server.windows_of_next hc hn hw with hold | ⟨j, -, he, -⟩
      · exact .inl hold
      · exact absurd he (hb j)

theorem beside_of_effect (hc : s.server.Cache) (h : s.effect cfg a = some e) : Beside s a e := by
  cases a with
  | accept c | collect c =>
      simp only [effect] at h
      split at h
      case isFalse => cases h
      case isTrue =>
        cases h
        exact ⟨by simp, fun n hw => .inl hw⟩
  | die c =>
      simp only [effect] at h
      split at h
      case isFalse => cases h
      case isTrue =>
        cases h
        exact beside_of_server cfg hc rfl rfl (.inl rfl)
  | gotPdu c b =>
      simp only [effect] at h
      split at h
      case isFalse => cases h
      case isTrue =>
        cases h
        unfold gotPdu
        simp only
        split <;> exact beside_of_server cfg hc rfl rfl (.inl rfl)
  | dispatch j p =>
      simp only [effect] at h
      split at h
      · cases h
      · unfold dispatch at h
        split at h
        · cases h
          exact beside_of_server cfg hc rfl rfl (.inl rfl)
        · obtain ⟨t, hn, rfl⟩ := Option.map_eq_some_iff.mp h
          split <;> exact beside_of_server cfg hc rfl rfl (.inr ⟨_, hn, by simp⟩)
  | createWindow j =>
      obtain ⟨job, t, hj, hn, rfl⟩ := activation_inv h
      refine ⟨fun _ _ _ => ⟨rfl, rfl⟩, fun n hw => ?_⟩
      rcases Server.windows_of_next hc hn hw with hold | ⟨k, kob, he, hk, hnonce⟩
      · exact .inl hold
      · cases he
        exact .inr ⟨j, kob, rfl, hk, hnonce⟩
  | runHandler j _ _ | packReplyHeader j | addReply j =>
      obtain ⟨job, t, -, hn, rfl⟩ := activation_inv h
      exact beside_of_server cfg hc rfl rfl (.inr ⟨_, hn, by simp⟩)
  | saveConn j =>
      obtain ⟨job, t, -, hn, rfl⟩ := activation_inv h
      unfold saveConn
      simp only
      split
      · exact beside_of_server cfg hc rfl rfl (.inr ⟨_, hn, by simp⟩)
      · split <;> exact beside_of_server cfg hc rfl rfl (.inr ⟨_, hn, by simp⟩)
  | check j =>
      obtain ⟨job, t, -, hn, rfl⟩ := activation_inv h
      unfold check
      split <;> exact beside_of_server cfg hc rfl rfl (.inr ⟨_, hn, by simp⟩)
  | pickConn j =>
      simp only [effect] at h
      split at h
      · cases h
      · obtain ⟨job, t, -, hn, rfl⟩ := activation_inv h
        unfold pickConn
        simp only
        split
        · split
          · exact beside_of_server cfg hc rfl rfl (.inr ⟨_, hn, by simp⟩)
          · split <;> exact beside_of_server cfg hc rfl rfl (.inr ⟨_, hn, by simp⟩)
        · exact beside_of_server cfg hc rfl rfl (.inr ⟨_, hn, by simp⟩)
  | send j =>
      obtain ⟨job, t, -, hn, rfl⟩ := activation_inv h
      unfold finish
      simp only
      split <;> exact beside_of_server cfg hc rfl rfl (.inr ⟨_, hn, by simp⟩)
  | erase =>
      simp only [effect] at h
      split at h
      · cases h
      · cases h
        exact ⟨by simp, fun n hw => .inl hw⟩

end ConnServer

/-- How far `~rpcs` is. -/
inductive Stage where
  | serving
  /-- `~tcpsconn` has joined the accept thread, and these connections are left in
  its loop. -/
  | closing (left : List ConnId)
  /-- `~ThrPool` waits for its threads. -/
  | draining
  | ended
deriving DecidableEq, Repr

/-- A server instance from its constructor to the end of its destructor. -/
structure Life where
  net : ConnServer
  /-- The keys of `reply_window_`, in their order. -/
  clients : List UInt32
  stage : Stage

inductive LifeAct where
  /-- A step of the instance and its connections. -/
  | serve (a : ConnAct)
  /-- `~tcpsconn` joins the accept thread.  Its map has the connections in this
  order. -/
  | joinAccept (order : List ConnId)
  /-- `closeconn` on the connection its loop is at. -/
  | closeconn
  /-- `decref` on the same. -/
  | giveUp
  /-- `delete listener_` is over, `delete dispatchpool_` begins. -/
  | deletePool
  /-- The threads are joined, and `free_reply_window` runs. -/
  | freeReplyWindow
deriving DecidableEq, Repr

/-- What still runs beside the destructor. -/
def Stage.allows : Stage → ConnAct → Bool
  | .serving, _ => true
  | .ended, _ => false
  | _, .accept _ | _, .collect _ | _, .erase => false
  | _, _ => true

namespace Life

/-- `rpcs::rpcs`. -/
def init : Life := ⟨.init, [], .serving⟩

/-- The keys of `reply_window_` after `reply_window_[n]`. -/
def insertClient (n : UInt32) (ks : List UInt32) : List UInt32 :=
  if ks.contains n then ks else ks.orderedInsert (· ≤ ·) n

/-- The keys after a step. -/
def clientsAfter (s : Life) : ConnAct → List UInt32
  | .createWindow j =>
      match s.net.server.jobs j with
      | none => s.clients
      | some job => insertClient job.req.cltNonce s.clients
  | _ => s.clients

/-- The buffers `free_reply_window` frees, in its order. -/
def replyBufs (s : Life) : List Ptr :=
  s.clients.flatMap fun n => (s.net.server.tables.window n).map ReplyT.buf

/-- `rpcs::free_reply_window`. -/
def freeReplyWindow (s : Life) : Life :=
  { s with
    net := { s.net with server := { s.net.server with
      heap := freeAll s.net.server.heap s.replyBufs
      tables := { s.net.server.tables with replyWindow := fun _ => none } } }
    clients := []
    stage := .ended }

def next (cfg : ServerConfig) (s : Life) : LifeAct → Option Life
  | .serve a =>
      if s.stage.allows a then
        (s.net.next cfg a).map fun net => { s with net := net, clients := s.clientsAfter a }
      else none
  | .joinAccept order =>
      if s.net.server.aborted = false ∧ s.stage = .serving ∧ s.net.collecting = none ∧
          order.Perm s.net.accepted then
        some { s with stage := .closing order }
      else none
  | .closeconn =>
      match s.stage with
      | .closing (c :: _) =>
          if s.net.server.aborted = false ∧ s.net.dead c = false then
            some { s with net := { s.net with dead := Function.update s.net.dead c true } }
          else none
      | _ => none
  | .giveUp =>
      match s.stage with
      | .closing (c :: left) =>
          if s.net.server.aborted = false ∧ s.net.dead c = true then
            match RefOp.applyAll s.net.refno [.decref c] with
            -- VERIFY(refno_>=0)
            | none => some { s with net := { s.net with server := s.net.server.abort } }
            | some r => some { s with
                net := { s.net with accepted := s.net.accepted.erase c, refno := r }
                stage := .closing left }
          else none
      | _ => none
  | .deletePool =>
      if s.net.server.aborted = false ∧ s.stage = .closing [] then
        some { s with stage := .draining }
      else none
  | .freeReplyWindow =>
      if s.net.server.aborted = false ∧ s.stage = .draining ∧ s.net.jobq = [] ∧
          s.net.running = [] then
        some s.freeReplyWindow
      else none

end Life

/-- A server instance and its destructor under arbitrary traffic. -/
def lifeMachine (cfg : ServerConfig) : Machine Life LifeAct where
  init := .init
  next := Life.next cfg

namespace Life

variable {cfg : ServerConfig} {s s' : Life} {a : LifeAct}

/-- What holds until `free_reply_window` has run. -/
structure Inv (cfg : ServerConfig) (s : Life) : Prop where
  net : s.net.Inv
  server : (serverMachine cfg).Reachable s.net.server
  clients_nodup : s.clients.Nodup
  clients : ∀ n, (s.net.server.tables.replyWindow n).isSome → n ∈ s.clients
  closing : ∀ left, s.stage = .closing left → left.Perm s.net.accepted
  draining : s.stage = .draining → s.net.accepted = []
  /-- The accept thread collects nothing once it is joined. -/
  joined : s.stage ≠ .serving → s.net.collecting = none

theorem inv_init : Inv cfg Life.init where
  net := .init
  server := .init
  clients_nodup := .nil
  clients n h := by
    simp [Life.init, ConnServer.init, Server.init, ReplyTables.empty] at h
  closing left h := by cases h
  draining h := by cases h
  joined h := absurd rfl h

theorem mem_insertClient {n m : UInt32} {ks : List UInt32} :
    m ∈ insertClient n ks ↔ m = n ∨ m ∈ ks := by
  unfold insertClient
  split
  · next hn =>
      refine ⟨.inr, ?_⟩
      rintro (rfl | hm)
      · exact List.contains_iff_mem.mp hn
      · exact hm
  · exact List.mem_orderedInsert _

theorem nodup_insertClient {n : UInt32} {ks : List UInt32} (h : ks.Nodup) :
    (insertClient n ks).Nodup := by
  unfold insertClient
  split
  · exact h
  · next hn =>
      have hnot : n ∉ ks := fun hm => hn (List.contains_iff_mem.mpr hm)
      exact (List.perm_orderedInsert _ n ks).nodup_iff.mpr (List.nodup_cons.mpr ⟨hnot, h⟩)

/-- A step of the instance and its connections. -/
theorem Inv.serve (h : Inv cfg s) {b : ConnAct} (hallow : s.stage.allows b = true)
    {net : ConnServer} (hn : s.net.next cfg b = some net) :
    Inv cfg { s with net := net, clients := s.clientsAfter b } := by
  obtain ⟨hnet, e, r, he, rfl⟩ := h.net.next hn
  have hc := (Server.accounted_of_reachable h.server).2.1
  have hbeside := ConnServer.beside_of_effect hc he
  have hkept : s.stage ≠ .serving →
      e.2.accepted = s.net.accepted ∧ e.2.collecting = s.net.collecting := by
    intro hs
    refine hbeside.kept ?_ ?_ ?_
    · rintro c rfl
      cases hst : s.stage <;> simp_all [Stage.allows]
    · rintro c rfl
      cases hst : s.stage <;> simp_all [Stage.allows]
    · rintro rfl
      cases hst : s.stage <;> simp_all [Stage.allows]
  refine ⟨hnet, ?_, ?_, fun n hw => ?_, fun left hl => ?_, fun hd => ?_, fun hs => ?_⟩
  · rcases (ConnServer.changes_of_effect he).server with heq | ⟨b', hb, -⟩
    · exact heq ▸ h.server
    · exact h.server.step hb
  · unfold clientsAfter
    split
    · split
      · exact h.clients_nodup
      · exact nodup_insertClient h.clients_nodup
    · exact h.clients_nodup
  · rcases hbeside.windows n hw with hold | ⟨j, job, rfl, hj, rfl⟩
    · have hmem := h.clients n hold
      unfold clientsAfter
      split
      · split
        · exact hmem
        · exact mem_insertClient.mpr (.inr hmem)
      · exact hmem
    · simp only [clientsAfter, hj]
      exact mem_insertClient.mpr (.inl rfl)
  · have hacc := (hkept (by rw [show s.stage = .closing left from hl]; simp)).1
    exact hacc ▸ h.closing left hl
  · have hacc := (hkept (by rw [show s.stage = .draining from hd]; simp)).1
    exact hacc.trans (h.draining hd)
  · exact (hkept hs).2.trans (h.joined hs)

/-- `~tcpsconn` gives up the connection it has closed. -/
theorem Inv.giveUp (h : Inv cfg s) {c : ConnId} {left : List ConnId}
    (hs : s.stage = .closing (c :: left)) : ∃ r, RefOp.applyAll s.net.refno [.decref c] = some r ∧
      Inv cfg { s with
        net := { s.net with accepted := s.net.accepted.erase c, refno := r }
        stage := .closing left } := by
  have hperm := h.closing _ hs
  have hin : c ∈ s.net.accepted := hperm.subset List.mem_cons_self
  have hcoll : s.net.collecting = none := h.joined (by rw [hs]; simp)
  have hbacked : RefOp.Backed s.net.held
      { s.net with accepted := s.net.accepted.erase c }.held [.decref c] := by
    refine .decref fun k => ?_
    have hcount : 0 < s.net.accepted.count c := List.count_pos_iff.mpr hin
    simp only [ConnServer.held, ConnServer.holders, ConnServer.queued, List.count_erase, beq_iff_eq]
    split
    · next he =>
        subst he
        omega
    · omega
  obtain ⟨r, hr, hrefs⟩ := hbacked.applyAll h.net.refs
  refine ⟨r, hr, ⟨hrefs, h.net.nodup.erase c, fun ha => (h.net.tidy ha).of_eq rfl rfl rfl,
    fun k hk => ?_⟩, h.server, h.clients_nodup, h.clients, fun left' hl => ?_, fun hd => ?_,
    fun _ => hcoll⟩
  · rw [show s.net.collecting = some k from hk] at hcoll
    cases hcoll
  · cases hl
    simpa using hperm.erase c
  · cases hd

theorem inv_next (h : s.stage ≠ .ended → Inv cfg s) (hn : s.next cfg a = some s') :
    s'.stage ≠ .ended → Inv cfg s' := by
  intro hend
  cases a with
  | serve b =>
      simp only [Life.next] at hn
      split at hn
      case isFalse => cases hn
      case isTrue hallow =>
        obtain ⟨net, hnet, rfl⟩ := Option.map_eq_some_iff.mp hn
        exact (h hend).serve hallow hnet
  | joinAccept order =>
      simp only [Life.next] at hn
      split at hn
      case isFalse => cases hn
      case isTrue hg =>
        cases hn
        have hinv := h (by rw [hg.2.1]; simp)
        refine ⟨hinv.net, hinv.server, hinv.clients_nodup, hinv.clients, fun left hl => ?_,
          (fun hd => by cases hd), fun _ => hg.2.2.1⟩
        cases hl
        exact hg.2.2.2
  | closeconn =>
      simp only [Life.next] at hn
      split at hn
      case h_2 => cases hn
      case h_1 c left hs =>
        split at hn
        case isFalse => cases hn
        case isTrue =>
          cases hn
          have hinv := h (by rw [hs]; simp)
          have hcoll : s.net.collecting = none := hinv.joined (by rw [hs]; simp)
          refine ⟨⟨hinv.net.refs, hinv.net.nodup,
            fun ha => (hinv.net.tidy ha).of_eq rfl rfl rfl, fun k hk => ?_⟩, hinv.server,
            hinv.clients_nodup, hinv.clients, hinv.closing, hinv.draining, hinv.joined⟩
          rw [show s.net.collecting = some k from hk] at hcoll
          cases hcoll
  | giveUp =>
      simp only [Life.next] at hn
      split at hn
      case h_2 => cases hn
      case h_1 c left hs =>
        split at hn
        case isFalse => cases hn
        case isTrue =>
          obtain ⟨r, hr, hinv⟩ := (h (by rw [hs]; simp)).giveUp hs
          rw [hr] at hn
          cases hn
          exact hinv
  | deletePool =>
      simp only [Life.next] at hn
      split at hn
      case isFalse => cases hn
      case isTrue hg =>
        cases hn
        have hinv := h (by rw [hg.2]; simp)
        exact ⟨hinv.net, hinv.server, hinv.clients_nodup, hinv.clients,
          (fun left hl => by cases hl),
          fun _ => List.perm_nil.mp (hinv.closing [] hg.2).symm,
          fun _ => hinv.joined (by rw [hg.2]; simp)⟩
  | freeReplyWindow =>
      simp only [Life.next] at hn
      split at hn
      case isFalse => cases hn
      case isTrue =>
        cases hn
        exact absurd rfl hend

theorem inv_of_reachable (h : (lifeMachine cfg).Reachable s) : s.stage ≠ .ended → Inv cfg s :=
  h.invariant (P := fun s => s.stage ≠ .ended → Inv cfg s) (fun _ => inv_init)
    fun _ _ _ hs hn => inv_next hs hn

/-! ## What is left -/

theorem mem_replyBufs {p : Ptr} :
    p ∈ s.replyBufs ↔ ∃ n ∈ s.clients, ∃ e ∈ s.net.server.tables.window n, e.buf = p := by
  simp only [replyBufs, List.mem_flatMap, List.mem_map]

/-- A client with an entry has a window. -/
theorem Inv.mem_clients (h : Inv cfg s) {n : UInt32} {e : ReplyT}
    (he : e ∈ s.net.server.tables.window n) : n ∈ s.clients := by
  refine h.clients n ?_
  cases hw : s.net.server.tables.replyWindow n with
  | none => simp [ReplyTables.window, hw] at he
  | some w => rfl

/-- A block is allocated exactly while it has an owner, and it has only one. -/
theorem Inv.allocated_iff (h : Inv cfg s) (p : Ptr) :
    (s.net.server.heap p).allocated = true ↔ ∃! o, s.net.server.owns o p := by
  obtain ⟨-, -, hb, hacc⟩ := Server.accounted_of_reachable h.server
  constructor
  · intro hp
    obtain ⟨o, ho⟩ := hacc p hp
    exact ⟨o, ho, fun o' ho' => hb.owned.unique o' o p ho' ho⟩
  · rintro ⟨o, ho, -⟩
    exact hb.owned.alloc o p ho

/-- No buffer is listed twice. -/
theorem Inv.nodup_replyBufs (h : Inv cfg s) : s.replyBufs.Nodup := by
  obtain ⟨-, hc, hb, -⟩ := Server.accounted_of_reachable h.server
  have hsame : ∀ n m e e', e ∈ s.net.server.tables.window n → e' ∈ s.net.server.tables.window m →
      e.buf = e'.buf → n = m ∧ e = e' := by
    intro n m e e' he he' hbuf
    obtain ⟨hn, hx⟩ := BlockOwner.entry.inj (hb.owned.unique (.entry n e.xid) (.entry m e'.xid)
      e.buf ⟨e, he, rfl, rfl⟩ ⟨e', he', rfl, hbuf.symm⟩)
    subst hn
    exact ⟨rfl, ReplyTables.eq_of_xid_eq (hc.wf.sorted n) he he' hx⟩
  refine List.nodup_flatMap.mpr ⟨fun n _ => ?_, h.clients_nodup.imp fun {n m} hnm => ?_⟩
  · refine List.Nodup.map_on (fun e he e' he' hbuf => (hsame n n e e' he he' hbuf).2) ?_
    exact (hc.wf.sorted n).imp fun hlt heq => absurd hlt (by rw [heq]; exact lt_irrefl _)
  · intro p hp hp'
    obtain ⟨e, he, rfl⟩ := List.mem_map.mp hp
    obtain ⟨e', he', hbuf⟩ := List.mem_map.mp hp'
    exact hnm (hsame n m e e' he he' hbuf.symm).1

/-- Once every activation has returned, the allocated blocks are those of the
entries. -/
theorem Inv.mem_replyBufs_iff (h : Inv cfg s) (halive : s.net.server.aborted = false)
    (hrun : s.net.running = []) (p : Ptr) :
    p ∈ s.replyBufs ↔ (s.net.server.heap p).allocated = true := by
  obtain ⟨-, -, hb, hacc⟩ := Server.accounted_of_reachable h.server
  rw [mem_replyBufs]
  constructor
  · rintro ⟨n, -, e, he, rfl⟩
    exact hb.owned.alloc (.entry n e.xid) e.buf ⟨e, he, rfl, rfl⟩
  · intro hp
    obtain ⟨o, ho⟩ := hacc p hp
    cases o with
    | job j =>
        obtain ⟨job, hj, hown, -⟩ := ho
        have hphase : job.phase ≠ .finished := fun hf => by simp [Job.ownsRep, hf] at hown
        have hmem := (h.net.tidy halive).mem_running_of hj hphase
        rw [hrun] at hmem
        cases hmem
    | entry n x =>
        obtain ⟨e, he, -, hbuf⟩ := ho
        exact ⟨n, h.mem_clients he, e, he, hbuf⟩

/-- What `free_reply_window` finds and leaves at the end of `~rpcs`. -/
structure Cleared (s s' : Life) : Prop where
  /-- It frees the blocks that are still allocated, each once. -/
  nodup : s.replyBufs.Nodup
  freed : ∀ p, p ∈ s.replyBufs ↔ (s.net.server.heap p).allocated = true
  heap : ∀ p, (s'.net.server.heap p).allocated = false
  /-- `tcpsconn` has given up every connection, and what still holds one is an entry
  of `conns_`, or nobody. -/
  accepted : s'.net.accepted = []
  refs : ∀ c, s'.net.refno c =
    entriesOf s'.net.server.conns s'.net.keys c + s'.net.oldServed.count c

/-- In every state from the constructor to the end of the destructor a reply block
is allocated exactly while one activation or one window entry owns it, and the
destructor frees the rest, each block once.  It leaves the references of `conns_`. -/
theorem reply_memory_freed (h : (lifeMachine cfg).Reachable s) (hs : s.stage ≠ .ended) :
    (∀ p, (s.net.server.heap p).allocated = true ↔ ∃! o, s.net.server.owns o p) ∧
    ∀ s', s.next cfg .freeReplyWindow = some s' → Cleared s s' := by
  have hinv := inv_of_reachable h hs
  refine ⟨hinv.allocated_iff, fun s' hn => ?_⟩
  simp only [Life.next] at hn
  split at hn
  case isFalse => cases hn
  case isTrue hg =>
    obtain ⟨halive, hstage, hq, hrun⟩ := hg
    cases hn
    refine ⟨hinv.nodup_replyBufs, hinv.mem_replyBufs_iff halive hrun, fun p => ?_,
      hinv.draining hstage, fun c => ?_⟩
    · rw [freeReplyWindow, Bool.eq_false_iff]
      intro hp
      obtain ⟨hal, hnot⟩ := (freeAll_allocated _ _ p).mp hp
      exact hnot ((hinv.mem_replyBufs_iff halive hrun p).mpr hal)
    · have hrefs : s.net.refno c = s.net.held c := hinv.net.refs c
      rw [ConnServer.held, ConnServer.holders, ConnServer.queued, hinv.draining hstage, hq, hrun]
        at hrefs
      rw [freeReplyWindow]
      simpa [jobsOn] using hrefs

/-- The life of an instance that answers one request of client 7. -/
def oneRequest : List LifeAct :=
  [.serve (.accept 5), .serve (.gotPdu 5 (ConnServer.requestPdu 1 2 7 1 0)), .serve (.dispatch 0 0),
    .serve (.createWindow 0), .serve (.saveConn 0), .joinAccept [5], .closeconn,
    .serve (.check 0), .serve (.runHandler 0 0 []), .serve (.packReplyHeader 0), .giveUp,
    .serve (.addReply 0), .deletePool,
    .serve (.pickConn 0), .serve (.send 0)]

/-- The destructor frees the reply in block 0 and leaves connection 5 to `conns_`. -/
theorem reply_memory_freed_oneRequest : ∃ s s', (lifeMachine ConnServer.nonceOne).Reachable s ∧
    s.next ConnServer.nonceOne .freeReplyWindow = some s' ∧ s.replyBufs = [0] ∧
    s'.net.refno 5 = 1 ∧ Cleared s s' := by
  obtain ⟨s, hs, hp⟩ := Machine.exists_reachable_of_run (M := lifeMachine ConnServer.nonceOne)
    (p := fun s => decide (s.stage = .draining ∧ s.net.server.aborted = false ∧ s.net.jobq = [] ∧
      s.net.running = [] ∧ s.replyBufs = [0] ∧ s.net.refno 5 = 1)) oneRequest (by decide)
  obtain ⟨hstage, halive, hq, hrun, hbufs, href⟩ := of_decide_eq_true hp
  have hn : s.next ConnServer.nonceOne .freeReplyWindow = some s.freeReplyWindow :=
    if_pos ⟨halive, hstage, hq, hrun⟩
  exact ⟨s, _, hs, hn, hbufs, href, (reply_memory_freed hs (by simp [hstage])).2 _ hn⟩

end Life

end RpcLock.Rpcs
