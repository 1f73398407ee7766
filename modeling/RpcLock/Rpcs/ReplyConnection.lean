import RpcLock.Rpcs.DispatchLedger
import RpcLock.Rpcs.ReferenceBalance
import RpcLock.Rpcs.Routing

/-!
# The connection a reply is sent on

A reply to a `NEW` request goes out on the connection of the request, or on the
one saved for the nonce of its client if that one is dead.  Every saved or used
connection carried a request with the nonce.  Nothing is saved for the nonce 0,
with which a client opts out of at-most-once.  If the connection of such a client
is dead, `conns_[0]` inserts a null pointer and `dispatch` goes on with it.
-/

namespace RpcLock.Rpcs

/-- Whether the connection has been saved and the reply not been sent. -/
def Phase.afterSave : Phase → Bool
  | .connSaved => true
  | .accepted => true
  | .ran _ _ => true
  | .packed _ _ => true
  | .stored _ _ => true
  | _ => false

namespace Server

variable {cfg : ServerConfig} {s s' s₁ : Server} {j : Nat} {job job' : Job} {a : ServerAct}

/-- Only a client that wants at-most-once gets as far as the check. -/
theorem cltNonce_ne_zero (h : (serverMachine cfg).Reachable s) (hj : s.jobs j = some job)
    (hp : job.phase = .unpacked ∨ job.phase = .windowReady ∨ job.phase = .connSaved) :
    job.req.cltNonce ≠ 0 := by
  obtain ⟨l, -, ht⟩ := exists_ledger h
  exact ht.early j job hj hp

/-- Clients that want at-most-once have an entry, and the others have none. -/
structure Saved (s : Server) : Prop where
  entry : ∀ j job, s.jobs j = some job → job.phase.afterSave = true → job.req.cltNonce ≠ 0 →
    (s.conns job.req.cltNonce).isSome
  zero : s.conns 0 = none

theorem saved_init : Saved Server.init where
  entry j job h := by simp [Server.init] at h
  zero := rfl

/-- A step that does not touch the entries. -/
theorem Saved.setJob (h : Saved s) (hjobs : s₁.jobs = s.jobs) (hconns : s₁.conns = s.conns)
    (hjob : job'.phase.afterSave = true → job'.req.cltNonce ≠ 0 →
      (s.conns job'.req.cltNonce).isSome) : Saved (s₁.setJob j job') where
  entry k kob hk hp hn := by
    rw [setJob_conns, hconns]
    rcases setJob_jobs_cases hk with ⟨rfl, rfl⟩ | ⟨-, hk⟩
    · exact hjob hp hn
    · exact h.entry k kob (hjobs ▸ hk) hp hn
  zero := by rw [setJob_conns, hconns, h.zero]

/-- An activation goes on with the same request. -/
theorem Saved.move (h : Saved s) (hjobs : s₁.jobs = s.jobs) (hconns : s₁.conns = s.conns)
    (hj : s.jobs j = some job) (hreq : job'.req = job.req)
    (hp : job'.phase.afterSave = true → job.phase.afterSave = true) : Saved (s₁.setJob j job') :=
  h.setJob hjobs hconns fun hp' hn => by
    rw [hreq] at hn ⊢
    exact h.entry j job hj (hp hp') hn

theorem Saved.abort (h : Saved s) : Saved s.abort := ⟨h.entry, h.zero⟩

theorem saved_next (hr : (serverMachine cfg).Reachable s) (h : Saved s)
    (hn : s.next cfg a = some s') : Saved s' := by
  cases step_of_next hn with
  | oldServer => exact h.setJob rfl rfl fun hp => by cases hp
  | optOut _ _ _ hz => exact h.setJob rfl rfl fun _ hne => absurd hz hne
  | receive => exact h.setJob rfl rfl fun hp => by cases hp
  | createWindow hj _ => exact h.move rfl rfl hj rfl fun hp => by cases hp
  | @saveConn j job hj hp =>
      have hne : job.req.cltNonce ≠ 0 := cltNonce_ne_zero hr hj (.inr (.inl hp))
      refine ⟨fun k kob hk hp' hn' => ?_, ?_⟩
      · simp only [setJob_conns]
        by_cases hnn : kob.req.cltNonce = job.req.cltNonce
        · rw [hnn, Function.update_self]
          rfl
        · rw [Function.update_of_ne hnn]
          rcases setJob_jobs_cases hk with ⟨rfl, rfl⟩ | ⟨-, hk⟩
          · exact absurd rfl hnn
          · exact h.entry k kob hk hp' hn'
      · simp only [setJob_conns]
        rw [Function.update_of_ne (Ne.symm hne), h.zero]
  | checkNew hj hp _ _ => exact h.move rfl rfl hj rfl fun _ => by rw [hp]; rfl
  | checkInprogress hj _ _ _ => exact h.move rfl rfl hj rfl fun hp => by cases hp
  | checkDone hj _ _ _ _ => exact h.move rfl rfl hj rfl fun hp => by cases hp
  | checkForgotten hj _ _ _ => exact h.move rfl rfl hj rfl fun hp => by cases hp
  | runHandler hj hp _ _ => exact h.move rfl rfl hj rfl fun _ => by rw [hp]; rfl
  | handlerAbort hj hp _ _ =>
      refine Saved.abort ?_
      exact h.move rfl rfl hj rfl fun _ => by rw [hp]; rfl
  | packReplyHeader hj hp => exact h.move rfl rfl hj rfl fun _ => by rw [hp]; rfl
  | addReplyOptOut hj hp _ => exact h.move rfl rfl hj rfl fun _ => by rw [hp]; rfl
  | addReply hj hp _ _ => exact h.move rfl rfl hj rfl fun _ => by rw [hp]; rfl
  | keepConn hj _ => exact h.move rfl rfl hj rfl fun hp => by cases hp
  | moveConn hj _ _ => exact h.move rfl rfl hj rfl fun hp => by cases hp
  | send hj _ => exact h.move rfl rfl hj rfl fun hp => by cases hp
  | abort => exact h.abort

theorem saved_of_reachable (h : (serverMachine cfg).Reachable s) : Saved s := by
  refine (h.invariant (P := fun s => (serverMachine cfg).Reachable s ∧ Saved s)
    ⟨.init, saved_init⟩ ?_).2
  rintro s s' a ⟨hr, hs⟩ hn
  exact ⟨hr.step hn, saved_next hr hs hn⟩

end Server

namespace ConnServer

variable {cfg : ServerConfig} {s s' : ConnServer} {j : Nat} {job : Job} {a : ConnAct}

/-- The server instance in a reachable state is a reachable one. -/
theorem server_of_reachable (h : (connServerMachine cfg).Reachable s) :
    (serverMachine cfg).Reachable s.server := by
  refine (h.invariant (P := fun s => s.Inv ∧ (serverMachine cfg).Reachable s.server)
    ⟨.init, .init⟩ ?_).2
  rintro s s' a ⟨hinv, hr⟩ hn
  obtain ⟨hinv', e, r, he, rfl⟩ := hinv.next hn
  refine ⟨hinv', ?_⟩
  rcases (changes_of_effect he).server with heq | ⟨b, hb, -⟩
  · exact heq ▸ hr
  · exact hr.step hb

/-! ## What arrived where -/

/-- A request with the nonce `n` arrived on `c`. -/
def Arrived (s : ConnServer) (c : ConnId) (n : UInt32) : Prop :=
  ∃ d ∈ s.arrived, d.conn = c ∧ ∃ req, readRequest d.buf = some req ∧ req.cltNonce = n

/-- Jobs, saved connections and replies are where requests with their nonce
arrived. -/
structure Sourced (s : ConnServer) : Prop where
  jobq : ∀ d ∈ s.jobq, d ∈ s.arrived
  server : s.server.Carried (fun c req => s.Arrived c req.cltNonce) fun n c => s.Arrived c n

theorem sourced_next (hinv : s.Inv) (hs : s.Sourced) (h : s.next cfg a = some s') :
    s'.Sourced := by
  obtain ⟨-, e, r, he, rfl⟩ := hinv.next h
  have hch := changes_of_effect he
  have hmono : ∀ c n, s.Arrived c n → e.2.Arrived c n := by
    rintro c n ⟨d, hd, hreq⟩
    exact ⟨d, hch.arrived d hd, hreq⟩
  refine ⟨fun d hd => ?_, ?_⟩
  · rcases hch.jobq d hd with hd | hd
    · exact hch.arrived d (hs.jobq d hd)
    · exact hd
  · have hold := hs.server.mono (fun c req => hmono c req.cltNonce) fun n c => hmono c n
    rcases hch.server with heq | ⟨b, hb, hreceive⟩
    · rw [← heq] at hold
      exact hold
    · refine Server.carried_next (fun _ _ hc => hc) (fun _ _ _ _ hc => hc) hold ?_ hb
      intro j c req p hbe
      obtain ⟨d, hd, hconn, hreq⟩ := hreceive j c req p hbe
      exact hmono c req.cltNonce ⟨d, hs.jobq d hd, hconn, req, hreq, rfl⟩

theorem sourced_of_reachable (h : (connServerMachine cfg).Reachable s) : s.Sourced := by
  refine (h.invariant (P := fun s => s.Inv ∧ s.Sourced) ⟨.init, ?_⟩ ?_).2
  · exact ⟨fun d hd => (List.not_mem_nil hd).elim, Server.carried_init⟩
  · rintro s s' a ⟨hinv, hs⟩ hn
    exact ⟨(hinv.next hn).1, sourced_next hinv hs hn⟩

/-! ## The choice of the connection -/

/-- The step does not pick a connection for the reply to an opted-out client
whose own is dead. -/
def OwnOrSaved (s : ConnServer) : ConnAct → Prop
  | .pickConn j => ∀ job ∈ s.server.jobs j, ¬ (job.req.cltNonce = 0 ∧ s.dead job.conn = true)
  | _ => True

instance (s : ConnServer) (a : ConnAct) : Decidable (s.OwnOrSaved a) :=
  match a with
  | .pickConn j => inferInstanceAs (Decidable (∀ job ∈ s.server.jobs j, _))
  | .accept _ | .die _ | .gotPdu _ _ | .dispatch _ _ | .createWindow _ | .saveConn _ | .check _
  | .runHandler _ _ _ | .packReplyHeader _ | .addReply _ | .send _ | .collect _ | .erase =>
      .isTrue trivial

/-- After the choice the activation `j` is about to send its reply on a
connection on which a request with its nonce arrived, and `conns_` has no new
entry. -/
structure PicksKnown (s s' : ConnServer) (j : Nat) (job : Job) : Prop where
  conn : ∃ job' b sz, s'.server.jobs j = some job' ∧ job'.phase = .sending b sz ∧
    s.Arrived job'.conn job.req.cltNonce
  keys : s'.keys = s.keys

/-- The choice of a live process, as a step of the server instance. -/
theorem pickConn_next (hinv : s.Inv) (hj : s.server.jobs j = some job)
    (h : s.next cfg (.pickConn j) = some s') :
    ∃ t r, s.server.next cfg (.pickConn j (s.dead job.conn)) = some t ∧
      s' = { (s.pickConn j job t).2 with refno := r } := by
  obtain ⟨-, e, r, he, rfl⟩ := hinv.next h
  simp only [effect, hj] at he
  obtain ⟨job', t, hj', hn, rfl⟩ := activation_inv he
  cases hj.symm.trans hj'
  exact ⟨t, r, hn, rfl⟩

theorem picksKnown_iff (h : (connServerMachine cfg).Reachable s)
    (hj : s.server.jobs j = some job) (hn : s.next cfg (.pickConn j) = some s') :
    s.PicksKnown s' j job ↔ ¬ (job.req.cltNonce = 0 ∧ s.dead job.conn = true) := by
  have hinv := inv_of_reachable h
  have hsrc := sourced_of_reachable h
  have hsaved := Server.saved_of_reachable (server_of_reachable h)
  obtain ⟨t, r, ht, rfl⟩ := pickConn_next hinv hj hn
  have htidy := hinv.tidy (Server.not_aborted_of_next ht)
  obtain ⟨b, sz, hp, hcases⟩ := pickConn_inv hj ht
  rcases hcases with ⟨hd, hc, rfl⟩ | ⟨c₁, hd, hc, hne, rfl⟩ | ⟨hd, rfl⟩
  · -- no entry: the client opted out
    have hzero : job.req.cltNonce = 0 := by
      by_contra hne
      have := hsaved.entry j job hj (by rw [hp]; rfl) hne
      rw [hc] at this
      cases this
    refine iff_of_false (fun hpick => ?_) (not_not.mpr ⟨hzero, hd⟩)
    obtain ⟨job', _, _, hj', hp', -⟩ := hpick.conn
    simp only [ConnServer.pickConn, if_pos hd, hc, Server.abort_jobs] at hj'
    cases hj.symm.trans hj'
    rw [hp] at hp'
    cases hp'
  · -- the saved connection
    have hnz : ¬ (job.req.cltNonce = 0 ∧ s.dead job.conn = true) := by
      rintro ⟨hz, -⟩
      rw [hz, hsaved.zero] at hc
      cases hc
    refine iff_of_true ⟨⟨{ job with conn := c₁, phase := .sending b sz }, b, sz, ?_, rfl,
      hsrc.server.conns _ c₁ hc⟩, ?_⟩ hnz
    · simp [ConnServer.pickConn, hd, hc, hne]
    · simp only [ConnServer.pickConn, if_pos hd, hc, if_neg hne]
      exact if_pos (htidy.mem_keys_of hc)
  · -- its own connection
    have hnz : ¬ (job.req.cltNonce = 0 ∧ s.dead job.conn = true) := by
      rintro ⟨hz, hdead⟩
      have := hd hdead
      rw [hz, hsaved.zero] at this
      cases this
    refine iff_of_true ⟨⟨{ job with phase := .sending b sz }, b, sz, ?_, rfl,
      hsrc.server.jobs j job hj⟩, ?_⟩ hnz
    · by_cases hdead : s.dead job.conn = true
      · simp [ConnServer.pickConn, hdead, hd hdead]
      · simp [ConnServer.pickConn, hdead]
    · by_cases hdead : s.dead job.conn = true
      · simp only [ConnServer.pickConn, if_pos hdead, hd hdead, if_true]
        exact if_pos (htidy.mem_keys_of (hd hdead))
      · simp only [ConnServer.pickConn, if_neg hdead]

/-! ## Runs -/

/-- No entry is made for the nonce 0. -/
theorem zero_not_mem_keys (h : (connServerMachine cfg).ReachedVia OwnOrSaved s) : 0 ∉ s.keys := by
  refine (h.invariant (P := fun s => (connServerMachine cfg).Reachable s ∧ 0 ∉ s.keys)
    ⟨.init, List.not_mem_nil⟩ ?_).2
  rintro s s' a ⟨hr, hz⟩ hg hn
  refine ⟨hr.step hn, fun hmem => ?_⟩
  obtain ⟨-, e, r, he, rfl⟩ := (inv_of_reachable hr).next hn
  rcases (changes_of_effect he).keys 0 hmem with hold | ⟨j, job, hj, hzero, rfl | ⟨rfl, hd⟩⟩
  · exact hz hold
  · -- only clients that want at-most-once get to the save
    obtain ⟨job', t, hj', ht, rfl⟩ := activation_inv he
    cases hj.symm.trans hj'
    exact Server.cltNonce_ne_zero (server_of_reachable hr) hj
      (.inr (.inl (saveConn_inv hj ht).1)) hzero
  · exact hg job hj ⟨hzero, hd⟩

/-- `dispatch` has a connection to reply on unless the client opted out and its
connection is dead when the reply is ready.  As long as that does not happen
every reply goes to a connection on which a request with its nonce arrived, and
opted-out clients get no entry. -/
theorem reply_connection (cfg : ServerConfig) :
    (∀ s, (connServerMachine cfg).ReachedVia OwnOrSaved s →
      (∀ m ∈ s.server.sent, s.Arrived m.conn m.req.cltNonce) ∧ 0 ∉ s.keys) ∧
    ∀ s s' j job, (connServerMachine cfg).Reachable s → s.server.jobs j = some job →
      s.next cfg (.pickConn j) = some s' →
      (s.PicksKnown s' j job ↔ ¬ (job.req.cltNonce = 0 ∧ s.dead job.conn = true)) :=
  ⟨fun _ h => ⟨(sourced_of_reachable h.reachable).server.sent, zero_not_mem_keys h⟩,
    fun _ _ _ _ h hj hn => picksKnown_iff h hj hn⟩

/-- The connection of a request dies while its handler runs, and the reply goes
out on a newer one of the client. -/
theorem reply_connection_newer : ∃ s : ConnServer,
    (∀ m ∈ s.server.sent, s.Arrived m.conn m.req.cltNonce) ∧ 0 ∉ s.keys ∧
      s.server.sent.map Sent.conn = [6] ∧ s.dead 5 = true := by
  obtain ⟨s, hs, hp⟩ := Machine.exists_reachedVia_of_run (M := connServerMachine nonceOne)
    (G := OwnOrSaved)
    (p := fun s => decide (s.server.sent.map Sent.conn = [6] ∧ s.dead 5 = true))
    [.accept 5, .accept 6, .gotPdu 5 (requestPdu 1 2 7 1 0), .gotPdu 6 (requestPdu 2 2 7 1 0),
      .dispatch 0 0, .dispatch 1 1, .createWindow 0, .createWindow 1, .saveConn 0, .saveConn 1,
      .check 0, .runHandler 0 0 [], .packReplyHeader 0, .die 5, .addReply 0, .pickConn 0,
      .send 0] (by decide)
  obtain ⟨hsent, hkeys⟩ := (reply_connection nonceOne).1 s hs
  exact ⟨s, hsent, hkeys, of_decide_eq_true hp⟩

/-- The connection of an opted-out client dies while the handler runs. -/
theorem reply_on_null : ∃ s s' job, (connServerMachine nonceOne).Reachable s ∧
    s.server.jobs 0 = some job ∧ s.next nonceOne (.pickConn 0) = some s' ∧
      ¬ s.PicksKnown s' 0 job ∧ s'.keys = [0] ∧ s'.server.conns 0 = none := by
  obtain ⟨s, hs, hp⟩ := Machine.exists_reachable_of_run (M := connServerMachine nonceOne)
    (p := fun s => decide (s.keys = [] ∧ (s.server.jobs 0).isSome) &&
      (s.next nonceOne (.pickConn 0)).any fun s' : ConnServer =>
        decide (s'.keys = [0] ∧ s'.server.conns 0 = none))
    [.accept 5, .gotPdu 5 (requestPdu 1 2 0 1 0), .dispatch 0 0, .runHandler 0 0 [],
      .packReplyHeader 0, .die 5, .addReply 0] (by decide)
  obtain ⟨hbefore, hafter⟩ := Bool.and_eq_true_iff.mp hp
  obtain ⟨hnil, hsome⟩ := of_decide_eq_true hbefore
  obtain ⟨s', hn, hs'⟩ := (Option.any_eq_true _ _).mp hafter
  obtain ⟨hkeys, hnull⟩ := of_decide_eq_true hs'
  obtain ⟨job, hj⟩ := Option.isSome_iff_exists.mp hsome
  refine ⟨s, s', job, hs, hj, hn, fun hpick => ?_, hkeys, hnull⟩
  have := hpick.keys
  rw [hkeys, hnil] at this
  cases this

end ConnServer

end RpcLock.Rpcs
