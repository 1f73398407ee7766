import RpcLock.System.SavedReply

/-!
# Calls end to end

Any number of clients and instances, in runs where no client reuses an xid and
no check overtakes the sending of a saved reply.  An application call then runs
its handler at most once over all instances, a call that returns a result ran it
exactly once, and the result is that of this execution.

The instance is fixed at bind: `srv_nonce_` holds the nonce of the instance that
executed a bind call of the client, and only that instance accepts the request.

A check that overtakes breaks this.  The freed buffer goes to another client's
reply, and the stalled activation sends that one.
-/

namespace RpcLock.Sys

open Rpcc Rpcs

section

variable {K I : Type} {cfg : Config K I} {s s' : Sys K I} {a : SysAct K I}

/-- A bind call of client `k` returned 0 with this nonce. -/
def ObtainedAtBind (s : Sys K I) (k : K) (nonce : UInt32) : Prop :=
  ∃ t call r, (s.clients k).calls t = some call ∧ call.req.proc = RpcConst.bind ∧
    call.ret = some 0 ∧ call.reply = some r ∧ readNonce r.payload = some nonce

/-- Execution number `p.2` of instance `p.1` was for the call `x` of client `k`. -/
def Executed (cfg : Config K I) (s : Sys K I) (k : K) (x : UInt32) (p : I × Nat) (e : Exec) : Prop :=
  (s.servers p.1).execs[p.2]? = some e ∧ e.req.cltNonce = cfg.cltNonce k ∧ e.req.xid = x

/-- What clients know, in terms of what instances did. -/
structure Linked (cfg : Config K I) (s : Sys K I) : Prop where
  traffic : Traffic cfg s
  reply : ∀ k t call r, (s.clients k).calls t = some call → call.reply = some r →
    ∃ i, (s.servers i).Answers (cfg.server i) (cfg.cltNonce k) call.req.xid r
  ret : ∀ k t call v, (s.clients k).calls t = some call → call.ret = some v → v = call.result
  bindDone : ∀ k, (s.clients k).bindDone = true → s.ObtainedAtBind k (s.clients k).srvNonce
  app : ∀ k t call, (s.clients k).calls t = some call → call.req.proc ≠ RpcConst.bind →
    s.ObtainedAtBind k call.req.srvNonce

theorem linked_init : Linked cfg Sys.init where
  traffic := traffic_init
  reply := by simp [Sys.init, Client.init]
  ret := by simp [Sys.init, Client.init]
  bindDone := by simp [Sys.init, Client.init]
  app := by simp [Sys.init, Client.init]

/-- The reply of a call that returned a result is the result. -/
theorem Linked.reply_of_ret (h : Linked cfg s) {k : K} {t : Nat} {call : Call} {v : Int}
    (ht : (s.clients k).calls t = some call) (hv : call.ret = some v) (h0 : 0 ≤ v) :
    ∃ r, call.reply = some r ∧ r.ret = v := by
  have hres := h.ret k t call v ht hv
  unfold Call.result at hres
  cases hr : call.reply with
  | none =>
      rw [hr] at hres
      simp only [RpcConst.timeoutFailure] at hres
      omega
  | some r =>
      rw [hr] at hres
      exact ⟨r, rfl, hres.symm⟩

/-- A delivered reply answers a call of the client it reaches. -/
theorem Linked.sent (h : Linked cfg s) {i : I}
    (hs : (s.servers i).Sound (cfg.server i)) {m : Sent} (hm : m ∈ (s.servers i).sent) :
    (s.servers i).Answers (cfg.server i) (cfg.cltNonce (cfg.owner m.conn)) m.pdu.xid m.pdu ∧
      m.pdu.xid = m.req.xid ∧ s.Made (cfg.owner m.conn) m.req := by
  have hmade := (h.traffic.servers i).sent m hm
  have hans := hs.sent m hm
  have hx := hans.xid
  rw [h.traffic.made_nonce hmade, ← hx] at hans
  exact ⟨hans, hx, hmade⟩

/-- An activation with the nonce and the xid of a call has its request. -/
theorem Linked.job_req (h : Linked cfg s) {i : I} {k : K} {t : Nat} {call : Call} {j : Nat}
    {job : Job} (ht : (s.clients k).calls t = some call) (hj : (s.servers i).jobs j = some job)
    (hn : job.req.cltNonce = cfg.cltNonce k) (hx : job.req.xid = call.req.xid) :
    job.req = call.req := by
  have hmade := (h.traffic.servers i).jobs j job hj
  have hown : cfg.owner job.conn = k :=
    cfg.cltNonce_injective ((h.traffic.made_nonce hmade).symm.trans hn)
  obtain ⟨u, call', hu, hcall⟩ := hown ▸ hmade
  have htu : u = t := (h.traffic.clients k).xid_inj u t call' call hu ht (by rw [hcall, hx])
  subst htu
  rw [ht] at hu
  cases hu
  exact hcall.symm

/-- An execution for the xid of a call is one of its request. -/
theorem Linked.exec_req (h : Linked cfg s) {i : I} (ho : (s.servers i).Once) {k : K} {t : Nat}
    {call : Call} {e : Exec} (ht : (s.clients k).calls t = some call)
    (he : e ∈ (s.servers i).execs) (hn : e.req.cltNonce = cfg.cltNonce k)
    (hx : e.req.xid = call.req.xid) : e.req = call.req := by
  obtain ⟨job, hj, hreq, -, -⟩ := ho.exec_job e he
  rw [← hreq] at hn hx ⊢
  exact h.job_req ht hj hn hx

/-- A call that returned a result was executed, with this result. -/
theorem Linked.executed (h : Linked cfg s) (ho : ∀ i, (s.servers i).Once) {k : K} {t : Nat}
    {call : Call} {v : Int} (ht : (s.clients k).calls t = some call) (hv : call.ret = some v)
    (h0 : 0 ≤ v) :
    ∃ i e r, e ∈ (s.servers i).execs ∧ e.req = call.req ∧ e.ret = v ∧ call.reply = some r ∧
      r.payload = e.out := by
  obtain ⟨r, hr, hret⟩ := h.reply_of_ret ht hv h0
  obtain ⟨i, hans⟩ := h.reply k t call r ht hr
  obtain ⟨e, he, -, -, -, -, hn, hx, -, rfl⟩ := hans.of_nonneg (hret ▸ h0)
  exact ⟨i, e, _, he, h.exec_req (ho i) ht he hn hx, hret, hr, rfl⟩

/-- A nonce obtained at bind is that of an instance. -/
theorem Linked.nonce_of_bind (h : Linked cfg s) (ho : ∀ i, (s.servers i).Once)
    (hs : ∀ i, (s.servers i).Serves (cfg.server i)) {k : K} {nonce : UInt32}
    (hb : s.ObtainedAtBind k nonce) : ∃ i, nonce = cfg.srvNonce i := by
  obtain ⟨t, call, r, ht, hproc, hret, hr, hnonce⟩ := hb
  obtain ⟨i, e, r', he, hreq, her, hr', heo⟩ := h.executed ho ht hret le_rfl
  rw [hr] at hr'
  cases hr'
  rcases (hs i).bind e he (hreq ▸ hproc) with ⟨-, hout⟩ | hneg
  · rw [heo, hout, readNonce_bindPayload] at hnonce
    exact ⟨i, (Option.some.inj hnonce).symm⟩
  · rw [her] at hneg
    simp [RpcConst.unmarshalArgsFailure] at hneg

end

section Steps

variable {K I : Type} [DecidableEq K] {cfg : Config K I} {s s' : Sys K I} {a : SysAct K I}

/-- A client step keeps what was obtained at bind. -/
theorem ObtainedAtBind.client {k : K} {c : Client}
    (hkeep : ∀ t call r, (s.clients k).calls t = some call → call.reply = some r →
      call.ret = some 0 → ∃ call', c.calls t = some call' ∧ call'.req = call.req ∧
        call'.reply = some r ∧ call'.ret = some 0) {l : K} {nonce : UInt32}
    (h : s.ObtainedAtBind l nonce) : (s.setClient k c).ObtainedAtBind l nonce := by
  obtain ⟨t, call, r, ht, hproc, hret, hr, hnonce⟩ := h
  by_cases hlk : l = k
  · subst hlk
    obtain ⟨call', ht', hreq, hr', hret'⟩ := hkeep t call r ht hr hret
    exact ⟨t, call', r, by rw [setClient_clients_self]; exact ht', by rw [hreq]; exact hproc, hret',
      hr', hnonce⟩
  · exact ⟨t, call, r, by rw [setClient_clients_ne _ _ hlk]; exact ht, hproc, hret, hr, hnonce⟩

/-- A step of one client.  What must be shown is about that client. -/
theorem Linked.client (h : Linked cfg s) {k : K} {c : Client}
    (htraffic : Traffic cfg (s.setClient k c))
    (hkeep : ∀ t call r, (s.clients k).calls t = some call → call.reply = some r →
      call.ret = some 0 → ∃ call', c.calls t = some call' ∧ call'.req = call.req ∧
        call'.reply = some r ∧ call'.ret = some 0)
    (hreply : ∀ t call r, c.calls t = some call → call.reply = some r →
      ∃ i, (s.servers i).Answers (cfg.server i) (cfg.cltNonce k) call.req.xid r)
    (hret : ∀ t call v, c.calls t = some call → call.ret = some v → v = call.result)
    (hbind : c.bindDone = true → s.ObtainedAtBind k c.srvNonce)
    (happ : ∀ t call, c.calls t = some call → call.req.proc ≠ RpcConst.bind →
      s.ObtainedAtBind k call.req.srvNonce) : Linked cfg (s.setClient k c) where
  traffic := htraffic
  reply l t call r ht hr := by
    by_cases hlk : l = k
    · subst hlk
      rw [setClient_clients_self] at ht
      exact hreply t call r ht hr
    · rw [setClient_clients_ne _ _ hlk] at ht
      exact h.reply l t call r ht hr
  ret l t call v ht hv := by
    by_cases hlk : l = k
    · subst hlk
      rw [setClient_clients_self] at ht
      exact hret t call v ht hv
    · rw [setClient_clients_ne _ _ hlk] at ht
      exact h.ret l t call v ht hv
  bindDone l hl := by
    refine ObtainedAtBind.client hkeep ?_
    by_cases hlk : l = k
    · subst hlk
      rw [setClient_clients_self] at hl ⊢
      exact hbind hl
    · rw [setClient_clients_ne _ _ hlk] at hl ⊢
      exact h.bindDone l hl
  app l t call ht hp := by
    refine ObtainedAtBind.client hkeep ?_
    by_cases hlk : l = k
    · subst hlk
      rw [setClient_clients_self] at ht
      exact happ t call ht hp
    · rw [setClient_clients_ne _ _ hlk] at ht
      exact h.app l t call ht hp

/-- What a call keeps when another field of another call changes. -/
theorem keep_setCall {c c₁ : Client} {t : Nat} {call call' : Call} (hcalls : c₁.calls = c.calls)
    (ht : c.calls t = some call) (hreq : call'.req = call.req)
    (hsame : ∀ r, call.reply = some r → call.ret = some 0 →
      call'.reply = some r ∧ call'.ret = some 0) (u : Nat) (call₀ : Call) (r : Reply)
    (hu : c.calls u = some call₀) (hr : call₀.reply = some r) (hret : call₀.ret = some 0) :
    ∃ call₁, (c₁.setCall t call').calls u = some call₁ ∧ call₁.req = call₀.req ∧
      call₁.reply = some r ∧ call₁.ret = some 0 := by
  by_cases hut : u = t
  · subst hut
    rw [ht] at hu
    cases hu
    obtain ⟨h1, h2⟩ := hsame r hr hret
    exact ⟨call', Client.setCall_calls_self _ _ _, hreq, h1, h2⟩
  · exact ⟨call₀, by rw [Client.setCall_calls_ne _ _ hut, hcalls]; exact hu, rfl, hr, hret⟩

variable [DecidableEq I]

omit [DecidableEq K] in
theorem Linked.server (h : Linked cfg s) {i : I} {b : ServerAct} {v : Server}
    (hs : (s.servers i).Sound (cfg.server i)) (htraffic : Traffic cfg (s.setServer i v))
    (hv : (s.servers i).next (cfg.server i) b = some v) : Linked cfg (s.setServer i v) where
  traffic := htraffic
  reply k t call r ht hr := by
    obtain ⟨l, ha⟩ := h.reply k t call r ht hr
    refine ⟨l, ?_⟩
    by_cases hl : l = i
    · subst hl
      rw [setServer_servers_self]
      exact ha.mono (Server.extends_of_next hs.once hs.cache hv)
    · rw [setServer_servers_ne _ _ hl]
      exact ha
  ret := h.ret
  bindDone := h.bindDone
  app := h.app

theorem linked_next (h : Linked cfg s) (hs : ∀ i, (s.servers i).Sound (cfg.server i))
    (hfresh : FreshXids s a) (hn : s.next cfg a = some s') : Linked cfg s' := by
  have hans : Answerable s a := by
    have hsent : ∀ k i m, m ∈ (s.servers i).sent → cfg.owner m.conn = k →
        m.pdu.xid = 0 ∨ (s.clients k).Issued m.pdu.xid := by
      intro k i m hm hown
      obtain ⟨-, hx, t, call, ht, hreq⟩ := h.sent (hs i) hm
      exact .inr ⟨t, call, hown ▸ ht, by rw [hreq, hx]⟩
    cases step_of_next hn with
    | ignored hm hown _ => exact hsent _ _ _ hm hown
    | takenIn hm hown _ _ _ => exact hsent _ _ _ hm hown
    | bindFailure | call | transmit | finish | storeNonce | server => trivial
  have htraffic := traffic_next h.traffic hfresh hans hn
  cases step_of_next hn with
  | bindFailure => exact h
  | @call k t proc args ht hb =>
      refine h.client htraffic (fun u call r hu hr hret => ⟨call, ?_, rfl, hr, hret⟩)
        (fun u call r hu hr => ?_) (fun u call v hu hv => ?_) (h.bindDone k)
        (fun u call hu hp => ?_)
      · have hut : u ≠ t := by
          rintro rfl
          rw [ht] at hu
          cases hu
        rw [Client.setCall_calls_ne _ _ hut]
        exact hu
      · rcases Client.setCall_calls_cases hu with ⟨rfl, rfl⟩ | ⟨-, hu⟩
        · cases hr
        · exact h.reply k u call r hu hr
      · rcases Client.setCall_calls_cases hu with ⟨rfl, rfl⟩ | ⟨-, hu⟩
        · cases hv
        · exact h.ret k u call v hu hv
      · rcases Client.setCall_calls_cases hu with ⟨rfl, rfl⟩ | ⟨-, hu⟩
        · refine h.bindDone k ?_
          have hproc : proc ≠ RpcConst.bind := hp
          simpa [Client.bindFails, hproc] using hb
        · exact h.app k u call hu hp
  | transmit => exact ⟨htraffic, h.reply, h.ret, h.bindDone, h.app⟩
  | @finish k t call ht hnone =>
      refine h.client htraffic (keep_setCall rfl ht rfl (by simp [hnone]))
        (fun u call' r hu hr => ?_) (fun u call' v hu hv => ?_) (h.bindDone k)
        (fun u call' hu hp => ?_)
      · rcases Client.setCall_calls_cases hu with ⟨rfl, rfl⟩ | ⟨-, hu⟩
        · exact h.reply k u call r ht hr
        · exact h.reply k u call' r hu hr
      · rcases Client.setCall_calls_cases hu with ⟨rfl, rfl⟩ | ⟨-, hu⟩
        · exact (Option.some.inj hv).symm
        · exact h.ret k u call' v hu hv
      · rcases Client.setCall_calls_cases hu with ⟨rfl, rfl⟩ | ⟨-, hu⟩
        · exact h.app k u call ht hp
        · exact h.app k u call' hu hp
  | @storeNonce k t call r nonce ht hproc hret hr hnonce =>
      refine h.client htraffic (keep_setCall rfl ht rfl (fun r hr hret => ⟨hr, hret⟩))
        (fun u call' r' hu hr' => ?_) (fun u call' v hu hv => ?_)
        (fun _ => ⟨t, call, r, ht, hproc, hret, hr, hnonce⟩) (fun u call' hu hp => ?_)
      · rcases Client.setCall_calls_cases hu with ⟨rfl, rfl⟩ | ⟨-, hu⟩
        · exact h.reply k u call r' ht hr'
        · exact h.reply k u call' r' hu hr'
      · rcases Client.setCall_calls_cases hu with ⟨rfl, rfl⟩ | ⟨-, hu⟩
        · exact h.ret k u call v ht hv
        · exact h.ret k u call' v hu hv
      · rcases Client.setCall_calls_cases hu with ⟨rfl, rfl⟩ | ⟨-, hu⟩
        · exact h.app k u call ht hp
        · exact h.app k u call' hu hp
  | @ignored k i m hm hown _ =>
      exact h.client htraffic (fun u call r hu hr hret => ⟨call, hu, rfl, hr, hret⟩)
        (h.reply k) (h.ret k) (h.bindDone k) (h.app k)
  | @takenIn k i m t call hm hown hp ht hr =>
      obtain ⟨call', ht', hnone, hx⟩ := (h.traffic.clients k).ofPending _ _ hp
      rw [ht] at ht'
      cases ht'
      refine h.client htraffic (keep_setCall rfl ht rfl (by simp [hr]))
        (fun u call' r hu hr' => ?_) (fun u call' v hu hv => ?_) (h.bindDone k)
        (fun u call' hu hproc => ?_)
      · rcases Client.setCall_calls_cases hu with ⟨rfl, rfl⟩ | ⟨-, hu⟩
        · cases hr'
          obtain ⟨hans, -, -⟩ := h.sent (hs i) hm
          rw [hown, ← hx] at hans
          exact ⟨i, hans⟩
        · exact h.reply k u call' r hu hr'
      · rcases Client.setCall_calls_cases hu with ⟨rfl, rfl⟩ | ⟨-, hu⟩
        · simp only at hv
          rw [hnone] at hv
          cases hv
        · exact h.ret k u call' v hu hv
      · rcases Client.setCall_calls_cases hu with ⟨rfl, rfl⟩ | ⟨-, hu⟩
        · exact h.app k u call ht hproc
        · exact h.app k u call' hu hproc
  | server hd hv => exact h.server (hs _) htraffic hv

theorem linked_of_reachedVia
    (h : (system cfg).ReachedVia (fun s a => FreshXids s a ∧ NoOvertake s a) s) :
    Linked cfg s := by
  induction h with
  | init => exact linked_init
  | step hs hg hn ih =>
      exact linked_next ih (fun i => sound_server (hs.mono fun _ _ hg => hg.2) i) hg.1 hn

/-! ## The guarantee -/

/-- What an application call is promised. -/
structure EndToEnd (cfg : Config K I) (s : Sys K I) (k : K) (call : Call) : Prop where
  /-- Over all instances its handler was executed at most once. -/
  atMostOnce : ∀ p q e f, Executed cfg s k call.req.xid p e →
    Executed cfg s k call.req.xid q f → p = q
  /-- A result is that of an execution of its own request, by the instance the
  client was bound to. -/
  result : ∀ ret, call.ret = some ret → 0 ≤ ret → ∃ i n e r,
    Executed cfg s k call.req.xid (i, n) e ∧ e.req = call.req ∧
    call.req.srvNonce = cfg.srvNonce i ∧ s.ObtainedAtBind k (cfg.srvNonce i) ∧
    call.reply = some r ∧ e.ret = ret ∧ r.payload = e.out

/-- In runs where no xid is reused and no check overtakes the sending of a saved
reply, application calls are executed at most once, results are those of their
own execution, and a reply changes only the call it answers. -/
theorem end_to_end
    (h : (system cfg).ReachedVia (fun s a => FreshXids s a ∧ NoOvertake s a) s) :
    (∀ k t call, (s.clients k).calls t = some call → call.req.proc ≠ RpcConst.bind →
      EndToEnd cfg s k call) ∧
    ∀ k i m s', s.next cfg (.gotPdu k i m) = some s' → ∀ t call call',
      (s.clients k).calls t = some call → (s'.clients k).calls t = some call' → call' ≠ call →
      m.req = call.req ∧ call'.reply = some m.pdu := by
  have hl := linked_of_reachedVia h
  have hsound : ∀ i, (s.servers i).Sound (cfg.server i) := fun i =>
    sound_server (h.mono fun _ _ hg => hg.2) i
  have hserves : ∀ i, (s.servers i).Serves (cfg.server i) := fun i =>
    Server.serves_of_reachable (reachable_server h i)
  refine ⟨fun k t call ht hproc => ?_, fun k i m s' hn t call call' ht ht' hne => ?_⟩
  · obtain ⟨i₀, hi₀⟩ := hl.nonce_of_bind (fun i => (hsound i).once) hserves
      (hl.app k t call ht hproc)
    -- only the instance named in the header executes the request
    have hinst : ∀ i e, e ∈ (s.servers i).execs → e.req = call.req → i = i₀ := by
      intro i e he hreq
      rcases (hserves i).execs e he with h0 | hi
      · rw [hreq, hi₀] at h0
        exact absurd h0 (cfg.srvNonce_ne_zero i₀)
      · rw [hreq, hi₀] at hi
        exact cfg.srvNonce_injective hi.symm
    refine ⟨?_, fun ret hret h0 => ?_⟩
    · rintro ⟨i, n⟩ ⟨i', n'⟩ e f ⟨he, hen, hex⟩ ⟨hf, hfn, hfx⟩
      have hei := hinst i e (List.mem_of_getElem? he) (hl.exec_req (hsound i).once ht
        (List.mem_of_getElem? he) hen hex)
      have hfi := hinst i' f (List.mem_of_getElem? hf) (hl.exec_req (hsound i').once ht
        (List.mem_of_getElem? hf) hfn hfx)
      have hii : i = i' := hei.trans hfi.symm
      subst hii
      have hnn := (hsound i).once.exec_index_unique (show (s.servers i).execs[n]? = some e from he)
        (show (s.servers i).execs[n']? = some f from hf)
        (fun h0 => cfg.cltNonce_ne_zero k (hen.symm.trans h0)) (hen.trans hfn.symm)
        (hex.trans hfx.symm)
      rw [hnn]
    · obtain ⟨i, e, r, he, hreq, her, hr, hout⟩ := hl.executed (fun i => (hsound i).once) ht hret h0
      obtain ⟨n, hn⟩ := List.getElem?_of_mem he
      have hi : i = i₀ := hinst i e he hreq
      subst hi
      exact ⟨i, n, e, r, ⟨hn, by rw [hreq]; exact (hl.traffic.clients k).nonce t call ht,
        by rw [hreq]⟩, hreq, hi₀, hi₀ ▸ hl.app k t call ht hproc, hr, her, hout⟩
  · cases step_of_next hn with
    | ignored =>
        rw [setClient_clients_self] at ht'
        rw [ht] at ht'
        cases ht'
        exact absurd rfl hne
    | @takenIn _ _ _ u call₀ hm hown hp hu hr =>
        rw [setClient_clients_self] at ht'
        rcases Client.setCall_calls_cases ht' with ⟨rfl, rfl⟩ | ⟨-, ht'⟩
        · rw [ht] at hu
          cases hu
          obtain ⟨call₁, hu', -, hx⟩ := (hl.traffic.clients k).ofPending _ _ hp
          rw [ht] at hu'
          cases hu'
          obtain ⟨-, hmx, v, call₂, hv, hreq⟩ := hl.sent (hsound i) hm
          rw [hown] at hv
          have hvt : v = t := (hl.traffic.clients k).xid_inj v t call₂ call hv ht
            (by rw [hreq, hx, hmx])
          subst hvt
          rw [ht] at hv
          cases hv
          exact ⟨hreq.symm, rfl⟩
        · rw [ht] at ht'
          cases ht'
          exact absurd rfl hne

end Steps

/-! ## Two clients -/

theorem oneNonce_injective : Function.Injective fun _ : Unit => (9 : UInt32) :=
  Function.injective_of_subsingleton _

theorem oneNonce_ne_zero (_ : Unit) : (9 : UInt32) ≠ 0 := by decide

theorem twoNonces_injective :
    Function.Injective fun k : Bool => (bif k then 8 else 7 : UInt32) := by
  intro k l h
  revert h
  cases k <;> cases l <;> decide

theorem twoNonces_ne_zero (k : Bool) : (bif k then 8 else 7 : UInt32) ≠ 0 := by
  cases k <;> decide

/-- Client `false` with nonce 7 on connection 3, client `true` with nonce 8 on
connection 4, one instance with nonce 9. -/
def twoClients : Config Bool Unit where
  cltNonce k := bif k then 8 else 7
  cltNonce_injective := twoNonces_injective
  cltNonce_ne_zero := twoNonces_ne_zero
  srvNonce _ := 9
  srvNonce_injective := oneNonce_injective
  srvNonce_ne_zero := oneNonce_ne_zero
  owner c := Nat.beq c 4
  createTime _ := 0
  registered _ _ := true

/-- Client `false` binds, and its call 2 returns the result of its execution. -/
def answeredCall : List (SysAct Bool Unit) :=
  binds twoClients false 3 () 0 0 ++
  [.call false 1 5 [1]] ++ arrives false 1 3 () 1 (appRequest 7 2 1) 1 ++ runs () 1 0 [42] ++
  returns false 1 () 1 ⟨3, appRequest 7 2 1, ⟨2, 0, [42]⟩⟩

theorem end_to_end_answeredCall : ∃ s,
    (system twoClients).ReachedVia (fun s a => FreshXids s a ∧ NoOvertake s a) s ∧
    EndToEnd twoClients s false ⟨appRequest 7 2 1, some ⟨2, 0, [42]⟩, some 0, false⟩ := by
  obtain ⟨s, hs, hp⟩ := @Machine.exists_reachedVia_of_run _ _ (system twoClients)
    (fun s a => FreshXids s a ∧ s.FreesNothing a = true) _
    (fun s => decide ((s.clients false).calls 1 =
      some ⟨appRequest 7 2 1, some ⟨2, 0, [42]⟩, some 0, false⟩)) answeredCall (by decide)
  have hvia := reachedVia_noOvertake hs
  exact ⟨s, hvia, (end_to_end hvia).1 false 1 _ (of_decide_eq_true hp) (by decide)⟩

/-- Call 4 of client `false` frees the buffer of its call 2 while job 2 has not
sent it.  The buffer goes to the reply of call 4 of client `true`, and job 2
sends that reply to client `false`, whose call 4 takes it in. -/
def crossedReplies : List (SysAct Bool Unit) :=
  binds twoClients false 3 () 0 0 ++ binds twoClients true 4 () 1 1 ++
  [.call false 1 5 [1]] ++ arrives false 1 3 () 2 (appRequest 7 2 1) 2 ++ runs () 2 0 [42] ++
  [.finish false 1, .call false 2 5 [1], .finish false 2, .call false 3 5 [1]] ++
  arrives false 3 3 () 3 (appRequest 7 4 3) 3 ++ [.server () (.check 3)] ++
  [.call true 1 5 [1], .finish true 1, .call true 2 5 [1], .finish true 2, .call true 3 5 [1]] ++
  arrives true 3 4 () 4 (appRequest 8 4 3) 2 ++ runs () 4 0 [43] ++
  returns false 3 () 2 ⟨3, appRequest 7 2 1, ⟨4, 0, [43]⟩⟩

/-- A call returns 0 and its handler was never executed. -/
theorem returns_without_execution : ∃ s call, (system twoClients).ReachedVia FreshXids s ∧
    (s.clients false).calls 3 = some call ∧ call.req.proc ≠ RpcConst.bind ∧ call.ret = some 0 ∧
    ∀ e ∈ (s.servers ()).execs, ¬ (e.req.cltNonce = twoClients.cltNonce false ∧
      e.req.xid = call.req.xid) := by
  obtain ⟨s, hs, hp⟩ := @Machine.exists_reachedVia_of_run _ _ (system twoClients) FreshXids _
    (fun s => decide ((s.clients false).calls 3 =
        some ⟨appRequest 7 4 3, some ⟨4, 0, [43]⟩, some 0, false⟩ ∧
      ∀ e ∈ (s.servers ()).execs, ¬ (e.req.cltNonce = 7 ∧ e.req.xid = 4))) crossedReplies
    (by decide)
  obtain ⟨hc, he⟩ := of_decide_eq_true hp
  exact ⟨s, _, hs, hc, by decide, rfl, he⟩

end RpcLock.Sys
