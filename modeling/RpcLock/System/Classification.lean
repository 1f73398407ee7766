import RpcLock.System.EndToEnd

/-!
# A waiting call is classified exactly

Any number of clients and instances, in runs where no client reuses an xid and
no check overtakes the sending of a saved reply.  The acknowledgements in flight
are below every waiting xid, so no instance has pruned anything about a waiting
call, and the verdict on a copy of its request is exact.

In particular it is never `FORGOTTEN`.  The failure `atmostonce_failure` is sent
only for calls that are settled, and no waiting call takes it in.

A check that overtakes breaks this.  A stalled activation sends the reply of
another client from the freed buffer, and the client reports an xid it has yet
to hand out.
-/

namespace RpcLock.Sys

open Rpcc Rpcs

section

variable {K I : Type} {cfg : Config K I} {s s' : Sys K I}

/-! ## The check of a waiting request -/

/-- Call `t` of client `k` is in `calls_` and not done. -/
def Waiting (s : Sys K I) (k : K) (t : Nat) (call : Call) : Prop :=
  (s.clients k).calls t = some call ∧ (s.clients k).pending call.req.xid = some t ∧
    call.reply = none

theorem Traffic.waiting (h : Traffic cfg s) {k : K} {t : Nat} {call : Call}
    (hw : s.Waiting k t call) : call.ret = none := by
  obtain ⟨call', ht, hret, -⟩ := (h.clients k).ofPending _ _ hw.2.1
  rw [hw.1] at ht
  cases ht
  exact hret

/-- The check of a copy of a waiting request is exact. -/
theorem Traffic.classify (h : Traffic cfg s) {i : I} (ho : (s.servers i).Once)
    (hc : (s.servers i).Cache) {k : K} {t : Nat} {call : Call} (hw : s.Waiting k t call) {j : Nat}
    {job : Job} (hj : (s.servers i).jobs j = some job) (hp : job.phase = .connSaved)
    (hn : job.req.cltNonce = cfg.cltNonce k) (hx : job.req.xid = call.req.xid) :
    ∃ r, (s.servers i).checkResult job.req = some r ∧
      Server.Exact (s.servers i) (cfg.cltNonce k) call.req.xid r := by
  have hfront := (h.clients k).front_lt hw.1 (h.waiting hw) hw.2.2
  have hmade := (h.servers i).jobs j job hj
  have hown : cfg.owner job.conn = k :=
    cfg.cltNonce_injective ((h.made_nonce hmade).symm.trans hn)
  rw [hown] at hmade
  have hready := (hc.jobs j job hj).ready (.inr (.inl hp))
  unfold Server.checkResult
  rw [hn] at hready
  rw [hn, hx]
  exact Server.classify ho hc hready (cfg.cltNonce_ne_zero k)
    (lt_of_le_of_lt (h.xidRep_le hmade) hfront)
    (fun lb hlb => lt_of_le_of_lt (h.bounds i k lb hlb) hfront)

/-! ## Calls that are answered `FORGOTTEN` -/

/-- Only settled calls are answered `FORGOTTEN`, and no call takes the failure in. -/
structure Remembered (cfg : Config K I) (s : Sys K I) : Prop where
  settled : ∀ i j job k, (s.servers i).jobs j = some job → job.verdict = some .forgotten →
    job.req.cltNonce = cfg.cltNonce k → (s.clients k).Settled job.req.xid
  reply : ∀ k t call r, (s.clients k).calls t = some call → call.reply = some r →
    r.ret ≠ RpcConst.atmostonceFailure

theorem remembered_init : Remembered cfg Sys.init where
  settled := by simp [Sys.init, Server.init]
  reply := by simp [Sys.init, Client.init]

/-- A reply that reaches a waiting call is not the failure. -/
theorem Remembered.takenIn (h : Remembered cfg s) (hl : Linked cfg s) {i : I}
    (hs : (s.servers i).Sound (cfg.server i)) {m : Sent} (hm : m ∈ (s.servers i).sent) {t : Nat}
    {call : Call} (ht : (s.clients (cfg.owner m.conn)).calls t = some call)
    (hp : (s.clients (cfg.owner m.conn)).pending m.pdu.xid = some t) (hr : call.reply = none) :
    m.pdu.ret ≠ RpcConst.atmostonceFailure := by
  intro hret
  have hok := hl.traffic.clients (cfg.owner m.conn)
  obtain ⟨call', ht', hnone, hx⟩ := hok.ofPending _ _ hp
  rw [ht] at ht'
  cases ht'
  obtain ⟨hans, -, -⟩ := hl.sent hs hm
  cases hans with
  | refused _ _ _ _ hpdu =>
      rw [hpdu] at hret
      simp [RpcConst.oldsrvFailure, RpcConst.atmostonceFailure] at hret
  | forgotten hj hn hjx hv _ =>
      rcases (h.settled i _ _ _ hj hv hn).not_waiting hok ht (hx.trans hjx.symm) with hd | hd
      · exact hd hr
      · exact hd hnone
  | result hres =>
      obtain ⟨e, -, job, -, -, -, -, -, h0, hpdu⟩ := hres
      rw [hpdu] at hret
      simp only [RpcConst.atmostonceFailure] at hret
      omega

section Steps

variable [DecidableEq K]

/-- A step of one client that settles no less than before. -/
theorem Remembered.client (h : Remembered cfg s) {k : K} {c : Client}
    (hset : ∀ x, (s.clients k).Settled x → c.Settled x)
    (hreply : ∀ t call r, c.calls t = some call → call.reply = some r →
      r.ret ≠ RpcConst.atmostonceFailure) : Remembered cfg (s.setClient k c) where
  settled i j job l hj hv hn := by
    have hold := h.settled i j job l hj hv hn
    by_cases hlk : l = k
    · subst hlk
      rw [setClient_clients_self]
      exact hset _ hold
    · rw [setClient_clients_ne _ _ hlk]
      exact hold
  reply l t call r ht hr := by
    by_cases hlk : l = k
    · subst hlk
      rw [setClient_clients_self] at ht
      exact hreply t call r ht hr
    · rw [setClient_clients_ne _ _ hlk] at ht
      exact h.reply l t call r ht hr

/-- A call of a client changes, and a reply it has is an old one. -/
theorem Remembered.setCall (h : Remembered cfg s) {k : K} {c₁ : Client} {t : Nat}
    {call call' : Call} (hcalls : c₁.calls = (s.clients k).calls)
    (ht : (s.clients k).calls t = some call) (hreq : call'.req = call.req)
    (hreply : call.reply ≠ none → call'.reply ≠ none) (hret : call.ret ≠ none → call'.ret ≠ none)
    (hr : ∀ r, call'.reply = some r → r.ret ≠ RpcConst.atmostonceFailure) :
    Remembered cfg (s.setClient k (c₁.setCall t call')) := by
  refine h.client (fun x hx => (Client.evolves_setCall hcalls ht hreq hreply hret).settled hx)
    fun u call₁ r hu hr₁ => ?_
  rcases Client.setCall_calls_cases hu with ⟨rfl, rfl⟩ | ⟨-, hu⟩
  · exact hr r hr₁
  · exact h.reply k u call₁ r (hcalls ▸ hu) hr₁

variable [DecidableEq I] {a : SysAct K I}

omit [DecidableEq K] in
/-- A step of an instance: a check answers `FORGOTTEN` for no waiting call. -/
theorem Remembered.server (h : Remembered cfg s) (hl : Linked cfg s) {i : I} {b : ServerAct}
    {v : Server} (hs : (s.servers i).Sound (cfg.server i))
    (hv : (s.servers i).next (cfg.server i) b = some v) : Remembered cfg (s.setServer i v) := by
  refine ⟨fun l j job k hj hver hn => ?_, h.reply⟩
  by_cases hl' : l = i
  case neg =>
    rw [setServer_servers_ne _ _ hl'] at hj
    exact h.settled l j job k hj hver hn
  subst hl'
  rw [setServer_servers_self] at hj
  rcases Server.verdict_of_next hv hj (by simp [hver]) with ⟨kob, hk, hverk, hreq⟩ | hz |
    ⟨kob, r, hk, hp, hreq, hr, hverd, -⟩
  · rw [← hreq] at hn ⊢
    exact h.settled l j kob k hk (hverk.trans hver) hn
  · exact absurd (hn.symm.trans hz) (cfg.cltNonce_ne_zero k)
  · -- the call was made by the client, and if it were waiting the verdict were exact
    have hmade := (hl.traffic.servers l).jobs j kob hk
    have hown : cfg.owner kob.conn = k := cfg.cltNonce_injective
      ((hl.traffic.made_nonce hmade).symm.trans (by rw [hreq, hn]))
    obtain ⟨t, call, ht, hcall⟩ := hown ▸ hmade
    have hx : job.req.xid = call.req.xid := by rw [hcall, hreq]
    refine ⟨t, call, ht, hx.symm, ?_⟩
    by_contra hnot
    simp only [not_or, not_not] at hnot
    have hw : s.Waiting k t call := ⟨ht, (hl.traffic.clients k).pending t call ht hnot.2, hnot.1⟩
    obtain ⟨r', hr', hex⟩ := hl.traffic.classify hs.once hs.cache hw hk hp (by rw [hreq, hn])
      (by rw [hreq, hx])
    rw [hreq, hr] at hr'
    cases hr'
    exact hex.notForgotten (Option.some.inj (hverd.symm.trans hver))

theorem remembered_next (h : Remembered cfg s) (hl : Linked cfg s)
    (hs : ∀ i, (s.servers i).Sound (cfg.server i)) (hn : s.next cfg a = some s') :
    Remembered cfg s' := by
  cases step_of_next hn with
  | bindFailure => exact h
  | @call k t proc args ht _ =>
      refine h.client (fun x hx => ?_) fun u call r hu hr => ?_
      · obtain ⟨u, call, hu, hrest⟩ := hx
        have hut : u ≠ t := by
          rintro rfl
          rw [ht] at hu
          cases hu
        exact ⟨u, call, by rw [Client.setCall_calls_ne _ _ hut]; exact hu, hrest⟩
      · rcases Client.setCall_calls_cases hu with ⟨rfl, rfl⟩ | ⟨-, hu⟩
        · cases hr
        · exact h.reply k u call r hu hr
  | transmit => exact ⟨h.settled, h.reply⟩
  | finish ht _ => exact h.setCall rfl ht rfl id (by simp) fun r hr => h.reply _ _ _ r ht hr
  | storeNonce ht _ _ _ _ =>
      exact h.setCall rfl ht rfl id id fun r hr => h.reply _ _ _ r ht hr
  | ignored =>
      exact h.client (fun x hx => (Client.Evolves.of_calls_eq rfl).settled hx) fun u call r hu hr =>
        h.reply _ u call r hu hr
  | takenIn hm hown hp ht hr =>
      refine h.setCall rfl ht rfl (by simp) id fun r hr' => ?_
      cases hr'
      subst hown
      exact h.takenIn hl (hs _) hm ht hp hr
  | server _ hv => exact h.server hl (hs _) hv

theorem remembered_of_reachedVia
    (h : (system cfg).ReachedVia (fun s a => FreshXids s a ∧ NoOvertake s a) s) :
    Remembered cfg s := by
  induction h with
  | init => exact remembered_init
  | step hs _ hn ih =>
      exact remembered_next ih (linked_of_reachedVia hs)
        (fun i => sound_server (hs.mono fun _ _ hg => hg.2) i) hn

/-- Every copy of the request of a waiting call that reaches the check is
classified exactly, by any instance, and `call1` never returns
`atmostonce_failure`. -/
theorem waiting_classified
    (h : (system cfg).ReachedVia (fun s a => FreshXids s a ∧ NoOvertake s a) s) :
    (∀ k t call, s.Waiting k t call → ∀ i j job, (s.servers i).jobs j = some job →
      job.phase = .connSaved → job.req.cltNonce = cfg.cltNonce k → job.req.xid = call.req.xid →
      ∃ r, (s.servers i).checkResult job.req = some r ∧
        Server.Exact (s.servers i) (cfg.cltNonce k) call.req.xid r) ∧
    ∀ k t call, (s.clients k).calls t = some call →
      call.ret ≠ some RpcConst.atmostonceFailure := by
  have hl := linked_of_reachedVia h
  refine ⟨fun k t call hw i j job hj hp hn hx => ?_, fun k t call ht hret => ?_⟩
  · have hs := sound_server (h.mono fun _ _ hg => hg.2) i
    exact hl.traffic.classify hs.once hs.cache hw hj hp hn hx
  · -- the result is that of the reply, or a time-out
    have hres := hl.ret k t call _ ht hret
    unfold Call.result at hres
    cases hr : call.reply with
    | none => simp [hr, RpcConst.timeoutFailure, RpcConst.atmostonceFailure] at hres
    | some r =>
        rw [hr] at hres
        exact (remembered_of_reachedVia h).reply k t call r ht hr hres.symm

end Steps

end

/-! ## Two runs -/

/-- The bind request of client `false` reaches the check while its call is waiting. -/
def bindArrives : List (SysAct Bool Unit) :=
  .call false 0 RpcConst.bind (bindRequest 7).args :: arrives false 0 3 () 0 (bindRequest 7) 0

theorem waiting_classified_bind : ∃ s r, (system twoClients).ReachedVia
      (fun s a => FreshXids s a ∧ NoOvertake s a) s ∧
    s.Waiting false 0 ⟨(bindRequest 7), none, none, false⟩ ∧
    (s.servers ()).checkResult (bindRequest 7) = some r ∧ Server.Exact (s.servers ()) 7 1 r := by
  obtain ⟨s, hs, hp⟩ := @Machine.exists_reachedVia_of_run _ _ (system twoClients)
    (fun s a => FreshXids s a ∧ s.FreesNothing a = true) _
    (fun s => decide ((s.servers ()).jobs 0 = some ⟨3, (bindRequest 7), 0, none, .connSaved⟩ ∧
      (s.clients false).calls 0 = some ⟨(bindRequest 7), none, none, false⟩ ∧
      (s.clients false).pending 1 = some 0)) bindArrives (by decide)
  obtain ⟨hj, hc, hpend⟩ := of_decide_eq_true hp
  have hw : s.Waiting false 0 ⟨(bindRequest 7), none, none, false⟩ := ⟨hc, hpend, rfl⟩
  have hvia := reachedVia_noOvertake hs
  obtain ⟨r, hr, hex⟩ := (waiting_classified hvia).1 false 0 _ hw () 0 _ hj rfl rfl rfl
  exact ⟨s, r, hvia, hw, hr, hex⟩

/-- Call 4 of client `false` frees the buffer of its call 2 while job 2 has not
sent it.  The buffer goes to the reply of call 5 of client `true`, and job 2
sends that reply to client `false`, which has handed out 4 xids.  It reports 5,
and when call 4 is over call 5 acknowledges itself. -/
def acknowledgesItself : List (SysAct Bool Unit) :=
  binds twoClients false 3 () 0 0 ++ binds twoClients true 4 () 1 1 ++
  [.call false 1 5 [1]] ++ arrives false 1 3 () 2 (appRequest 7 2 1) 2 ++ runs () 2 0 [42] ++
  [.finish false 1, .call false 2 5 [1], .finish false 2, .call false 3 5 [1]] ++
  arrives false 3 3 () 3 (appRequest 7 4 3) 3 ++ [.server () (.check 3)] ++
  [.call true 1 5 [1], .finish true 1, .call true 2 5 [1], .finish true 2, .call true 3 5 [1],
    .finish true 3, .call true 4 5 [1]] ++
  arrives true 4 4 () 4 (appRequest 8 5 4) 2 ++ runs () 4 0 [43] ++
  returns false 3 () 2 ⟨3, appRequest 7 2 1, ⟨5, 0, [43]⟩⟩ ++
  [.call false 4 5 [1]] ++ arrives false 4 3 () 5 (appRequest 7 5 5) 4

/-- A waiting call is answered `FORGOTTEN`, and `call1` returns
`atmostonce_failure`. -/
theorem waiting_forgotten : (∃ s r, (system twoClients).ReachedVia FreshXids s ∧
      s.Waiting false 4 ⟨appRequest 7 5 5, none, none, false⟩ ∧
      (s.servers ()).jobs 5 = some ⟨3, appRequest 7 5 5, 4, none, .connSaved⟩ ∧
      (s.servers ()).checkResult (appRequest 7 5 5) = some r ∧ r.verdict = .forgotten) ∧
    ∃ s call, (system twoClients).ReachedVia FreshXids s ∧
      (s.clients false).calls 4 = some call ∧ call.ret = some RpcConst.atmostonceFailure := by
  constructor
  · obtain ⟨s, hs, hp⟩ := @Machine.exists_reachedVia_of_run _ _ (system twoClients) FreshXids _
      (fun s => decide ((s.clients false).calls 4 = some ⟨appRequest 7 5 5, none, none, false⟩ ∧
          (s.clients false).pending 5 = some 4 ∧
          (s.servers ()).jobs 5 = some ⟨3, appRequest 7 5 5, 4, none, .connSaved⟩) &&
        ((s.servers ()).checkResult (appRequest 7 5 5)).any fun r : ReplyTables.CheckResult =>
          decide (r.verdict = .forgotten)) acknowledgesItself (by decide)
    obtain ⟨hstate, hcheck⟩ := Bool.and_eq_true_iff.mp hp
    obtain ⟨hc, hpend, hj⟩ := of_decide_eq_true hstate
    obtain ⟨r, hr, hv⟩ := (Option.any_eq_true _ _).mp hcheck
    exact ⟨s, r, hs, ⟨hc, hpend, rfl⟩, hj, hr, of_decide_eq_true hv⟩
  · obtain ⟨s, hs, hp⟩ := @Machine.exists_reachedVia_of_run _ _ (system twoClients) FreshXids _
      (fun s => ((s.clients false).calls 4).any fun call =>
        decide (call.ret = some RpcConst.atmostonceFailure))
      (acknowledgesItself ++ [.server () (.check 5), .server () (.send 5),
        .gotPdu false () ⟨3, appRequest 7 5 5, ⟨5, RpcConst.atmostonceFailure, []⟩⟩,
        .finish false 4]) (by decide)
    obtain ⟨call, hc, hret⟩ := (Option.any_eq_true _ _).mp hp
    exact ⟨s, call, hs, hc, of_decide_eq_true hret⟩

end RpcLock.Sys
