import RpcLock.Rpcs.ReferenceSteps

/-!
# When the references balance

The path of `dispatch` for an old server instance returns without the
`c->decref()` with which every other path ends.  Each such return leaves one
reference behind for ever, and there is no other imbalance: `refno_` is one for
`tcpsconn`, one for each holder and one for each such return.
-/

namespace RpcLock.Rpcs

namespace ConnServer

variable {cfg : ServerConfig} {s s' : ConnServer} {a : ConnAct}

/-- The activation that returns in this step, if one does, gives its reference
back: it did not answer a request for an old server instance. -/
def GivesBack (cfg : ServerConfig) (s : ConnServer) : ConnAct → Prop
  | .send j => ∀ job ∈ s.server.jobs j, ¬ cfg.ForOldServer job.req
  | _ => True

instance (cfg : ServerConfig) (s : ConnServer) (a : ConnAct) : Decidable (s.GivesBack cfg a) := by
  cases a <;> unfold GivesBack <;> infer_instance

/-- `refno_` is one for `tcpsconn` and one for each holder, and a dead connection
that nobody else holds can be collected. -/
structure Balanced (cfg : ServerConfig) (s : ConnServer) : Prop where
  refs : ∀ c ∈ s.accepted, s.refno c = 1 + s.holders c
  collectable : ∀ c ∈ s.accepted, s.dead c = true → s.holders c = 0 →
    s.server.aborted = false → s.collecting = none → (s.next cfg (.collect c)).isSome

/-- The count of a connection `tcpsconn` keeps. -/
theorem Inv.refno_eq (hinv : s.Inv) {c : ConnId} (hc : c ∈ s.accepted) :
    s.refno c = 1 + s.holders c + s.oldServed.count c := by
  rw [hinv.refs c, held, List.count_eq_one_of_mem hinv.nodup hc]

theorem Inv.balanced_iff (hinv : s.Inv) :
    s.Balanced cfg ↔ ∀ c ∈ s.accepted, c ∉ s.oldServed := by
  constructor
  · intro hb c hc
    have heq := hinv.refno_eq hc
    rw [hb.refs c hc] at heq
    exact List.count_eq_zero.mp (by omega)
  · intro hnone
    have hrefs : ∀ c ∈ s.accepted, s.refno c = 1 + s.holders c := by
      intro c hc
      rw [hinv.refno_eq hc, List.count_eq_zero.mpr (hnone c hc)]
      rfl
    refine ⟨hrefs, fun c hc hd hh halive hcoll => ?_⟩
    have hone : s.refno c = 1 := by rw [hrefs c hc, hh]
    have heffect : s.effect cfg (.collect c) = some ([], { s with collecting := some c }) :=
      if_pos ⟨hcoll, hc, hd, hone⟩
    rw [ConnServer.next, if_neg (by simp [halive]), heffect]
    rfl

/-- Only a return on the path for an old server instance is put down. -/
theorem oldServed_of_next (hinv : s.Inv) (h : s.next cfg a = some s') (hg : s.GivesBack cfg a) :
    s'.oldServed = s.oldServed := by
  obtain ⟨-, e, r, he, rfl⟩ := hinv.next h
  rcases (changes_of_effect he).oldServed with heq | ⟨j, job, rfl, hj, hold⟩
  · exact heq
  · exact absurd hold (hg job hj)

theorem oldServed_of_reachedVia (h : (connServerMachine cfg).ReachedVia (GivesBack cfg) s) :
    s.Inv ∧ s.oldServed = [] := by
  refine h.invariant (P := fun s => s.Inv ∧ s.oldServed = []) ⟨.init, rfl⟩ ?_
  intro s s' a hs hg hn
  exact ⟨(hs.1.next hn).1, (oldServed_of_next hs.1 hn hg).trans hs.2⟩

/-- The references balance as long as no activation returns on the path for an
old server instance.  In every reachable state they are out of balance by exactly
these returns, and only the connections without one can be collected. -/
theorem references_balance (cfg : ServerConfig) :
    (∀ s, (connServerMachine cfg).ReachedVia (GivesBack cfg) s → s.Balanced cfg) ∧
    ∀ s, (connServerMachine cfg).Reachable s →
      (s.Balanced cfg ↔ ∀ c ∈ s.accepted, c ∉ s.oldServed) ∧
      ∀ c ∈ s.accepted, s.refno c = 1 + s.holders c + s.oldServed.count c := by
  refine ⟨fun s h => ?_, fun s h => ⟨(inv_of_reachable h).balanced_iff,
    fun c hc => (inv_of_reachable h).refno_eq hc⟩⟩
  obtain ⟨hinv, hnone⟩ := oldServed_of_reachedVia h
  refine hinv.balanced_iff.mpr fun c _ => ?_
  rw [hnone]
  exact List.not_mem_nil

/-- A server instance with the nonce 1. -/
def nonceOne : ServerConfig where
  nonce := 1
  registered _ := true
  createTime c := c

/-- A request PDU without arguments. -/
def requestPdu (xid proc cltNonce srvNonce xidRep : UInt8) : List UInt8 :=
  [0, 0, 0, 24, 0, 0, 0, xid, 0, 0, 0, proc, 0, 0, 0, cltNonce, 0, 0, 0, srvNonce, 0, 0, 0, xidRep]

/-- A request for the current instance is answered and the connection dies: only
the saved entry is left. -/
theorem references_balance_current : ∃ s : ConnServer, s.Balanced nonceOne ∧ s.accepted = [5] ∧
    s.dead 5 = true ∧ s.refno 5 = 2 ∧ entriesOf s.server.conns s.keys 5 = 1 := by
  obtain ⟨s, hs, hp⟩ := Machine.exists_reachedVia_of_run (M := connServerMachine nonceOne)
    (G := GivesBack nonceOne)
    (p := fun s => decide (s.accepted = [5] ∧ s.dead 5 = true ∧ s.refno 5 = 2 ∧
      entriesOf s.server.conns s.keys 5 = 1))
    [.accept 5, .gotPdu 5 (requestPdu 1 2 7 1 0), .dispatch 0 0, .createWindow 0, .saveConn 0,
      .check 0, .runHandler 0 0 [], .packReplyHeader 0, .addReply 0, .pickConn 0, .send 0, .die 5]
    (by decide)
  exact ⟨s, (references_balance nonceOne).1 s hs, of_decide_eq_true hp⟩

/-- A request for the instance 9 is answered and the connection dies.  Nobody
holds it any more, and it is never collected. -/
theorem reference_leaks : ∃ s, (connServerMachine nonceOne).Reachable s ∧ s.accepted = [5] ∧
    s.dead 5 = true ∧ s.holders 5 = 0 ∧ s.refno 5 = 2 := by
  obtain ⟨s, hs, hp⟩ := Machine.exists_reachable_of_run (M := connServerMachine nonceOne)
    (p := fun s => decide (s.accepted = [5] ∧ s.dead 5 = true ∧ s.holders 5 = 0 ∧ s.refno 5 = 2))
    [.accept 5, .gotPdu 5 (requestPdu 1 2 7 9 0), .dispatch 0 0, .send 0, .die 5] (by decide)
  exact ⟨s, hs, of_decide_eq_true hp⟩

end ConnServer

end RpcLock.Rpcs
