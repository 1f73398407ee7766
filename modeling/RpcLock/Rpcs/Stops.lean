import RpcLock.Rpcs.Answers
import RpcLock.Rpcs.ReplyConnection

/-!
# What stops a server instance

The process of a server goes down in three ways: a request for a procedure that
is not registered, a handler that returns a negative number, and the reply to a
client that opted out of at-most-once and whose connection is dead.  The other
assertions of `dispatch`, `checkduplicate_and_update` and `add_reply` hold
whatever arrives, in any order.
-/

namespace RpcLock.Rpcs.Server

/-- The step stops the process. -/
def Stops (cfg : ServerConfig) (s : Server) : ServerAct → Prop
  | .receive _ _ req _ =>
      Addressed cfg req ∧ req.proc ≠ RpcConst.bind ∧ cfg.registered req.proc = false
  | .runHandler _ ret _ => ret < 0
  | .pickConn j dead => dead = true ∧ ∃ job ∈ s.jobs j, job.req.cltNonce = 0
  | .createWindow _ | .saveConn _ | .check _ | .packReplyHeader _ | .addReply _ | .send _ => False

variable {cfg : ServerConfig} {s s' : Server} {j : Nat} {job : Job} {a : ServerAct}

theorem receive_aborted (ha : s.aborted = false) {c : ConnId} {req : Request} {p : Ptr} :
    (s.receive cfg j c req p).aborted = true ↔ Stops cfg s (.receive j c req p) := by
  unfold Server.receive Stops Addressed
  by_cases hold : req.srvNonce ≠ 0 ∧ req.srvNonce ≠ cfg.nonce
  · rw [if_pos hold]
    refine iff_of_false (by simp [ha]) fun hs => ?_
    exact hs.1.elim hold.1 hold.2
  · rw [if_neg hold]
    have haddr : req.srvNonce = 0 ∨ req.srvNonce = cfg.nonce := by
      by_contra hc
      exact hold (not_or.mp hc)
    by_cases hreg : cfg.registered req.proc = true ∨ req.proc = RpcConst.bind
    · rw [if_neg (not_not.mpr hreg)]
      refine iff_of_false (by split <;> simp [ha]) fun hs => ?_
      rcases hreg with hreg | hbind
      · rw [hs.2.2] at hreg
        cases hreg
      · exact hs.2.1 hbind
    · rw [if_pos hreg]
      obtain ⟨hr, hb⟩ := not_or.mp hreg
      exact iff_of_true rfl ⟨haddr, hb, by simpa using hr⟩

theorem afterCheck_aborted (ha : s.aborted = false) {r : ReplyTables.CheckResult}
    (hr : s.checkResult job.req = some r) : (s.afterCheck j job r).aborted = false := by
  unfold Server.afterCheck
  cases hv : r.verdict with
  | new | inprogress | forgotten => exact ha
  | done =>
      -- the verdict comes with the saved reply
      obtain ⟨e, he⟩ := ReplyTables.reply_of_done hr hv
      simp only [he]
      exact ha

/-- A step from a reachable state stops the process exactly if it is one of the
three. -/
theorem aborted_next_iff (h : (serverMachine cfg).Reachable s) (hn : s.next cfg a = some s') :
    s'.aborted = true ↔ s.Stops cfg a := by
  have ha : s.aborted = false := not_aborted_of_next hn
  cases a with
  | receive j c req p =>
      simp only [Server.next] at hn
      split at hn
      · cases hn
      · cases hn
        exact receive_aborted ha
  | createWindow j =>
      obtain ⟨-, job, hj, hf⟩ := withJob_inv hn
      cases hp : job.phase <;> simp only [hp, reduceCtorEq] at hf
      cases hf
      exact iff_of_false (by simp [ha]) id
  | saveConn j =>
      obtain ⟨-, job, hj, hf⟩ := withJob_inv hn
      cases hp : job.phase <;> simp only [hp, reduceCtorEq] at hf
      cases hf
      exact iff_of_false (by simp [ha]) id
  | check j =>
      obtain ⟨-, job, hj, hf⟩ := withJob_inv hn
      cases hp : job.phase <;> simp only [hp, reduceCtorEq] at hf
      obtain ⟨r, hr⟩ := Option.isSome_iff_exists.mp (checkResult_isSome h hj hp)
      simp only [hr, Option.some.injEq] at hf
      subst hf
      exact iff_of_false (by simp [afterCheck_aborted ha hr]) id
  | runHandler j ret out =>
      obtain ⟨-, job, hj, hf⟩ := withJob_inv hn
      cases hp : job.phase <;> simp only [hp, reduceCtorEq] at hf
      split at hf
      · cases hf
      · split at hf
        · next hneg =>
            cases hf
            exact iff_of_true rfl hneg
        · next hpos =>
            cases hf
            exact iff_of_false (by simp [ha]) hpos
  | packReplyHeader j =>
      obtain ⟨-, job, hj, hf⟩ := withJob_inv hn
      cases hp : job.phase <;> simp only [hp, reduceCtorEq] at hf
      cases hf
      exact iff_of_false (by simp [ha]) id
  | addReply j =>
      obtain ⟨-, job, hj, hf⟩ := withJob_inv hn
      cases hp : job.phase with
      | packed ret out =>
          simp only [hp] at hf
          split at hf
          · cases hf
            exact iff_of_false (by simp [ha]) id
          · next hz =>
              obtain ⟨t, ht⟩ := Option.isSome_iff_exists.mp
                (addReply_isSome h hj hp hz job.rep (Reply.size ⟨job.req.xid, ret, out⟩))
              simp only [ht] at hf
              cases hf
              exact iff_of_false (by simp [ha]) id
      | _ => simp [hp] at hf
  | pickConn j dead =>
      obtain ⟨-, job, hj, hf⟩ := withJob_inv hn
      have hsaved := saved_of_reachable h
      cases hp : job.phase <;> simp only [hp, reduceCtorEq] at hf
      split at hf
      · next hdead =>
          split at hf
          · next hnone =>
              -- a client that wants at-most-once has an entry
              cases hf
              refine iff_of_true rfl ⟨hdead.1, job, hj, ?_⟩
              by_contra hne
              have hsome := hsaved.entry j job hj (by rw [hp]; rfl) hne
              simp [hnone] at hsome
          · next c hc =>
              cases hf
              refine iff_of_false (by simp [ha]) ?_
              rintro ⟨-, job', hj', h0⟩
              cases hj.symm.trans hj'
              rw [h0, hsaved.zero] at hc
              cases hc
      · next hkeep =>
          cases hf
          refine iff_of_false (by simp [ha]) ?_
          rintro ⟨hd, job', hj', h0⟩
          cases hj.symm.trans hj'
          refine hkeep ⟨hd, ?_⟩
          rw [h0, hsaved.zero]
          simp
  | send j =>
      obtain ⟨-, job, hj, hf⟩ := withJob_inv hn
      cases hp : job.phase <;> simp only [hp, reduceCtorEq] at hf
      cases hf
      exact iff_of_false (by simp [ha]) id

end RpcLock.Rpcs.Server
