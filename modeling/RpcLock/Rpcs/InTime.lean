import RpcLock.Rpcs.ReplyBuffers

/-!
# Replies stored in time

`add_reply` may store a reply whose xid the lower bound has passed, and the entry
then stays.  A reply stored before that is *in time*: its entry is in the window
only as long as the bound is not above it, and once the bound is, the request is
neither executed nor answered from the window again.  A reply that is in time
stays so.
-/

namespace RpcLock.Rpcs

/-! ## An entry that came in time -/

namespace ReplyTables

variable {t t' : ReplyTables} {n x : UInt32}

/-- If the reply for `x` is in the window, the bound has not risen above `x`. -/
def InTime (t : ReplyTables) (n x : UInt32) : Prop := ∀ e ∈ t.window n, e.xid = x → ¬ t.Below n x

/-- Raising the bound above an entry drops it. -/
theorem InTime.raiseLowerBound (h : t.InTime n x) (hs : Sorted (t.window n))
    (hb : (t.replyLowerBound n).isSome) {m a : UInt32} {fr : List Ptr}
    (hr : t.raiseLowerBound m a = some (t', fr)) : t'.InTime n x := by
  intro e he hx
  by_cases hm : n = m
  · subst hm
    rcases raiseLowerBound_cases hr with ⟨hnone, -, -⟩ | ⟨_, -, -, -, rfl⟩ | ⟨_, -, -, -, rfl⟩
    · rw [hnone] at hb
      cases hb
    · exact h e he hx
    · rintro ⟨b, hbound, hlt⟩
      rw [raised_bound_self] at hbound
      cases hbound
      rw [raised_window_self] at he
      exact absurd (hx ▸ le_of_mem_kept hs he) (not_le_of_gt hlt)
  · obtain ⟨hbound, -, hw⟩ := raiseLowerBound_ne hr hm
    unfold Below
    rw [hbound]
    exact h e (hw ▸ he) hx

theorem InTime.check (h : t.InTime n x) (hs : Sorted (t.window n))
    (hb : (t.replyLowerBound n).isSome) {m y a : UInt32} {r : CheckResult}
    (hr : t.checkduplicateAndUpdate m y a = some r) : r.tables.InTime n x := by
  obtain ⟨t₁, hraise, ht, -, -⟩ := checkduplicateAndUpdate_inv hr
  rw [ht]
  intro e he hx
  rw [insertSeen_window] at he
  rw [insertSeen_below]
  exact h.raiseLowerBound hs hb hraise e he hx

/-- A request below the bound whose reply came in time is not served again. -/
theorem InTime.not_served (h : t.InTime n x) (hwf : t.WF) (hw : (t.replyWindow n).isSome)
    (hbelow : t.Below n x) (a : UInt32) :
    ∃ r, t.checkduplicateAndUpdate n x a = some r ∧
      (r.verdict = .inprogress ∨ r.verdict = .forgotten) := by
  obtain ⟨t₁, fr, hraise⟩ := @exists_raiseLowerBound t n a hwf hw
  obtain ⟨r, hr⟩ : ∃ r, t.checkduplicateAndUpdate n x a = some r := by
    unfold checkduplicateAndUpdate
    rw [hraise]
    exact ⟨_, rfl⟩
  refine ⟨r, hr, ?_⟩
  have hb : (t.replyLowerBound n).isSome := by
    obtain ⟨lb, hlb, -⟩ := hbelow
    rw [hlb]
    rfl
  rcases verdict_check hr with hv | ⟨hv, -⟩ | ⟨-, e, -, he, hx⟩ | ⟨hv, -⟩
  · exact absurd (.inr hbelow) (not_remembers_of_new hr hv)
  · exact .inl hv
  · exact absurd ((Keeps.check hr).below n x hbelow) (h.check (hwf.sorted n) hb hr e he hx)
  · exact .inr hv

end ReplyTables

namespace Server

variable {cfg : ServerConfig} {s s' : Server} {a : ServerAct} {n x : UInt32}

/-! ## Acknowledgements that were processed -/

/-- The bound is at or above every acknowledgement that reached the check. -/
def Told (s : Server) : Prop :=
  ∀ j job, s.jobs j = some job → job.verdict ≠ none → job.req.cltNonce ≠ 0 →
    ∃ lb, s.tables.replyLowerBound job.req.cltNonce = some lb ∧ job.req.xidRep ≤ lb

theorem told_init : Told Server.init := by simp [Told, Server.init]

/-- A bound only rises. -/
theorem bound_mono (hn : s.next cfg a = some s') {lb : UInt32}
    (hlb : s.tables.replyLowerBound n = some lb) :
    ∃ lb', s'.tables.replyLowerBound n = some lb' ∧ lb ≤ lb' := by
  have hcheck : ∀ req r, s.checkResult req = some r →
      ∃ lb', r.tables.replyLowerBound n = some lb' ∧ lb ≤ lb' := by
    intro req r hr
    obtain ⟨t₁, hraise, ht, -, -⟩ := ReplyTables.checkduplicateAndUpdate_inv hr
    rw [ht, ReplyTables.insertSeen_bound]
    by_cases hm : n = req.cltNonce
    · subst hm
      obtain ⟨b, hb, -, -, hle⟩ := ReplyTables.raiseLowerBound_bound hraise
      exact ⟨b, hb, hle lb hlb⟩
    · exact ⟨lb, (ReplyTables.raiseLowerBound_ne hraise hm).1.trans hlb, le_rfl⟩
  cases step_of_next hn with
  | createWindow => exact ⟨lb, by simpa [ReplyTables.createWindow_bound] using hlb, le_rfl⟩
  | checkNew _ _ hr _ => exact hcheck _ _ hr
  | checkInprogress _ _ hr _ => exact hcheck _ _ hr
  | checkDone _ _ hr _ _ => exact hcheck _ _ hr
  | checkForgotten _ _ hr _ => exact hcheck _ _ hr
  | addReply _ _ _ ht => exact ⟨lb, by simpa [(ReplyTables.addReply_inv ht).1] using hlb, le_rfl⟩
  | _ => exact ⟨lb, hlb, le_rfl⟩

theorem told_next (h : Told s) (hn : s.next cfg a = some s') : Told s' := by
  intro j job hj hv h0
  rcases verdict_of_next hn hj hv with ⟨kob, hk, hver, hreq⟩ | hz | ⟨-, r, -, -, -, hr, -, htab⟩
  · obtain ⟨lb, hlb, hle⟩ := h j kob hk (hver ▸ hv) (hreq ▸ h0)
    rw [hreq] at hlb hle
    obtain ⟨lb', hlb', hle'⟩ := bound_mono hn hlb
    exact ⟨lb', hlb', le_trans hle hle'⟩
  · exact absurd hz h0
  · obtain ⟨t₁, hraise, ht, -, -⟩ := ReplyTables.checkduplicateAndUpdate_inv hr
    obtain ⟨b, hb, hle, -, -⟩ := ReplyTables.raiseLowerBound_bound hraise
    exact ⟨b, by rw [htab, ht, ReplyTables.insertSeen_bound, hb], hle⟩

theorem told_of_reachable (h : (serverMachine cfg).Reachable s) : Told s :=
  h.invariant told_init fun _ _ _ ht hn => told_next ht hn

/-! ## Requests that are settled -/

/-- The reply for the request is stored, or was. -/
def Stored (s : Server) (n x : UInt32) : Prop :=
  ∃ j job, s.jobs j = some job ∧ job.stored = true ∧ job.req.cltNonce = n ∧ job.req.xid = x

theorem ResultOf.stored {r : Reply} (h : s.ResultOf n x r) : s.Stored n x := by
  obtain ⟨e, -, job, hj, hst, hreq, hn, hx, -, -⟩ := h
  exact ⟨e.job, job, hj, hst, hreq ▸ hn, hreq ▸ hx⟩

/-- `add_reply` comes once. -/
theorem Stored.not_executing (h : s.Stored n x) (ho : Once s) (h0 : n ≠ 0) :
    ¬ s.Executing n x := by
  obtain ⟨j, job, hj, hst, rfl, rfl⟩ := h
  rintro ⟨k, kob, hk, hv, hns, hn, hx⟩
  obtain rfl := ho.unique j k job kob hj hk (Job.stored_verdict hst) hv h0 hn.symm hx.symm
  rw [hj] at hk
  cases hk
  rw [hst] at hns
  cases hns

/-- A stored reply stays in time: no other reply is stored for the request, and
the bound rises above it only when it is dropped. -/
theorem inTime_next (ho : Once s) (hc : Cache s) (ht : Told s) (h0 : n ≠ 0) (hst : s.Stored n x)
    (h : s.tables.InTime n x) (hn : s.next cfg a = some s') : s'.tables.InTime n x := by
  have hbound : (s.tables.replyLowerBound n).isSome := by
    obtain ⟨j, job, hj, hs, rfl, -⟩ := hst
    obtain ⟨lb, hlb, -⟩ := ht j job hj (by simp [Job.stored_verdict hs]) h0
    rw [hlb]
    rfl
  have hcheck : ∀ {req r}, s.checkResult req = some r → r.tables.InTime n x := fun hr =>
    h.check (hc.wf.sorted n) hbound hr
  cases step_of_next hn with
  | createWindow =>
      intro e he hx
      have := h e (by simpa using he) hx
      simpa [ReplyTables.Below, ReplyTables.createWindow_bound] using this
  | checkNew _ _ hr _ => exact hcheck hr
  | checkInprogress _ _ hr _ => exact hcheck hr
  | checkDone _ _ hr _ _ => exact hcheck hr
  | checkForgotten _ _ hr _ => exact hcheck hr
  | @addReply j job ret out t hj hp _ hadd =>
      intro e he hx
      have hbelow : t.Below n x ↔ s.tables.Below n x := by
        simp only [ReplyTables.Below, (ReplyTables.addReply_inv hadd).1]
      rcases (ReplyTables.mem_window_addReply hc.wf hadd).mp he with hold | ⟨rfl, rfl⟩
      · exact fun hb => h e hold hx (hbelow.mp hb)
      · obtain ⟨hnew, -⟩ := (hc.jobs j job hj).ran ret out (.inr hp)
        exact absurd ⟨j, job, hj, hnew, by simp [Job.stored, hp], rfl, hx⟩
          (hst.not_executing ho h0)
  | _ => exact h

end Server

end RpcLock.Rpcs
