import RpcLock.Rpcs.Answers
import RpcLock.System.Traffic

/-!
# A saved reply and its use

The buffer of a saved reply is shared by the reply window and by every
activation that is about to send it.  The checks that free such a buffer are
exactly those that overtake the activation: their acknowledgement raises the
lower bound of the client above its xid.

A correct client produces such a check.  It acknowledges a call once it has the
reply, and the reply it has may have come from another activation, or the call
may have timed out.
-/

namespace RpcLock.Sys

open Rpcc Rpcs

section

variable {K I : Type} {s : Sys K I} {a : SysAct K I}

/-- No check of this step overtakes another activation of its client. -/
def NoOvertake (s : Sys K I) : SysAct K I → Prop
  | .server i a => (s.servers i).NoOvertake a
  | _ => True

/-- The step is a check that frees a saved reply in use. -/
def FreesSaved (s : Sys K I) : SysAct K I → Prop
  | .server i (.check j) => (s.servers i).FreesInUse j
  | _ => False

/-- The step is quiet at its instance, whose activations have numbers below `N`. -/
def Quiet (N : Nat) (s : Sys K I) : SysAct K I → Bool
  | .server i a => (s.servers i).Quiet N a
  | _ => true

/-- The step is not a check that frees a reply. -/
def FreesNothing (s : Sys K I) : SysAct K I → Bool
  | .server i a => (s.servers i).FreesNothing a
  | _ => true

variable [DecidableEq K] [DecidableEq I] {cfg : Config K I}

theorem sound_server (h : (system cfg).ReachedVia NoOvertake s) (i : I) :
    (s.servers i).Sound (cfg.server i) :=
  Server.sound_of_reachedVia (reachedVia_server i (fun _ _ hg => hg) h)

/-- Reached by a run in which no xid is reused and no check overtakes the sending
of a saved reply. -/
def Regular (cfg : Config K I) (s : Sys K I) : Prop :=
  (system cfg).ReachedVia (fun s a => FreshXids s a ∧ NoOvertake s a) s

theorem Regular.step {s' : Sys K I} (h : Regular cfg s) (hfresh : FreshXids s a)
    (hno : NoOvertake s a) (hn : s.next cfg a = some s') : Regular cfg s' :=
  Machine.ReachedVia.step h ⟨hfresh, hno⟩ hn

/-- A step that frees nothing overtakes nobody. -/
theorem noOvertake_of_freesNothing (h : (system cfg).ReachedVia NoOvertake s)
    (ha : s.FreesNothing a = true) : s.NoOvertake a := by
  cases a with
  | server i b => exact (sound_server h i).noOvertake ha
  | _ => trivial

/-- A run in which no check frees anything overtakes nobody. -/
theorem reachedVia_noOvertake {G : Sys K I → SysAct K I → Prop}
    (h : (system cfg).ReachedVia (fun s a => G s a ∧ s.FreesNothing a = true) s) :
    (system cfg).ReachedVia (fun s a => G s a ∧ s.NoOvertake a) s :=
  h.imp fun _ _ _ hs hg =>
    ⟨hg.1, noOvertake_of_freesNothing (hs.mono fun _ _ hg => hg.2) hg.2⟩

/-- As long as no check has overtaken an activation, the steps that free a saved
reply in use are the checks that overtake one. -/
theorem freesSaved_iff (h : (system cfg).ReachedVia NoOvertake s) :
    ∀ a, s.NoOvertake a ↔ ¬ s.FreesSaved a := by
  intro a
  cases a with
  | server i b =>
      have hs := sound_server h i
      cases b with
      | check j =>
          exact not_congr (Server.freesInUse_iff hs.cache hs.buffers hs.saved).symm
      | _ => simp [NoOvertake, Server.NoOvertake, FreesSaved]
  | _ => simp [NoOvertake, FreesSaved]

end

/-! ## A check that overtakes -/

/-- One client with nonce 7 and one instance with nonce 9. -/
def oneClient : Config Unit Unit where
  cltNonce _ := 7
  cltNonce_injective := Function.injective_of_subsingleton _
  cltNonce_ne_zero _ := by decide
  srvNonce _ := 9
  srvNonce_injective := Function.injective_of_subsingleton _
  srvNonce_ne_zero _ := by decide
  owner _ := ()
  createTime _ := 0
  registered _ _ := true

/-- An application request to the instance with nonce 9. -/
def appRequest (cltNonce xid xidRep : UInt32) : Request := ⟨xid, 5, cltNonce, 9, xidRep, [1]⟩

/-- Job 1 stores the reply of call 2 and stalls.  Job 2, a retransmission, sends
it.  Call 3 times out, and call 4 acknowledges up to 3. -/
def overtakes : List (SysAct Unit Unit) :=
  binds oneClient () 3 () 0 0 ++
  [.call () 1 5 [1]] ++ arrives () 1 3 () 1 (appRequest 7 2 1) 1 ++ runs () 1 0 [42] ++
  arrives () 1 3 () 2 (appRequest 7 2 1) 2 ++
  [.server () (.check 2), .server () (.send 2),
    .gotPdu () () ⟨3, appRequest 7 2 1, ⟨2, 0, [42]⟩⟩, .finish () 1,
    .call () 2 5 [1], .finish () 2, .call () 3 5 [1]] ++
  arrives () 3 3 () 3 (appRequest 7 4 3) 3

/-- Job 1 has stored its reply in block 1, and the check of job 3 frees it. -/
def aboutToOvertake (s : Sys Unit Unit) : Bool :=
  decide ((s.servers ()).jobs 3 = some ⟨3, appRequest 7 4 3, 3, none, .connSaved⟩ ∧
    (s.servers ()).jobs 1 = some ⟨3, appRequest 7 2 1, 1, some .new, .stored 1 25⟩) &&
  (((s.servers ()).checkResult (appRequest 7 4 3)).any fun r => decide (1 ∈ r.freed)) &&
  (s.next oneClient (.server () (.check 3))).isSome

theorem freesInUse_of_aboutToOvertake {s : Sys Unit Unit} (h : aboutToOvertake s = true) :
    (s.servers ()).FreesInUse 3 := by
  simp only [aboutToOvertake, Bool.and_eq_true, decide_eq_true_eq] at h
  obtain ⟨⟨⟨h3, h1⟩, hfr⟩, -⟩ := h
  cases hr : (s.servers ()).checkResult (appRequest 7 4 3) with
  | none => simp [hr] at hfr
  | some r =>
      simp only [hr, Option.any_some, decide_eq_true_eq] at hfr
      exact ⟨_, r, h3, rfl, hr, 1, hfr, 1, _, by decide, h1, rfl⟩

/-- A correct client makes the server free a saved reply that another activation
has not finished sending. -/
theorem frees_saved_reply_in_use : ∃ s, (system oneClient).Reachable s ∧
    (s.next oneClient (.server () (.check 3))).isSome = true ∧
    s.FreesSaved (.server () (.check 3)) := by
  obtain ⟨s, hs, hp⟩ := @Machine.exists_reachable_of_run _ _ (system oneClient) aboutToOvertake
    overtakes (by decide)
  exact ⟨s, hs, by simp_all [aboutToOvertake], freesInUse_of_aboutToOvertake hp⟩

/-- No earlier check of that run overtakes, and the next one does. -/
theorem freesSaved_iff_overtakes : ∃ s, (system oneClient).ReachedVia NoOvertake s ∧
    (¬ s.NoOvertake (.server () (.check 3)) ∧ s.FreesSaved (.server () (.check 3))) := by
  obtain ⟨s, hs, hp⟩ := @Machine.exists_reachedVia_of_run _ _ (system oneClient)
    (fun s a => True ∧ s.FreesNothing a = true) _ aboutToOvertake overtakes (by decide)
  have hvia : (system oneClient).ReachedVia NoOvertake s :=
    (reachedVia_noOvertake hs).mono fun _ _ hg => hg.2
  have hfree := freesInUse_of_aboutToOvertake hp
  exact ⟨s, hvia, fun hno => (freesSaved_iff hvia _).mp hno hfree, hfree⟩

end RpcLock.Sys
