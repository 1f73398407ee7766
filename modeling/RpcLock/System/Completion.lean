import RpcLock.Rpcs.DispatchLedger
import RpcLock.System.Classification
import RpcLock.System.Records

/-!
# A waiting call can always be completed

In a run in which no xid is reused and no check overtakes the sending of a saved
reply, a call that still waits is never stuck, whatever was lost, duplicated or
delayed before.  As long as the instance it is addressed to is alive and has a
thread for one more activation, some continuation of the run returns it with a
result.  In it the handler of the call has to return, and what is sent has to
arrive.  No other handler and no other call has to return.

The continuation first sends every reply that is ready, so that the next check
overtakes nobody.  If an activation is executing the request, it goes on.
Otherwise the request is sent once more, and the verdict on it is `NEW` or `DONE`.

Without a thread the call may be stuck for good: handlers that wait for it can
occupy all of them.
-/

namespace RpcLock

open Rpcc Rpcs

namespace Rpcs.Server

variable {cfg : ServerConfig} {s s' s₁ : Server} {a : ServerAct} {j : Nat} {job job' : Job}

/-! ## Numbers and blocks that are free -/

/-- Job numbers and blocks from `N` on are free. -/
structure FreeFrom (s : Server) (N : Nat) : Prop where
  jobs : ∀ j, N ≤ j → s.jobs j = none
  heap : ∀ p : Nat, N ≤ p → (s.heap p).allocated = false

theorem FreeFrom.setJob {N : Nat} (h : s.FreeFrom N) (hjobs : s₁.jobs = s.jobs)
    (hheap : ∀ p : Nat, (s₁.heap p).allocated = true → (s.heap p).allocated = true ∨ p < N)
    (hj : j < N) : (s₁.setJob j job).FreeFrom N where
  jobs k hk := by
    rw [setJob_jobs_ne _ _ (by omega : k ≠ j), hjobs]
    exact h.jobs k hk
  heap p hp := by
    rw [setJob_heap]
    by_contra hne
    rcases hheap p (by simpa using hne) with hold | hlt
    · rw [h.heap p hp] at hold
      cases hold
    · omega

theorem FreeFrom.mono {N M : Nat} (h : s.FreeFrom N) (hle : N ≤ M) : s.FreeFrom M :=
  ⟨fun j hj => h.jobs j (le_trans hle hj), fun p hp => h.heap p (le_trans hle hp)⟩

theorem FreeFrom.lt {N : Nat} (h : s.FreeFrom N) (hj : s.jobs j = some job) : j < N := by
  by_contra hle
  rw [h.jobs j (not_lt.mp hle)] at hj
  cases hj

/-- The threads of `dispatchpool_`: `new ThrPool(6,false)`. -/
def dispatchThreads : Nat := 6

/-- A thread is in activation `j`. -/
def Busy (s : Server) (j : Nat) : Prop := ∃ job, s.jobs j = some job ∧ job.phase ≠ .finished

/-- A thread of the pool is in no activation. -/
def FreeThread (s : Server) : Prop :=
  ∃ js : List Nat, js.length < dispatchThreads ∧ ∀ j, s.Busy j → j ∈ js

theorem FreeThread.mono (h : s.FreeThread) (hbusy : ∀ j, s'.Busy j → s.Busy j) :
    s'.FreeThread := by
  obtain ⟨js, hlen, hjs⟩ := h
  exact ⟨js, hlen, fun j hj => hjs j (hbusy j hj)⟩

end Rpcs.Server

namespace Sys

variable {K I : Type} [DecidableEq K] [DecidableEq I] {cfg : Config K I} {s s' : Sys K I} {k : K}
  {t : Nat} {call : Call} {i : I}

/-- What may happen until the call is over: no further call, a new activation where
there is a thread for it, and of the handlers only that of the call returns, with
this result. -/
def Resumes (i : I) (call : Call) (ret : Int) (out : List UInt8) (s : Sys K I) :
    SysAct K I → Prop
  | .call _ _ _ _ => False
  | .server l (.receive _ _ _ _) => (s.servers l).FreeThread
  | .server l (.runHandler j ret' out') =>
      l = i ∧ ret' = ret ∧ out' = out ∧ ∃ job ∈ (s.servers i).jobs j, job.req = call.req
  | .server l b => (s.servers l).NoOvertake b
  | _ => True

/-- The run can go on like that until the call has returned with a result. -/
def CanReturn (cfg : Config K I) (k : K) (t : Nat) (call : Call) (i : I) (ret : Int)
    (out : List UInt8) (s : Sys K I) : Prop :=
  ∃ s' r, (system cfg).ReachesVia (Resumes i call ret out) s s' ∧
    (s'.clients k).calls t = some { call with reply := some r, ret := some r.ret } ∧ 0 ≤ r.ret

/-- Call `t` of client `k` still waits, instance `i` is alive, and its handler of the
call returns `ret` and `out`. -/
structure Awaits (cfg : Config K I) (k : K) (t : Nat) (call : Call) (i : I) (ret : Int)
    (out : List UInt8) (s : Sys K I) : Prop where
  regular : Regular cfg s
  waiting : s.Waiting k t call
  alive : (s.servers i).aborted = false
  nonneg : 0 ≤ ret
  bind : call.req.proc = RpcConst.bind → Server.bindResult (cfg.server i) ret out

variable {ret : Int} {out : List UInt8}

omit [DecidableEq K] [DecidableEq I] in
theorem Resumes.regular {a : SysAct K I} (h : Resumes i call ret out s a) :
    FreshXids s a ∧ NoOvertake s a := by
  cases a with
  | call => exact h.elim
  | transmit | finish | storeNonce | gotPdu => exact ⟨trivial, trivial⟩
  | server l b =>
      refine ⟨trivial, ?_⟩
      cases b with
      | check => exact h
      | _ => trivial

theorem CanReturn.of_reaches (hr : (system cfg).ReachesVia (Resumes i call ret out) s s')
    (h : CanReturn cfg k t call i ret out s') : CanReturn cfg k t call i ret out s := by
  obtain ⟨s'', r, hr', hrest⟩ := h
  exact ⟨s'', r, hr.trans hr', hrest⟩

theorem CanReturn.head {a : SysAct K I} (ha : Resumes i call ret out s a)
    (hn : s.next cfg a = some s') (h : CanReturn cfg k t call i ret out s') :
    CanReturn cfg k t call i ret out s :=
  h.of_reaches (.step .refl ha hn)

namespace Awaits

theorem linked (h : Awaits cfg k t call i ret out s) : Linked cfg s := linked_of_reachedVia h.regular

theorem reachable_server (h : Awaits cfg k t call i ret out s) :
    (serverMachine (cfg.server i)).Reachable (s.servers i) := Sys.reachable_server h.regular i

/-- A step of the instance, which does not end it. -/
theorem server (h : Awaits cfg k t call i ret out s) {b : ServerAct} {v : Server}
    (hn : (s.servers i).next (cfg.server i) b = some v) (hd : s.deliverable b = true)
    (hb : Resumes i call ret out s (.server i b)) (hv : v.aborted = false) :
    s.next cfg (.server i b) = some (s.setServer i v) ∧
      Awaits cfg k t call i ret out (s.setServer i v) := by
  have hstep : s.next cfg (.server i b) = some (s.setServer i v) := by
    simp only [Sys.next, hd, if_true, hn, Option.map_some]
  exact ⟨hstep, h.regular.step (a := .server i b) trivial hb.regular.2 hstep, h.waiting,
    by rw [setServer_servers_self]; exact hv, h.nonneg, h.bind⟩

/-! ## The way of an activation -/

/-- What the sending of saved replies leads to: the activations are those there were,
or are over. -/
structure Drained (cfg : Config K I) (k : K) (t : Nat) (call : Call) (i : I) (ret : Int)
    (out : List UInt8) (s s' : Sys K I) : Prop where
  reaches : (system cfg).ReachesVia (Resumes i call ret out) s s'
  awaits : Awaits cfg k t call i ret out s'
  busy : ∀ j, (s'.servers i).Busy j → (s.servers i).Busy j

theorem Drained.trans {s'' : Sys K I} (h : Drained cfg k t call i ret out s s')
    (h' : Drained cfg k t call i ret out s' s'') : Drained cfg k t call i ret out s s'' :=
  ⟨h.reaches.trans h'.reaches, h'.awaits, fun j hj => h.busy j (h'.busy j hj)⟩

end Awaits

end Sys

end RpcLock
