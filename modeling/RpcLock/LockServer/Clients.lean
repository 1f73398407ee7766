import RpcLock.LockServer.Protocol
import RpcLock.System.EndToEnd

/-!
# Lock clients and one lock server

Any number of `lock_client` objects with any number of threads call one lock
server through `rpcc` and `rpcs`.  The state puts together the RPC system with
one instance, the lock server, whose activations of `acquire` are jobs of that
instance, and the threads.

A handler runs when the job reaches it.  An `acquire` that does not get its lock
leaves the job where it is, and the job goes on when a later `get_lock`
succeeds.  No call times out, so a call ends when it has a reply.

`holding` lists the threads that are between the `OK` of an `acquire` and their
next `release` of the lock.  `acquired` and `released` record all such calls of
the threads.
-/

namespace RpcLock

open Rpcc Rpcs

/-- What a thread of a client does. -/
inductive Thread where
  /-- It is in neither `acquire` nor `release`. -/
  | idle
  /-- It waits for the return of its call, activation `t` of `call1`. -/
  | calling (op : LockOp) (lid : UInt64) (t : Nat)
  /-- The loop of `acquire`, after `RETRY`. -/
  | retrying (lid : UInt64)
deriving DecidableEq, Repr

/-- The lock `lid` is held by a thread of a client. -/
structure Holding (K : Type) where
  client : K
  thread : Nat
  lid : UInt64
deriving DecidableEq

/-- Activation `t` of `call1` of a client was a call for the lock `lid`. -/
structure LockCall (K : Type) where
  client : K
  t : Nat
  lid : UInt64
deriving DecidableEq

structure LockSys (K : Type) where
  rpc : Sys K Unit
  lock : LockServer
  threads : K → Nat → Thread
  holding : List (Holding K)
  /-- The calls of `acquire` that returned `OK`. -/
  acquired : List (LockCall K)
  /-- The calls of `release`. -/
  released : List (LockCall K)

inductive LockSysAct (K : Type) where
  /-- A step of the RPC layer: `bind` in the constructor of `lock_client`,
  messages, and `dispatch` outside the handlers of the lock server. -/
  | rpc (a : SysAct K Unit)
  /-- A thread calls the server in `lock_client::acquire`. -/
  | acquire (k : K) (thread t : Nat) (lid : UInt64)
  | release (k : K) (thread t : Nat) (lid : UInt64)
  /-- The call of a thread returns. -/
  | returns (k : K) (thread : Nat)
  /-- Job `j` enters `lock_server::acquire`. -/
  | enter (j : Nat)
  /-- Job `j` was woken and runs `get_lock` again. -/
  | resume (j : Nat)
  | spurious (j : Nat)
  /-- Job `j` runs `lock_server::release`, and its signal wakes `w`. -/
  | drop (j : Nat) (w : Option Acquire)

namespace LockSys

variable {K : Type} [DecidableEq K]

def init : LockSys K where
  rpc := .init
  lock := .init
  threads _ _ := .idle
  holding := []
  acquired := []
  released := []

/-- Set the state of a thread. -/
def setThread (s : LockSys K) (k : K) (thread : Nat) (th : Thread) : LockSys K :=
  { s with threads := Function.update s.threads k (Function.update (s.threads k) thread th) }

/-! ## The clients -/

/-- The call in `lock_client::acquire` or `lock_client::release`. -/
def call (cfg : Config K Unit) (s : LockSys K) (k : K) (thread t : Nat) (op : LockOp)
    (lid : UInt64) : Option (LockSys K) :=
  -- `call1` returns `bind_failure` at once
  if (s.rpc.clients k).bindFails op.proc then none
  else (s.rpc.next cfg (.call k t op.proc (lockArgs (cfg.cltNonce k) lid))).map fun y =>
    { s with rpc := y }.setThread k thread (.calling op lid t)

/-- What a thread does with the result of its call. -/
def afterCall (s : LockSys K) (k : K) (thread t : Nat) (op : LockOp) (lid : UInt64) (ret : Int) :
    Option (LockSys K) :=
  match op with
  | .release => some (s.setThread k thread .idle)
  | .acquire =>
      if ret = LockStatus.retry.toInt then some (s.setThread k thread (.retrying lid))
      else if ret = LockStatus.ok.toInt then
        some { s.setThread k thread .idle with
          holding := ⟨k, thread, lid⟩ :: s.holding
          acquired := ⟨k, t, lid⟩ :: s.acquired }
      -- VERIFY(ret == lock_protocol::OK)
      else none

/-- The end of `call` in a thread. -/
def returns (cfg : Config K Unit) (s : LockSys K) (k : K) (thread : Nat) : Option (LockSys K) :=
  match s.threads k thread with
  | .calling op lid t =>
      match ((s.rpc.clients k).calls t).bind Call.reply with
      -- no call times out
      | none => none
      | some r =>
          -- `call_m` fails its VERIFY
          if 0 ≤ r.ret ∧ readResult r.payload = none then none
          else (s.rpc.next cfg (.finish k t)).bind fun y =>
            { s with rpc := y }.afterCall k thread t op lid r.ret
  | .idle | .retrying _ => none

/-- Whether the RPC layer makes a step on its own. -/
def ownStep (s : LockSys K) : SysAct K Unit → Bool
  | .call _ _ proc args => decide (proc = RpcConst.bind ∧ args = [0, 0, 0, 0])
  | .finish k t =>
      ((s.rpc.clients k).calls t).any fun call =>
        decide (call.req.proc = RpcConst.bind) && call.reply.isSome
  | .server _ (.runHandler j _ _) =>
      ((s.rpc.servers ()).jobs j).any fun job => decide (job.req.proc = RpcConst.bind)
  | _ => true

/-! ## The handlers -/

/-- The request of job `j`, if its handler for `op` is about to run or runs. -/
def handling (s : LockSys K) (j : Nat) (op : LockOp) : Option Request :=
  match (s.rpc.servers ()).jobs j with
  | none => none
  | some job =>
      if (s.rpc.servers ()).aborted = false ∧ job.phase = .accepted ∧ job.req.proc = op.proc then
        some job.req
      else none

/-- The handler of job `j` returns. -/
def handled (cfg : Config K Unit) (s : LockSys K) (j : Nat) (ret : Int) (out : List UInt8) :
    Option (LockSys K) :=
  (s.rpc.next cfg (.server () (.runHandler j ret out))).map fun y => { s with rpc := y }

/-- Continue with the arguments of job `j`. -/
def withArgs (cfg : Config K Unit) (s : LockSys K) (j : Nat) (op : LockOp)
    (f : Int32 → UInt64 → Option (LockSys K)) : Option (LockSys K) :=
  match s.handling j op with
  | none => none
  | some req =>
      match readLockArgs req.args with
      | none => s.handled cfg j RpcConst.unmarshalArgsFailure []
      | some (clt, lid) => f clt lid

/-- A step of the lock server in which activation `a` of `acquire` runs
`get_lock`.  The handler returns if it succeeds. -/
def getLock (cfg : Config K Unit) (s : LockSys K) (b : LockAct) (a : Acquire) :
    Option (LockSys K) :=
  (s.lock.next b).bind fun l =>
    match s.lock.lockMap.getLock a.clt a.lid with
    | (true, _) => { s with lock := l }.handled cfg a.t LockStatus.ok.toInt (resultBytes 0)
    | (false, _) => some { s with lock := l }

/-- One step. -/
def next (cfg : Config K Unit) (s : LockSys K) : LockSysAct K → Option (LockSys K)
  | .rpc a => if s.ownStep a then (s.rpc.next cfg a).map fun y => { s with rpc := y } else none
  | .acquire k thread t lid =>
      if s.threads k thread = .idle ∨ s.threads k thread = .retrying lid then
        s.call cfg k thread t .acquire lid
      else none
  | .release k thread t lid =>
      -- only after its own `acquire` returned `OK`, and once
      if s.threads k thread = .idle ∧ ⟨k, thread, lid⟩ ∈ s.holding then
        (s.call cfg k thread t .release lid).map fun s =>
          { s with
            holding := s.holding.erase ⟨k, thread, lid⟩
            released := ⟨k, t, lid⟩ :: s.released }
      else none
  | .returns k thread => s.returns cfg k thread
  | .enter j => s.withArgs cfg j .acquire fun clt lid =>
      s.getLock cfg (.acquire ⟨j, clt, lid⟩) ⟨j, clt, lid⟩
  | .resume j => s.withArgs cfg j .acquire fun clt lid =>
      s.getLock cfg (.resume ⟨j, clt, lid⟩) ⟨j, clt, lid⟩
  | .spurious j => s.withArgs cfg j .acquire fun clt lid =>
      (s.lock.next (.spurious ⟨j, clt, lid⟩)).map fun l => { s with lock := l }
  | .drop j w => s.withArgs cfg j .release fun clt lid =>
      (s.lock.release clt lid w).bind fun (l, st, r) =>
        { s with lock := l }.handled cfg j st.toInt (resultBytes r)

end LockSys

variable {K : Type} [DecidableEq K]

/-- Lock clients and one lock server. -/
def lockSystem (cfg : Config K Unit) : Machine (LockSys K) (LockSysAct K) where
  init := .init
  next := LockSys.next cfg

namespace LockSys

/-! ## What a step does -/

/-- The outcomes of a step. -/
inductive Step (cfg : Config K Unit) (s : LockSys K) : LockSysAct K → LockSys K → Prop where
  | rpc {a y} : s.ownStep a = true → s.rpc.next cfg a = some y →
      Step cfg s (.rpc a) { s with rpc := y }
  | acquire {k thread t lid y} :
      (s.rpc.clients k).bindFails LockOp.acquire.proc = false →
      s.rpc.next cfg (.call k t LockOp.acquire.proc (lockArgs (cfg.cltNonce k) lid)) = some y →
      Step cfg s (.acquire k thread t lid)
        ({ s with rpc := y }.setThread k thread (.calling .acquire lid t))
  | release {k thread t lid y} :
      ⟨k, thread, lid⟩ ∈ s.holding →
      (s.rpc.clients k).bindFails LockOp.release.proc = false →
      s.rpc.next cfg (.call k t LockOp.release.proc (lockArgs (cfg.cltNonce k) lid)) = some y →
      Step cfg s (.release k thread t lid)
        { ({ s with rpc := y }.setThread k thread (.calling .release lid t) : LockSys K) with
          holding := s.holding.erase ⟨k, thread, lid⟩
          released := ⟨k, t, lid⟩ :: s.released }
  | unlocked {k thread t lid y th op} :
      s.threads k thread = .calling op lid t → s.rpc.next cfg (.finish k t) = some y →
      (∀ o l u, th ≠ .calling o l u) →
      Step cfg s (.returns k thread) ({ s with rpc := y }.setThread k thread th)
  | locked {k thread t lid y call r} :
      s.threads k thread = .calling .acquire lid t → s.rpc.next cfg (.finish k t) = some y →
      (s.rpc.clients k).calls t = some call → call.reply = some r →
      r.ret = LockStatus.ok.toInt →
      Step cfg s (.returns k thread)
        { ({ s with rpc := y }.setThread k thread .idle : LockSys K) with
          holding := ⟨k, thread, lid⟩ :: s.holding
          acquired := ⟨k, t, lid⟩ :: s.acquired }
  /-- Arguments that cannot be read. -/
  | badArgs {a j y} :
      s.rpc.next cfg (.server () (.runHandler j RpcConst.unmarshalArgsFailure [])) = some y →
      Step cfg s a { s with rpc := y }
  /-- An `acquire` waits. -/
  | waits {a b l} : s.lock.next b = some l → l.lockMap = s.lock.lockMap →
      Step cfg s a { s with lock := l }
  | granted {a b j req clt lid l y} :
      s.lock.next b = some l → s.handling j .acquire = some req →
      readLockArgs req.args = some (clt, lid) → s.lock.lockMap lid = none →
      l.lockMap = Function.update s.lock.lockMap lid (some clt) →
      s.rpc.next cfg (.server () (.runHandler j LockStatus.ok.toInt (resultBytes 0))) = some y →
      Step cfg s a { s with rpc := y, lock := l }
  | dropped {j w req clt lid l y} :
      s.lock.next (.release clt lid w) = some l → s.handling j .release = some req →
      readLockArgs req.args = some (clt, lid) → s.lock.lockMap lid = some clt →
      l.lockMap = Function.update s.lock.lockMap lid none →
      s.rpc.next cfg (.server () (.runHandler j LockStatus.ok.toInt (resultBytes 0))) = some y →
      Step cfg s (.drop j w) { s with rpc := y, lock := l }
  | refused {j w y} :
      s.rpc.next cfg (.server () (.runHandler j LockStatus.retry.toInt (resultBytes (-1)))) = some y →
      Step cfg s (.drop j w) { s with rpc := y }

variable {cfg : Config K Unit} {s s' : LockSys K}

theorem handled_inv {j : Nat} {ret : Int} {out : List UInt8}
    (h : s.handled cfg j ret out = some s') :
    ∃ y, s.rpc.next cfg (.server () (.runHandler j ret out)) = some y ∧ s' = { s with rpc := y } := by
  obtain ⟨y, hy, rfl⟩ := Option.map_eq_some_iff.mp h
  exact ⟨y, hy, rfl⟩

omit [DecidableEq K] in
theorem handling_inv {j : Nat} {op : LockOp} {req : Request} {job : Job}
    (h : s.handling j op = some req) (hj : (s.rpc.servers ()).jobs j = some job) :
    job.req.proc = op.proc ∧ job.req = req := by
  unfold handling at h
  simp only [hj] at h
  split at h
  · next hg =>
      cases h
      exact ⟨hg.2.2, rfl⟩
  · cases h

theorem withArgs_inv {j : Nat} {op : LockOp} {f : Int32 → UInt64 → Option (LockSys K)}
    (h : s.withArgs cfg j op f = some s') :
    (∃ y, s.rpc.next cfg (.server () (.runHandler j RpcConst.unmarshalArgsFailure [])) = some y ∧
      s' = { s with rpc := y }) ∨
    ∃ req clt lid, s.handling j op = some req ∧ readLockArgs req.args = some (clt, lid) ∧
      f clt lid = some s' := by
  unfold withArgs at h
  split at h
  · cases h
  · next req hreq =>
      split at h
      · exact .inl (handled_inv h)
      · next clt lid hargs => exact .inr ⟨req, clt, lid, hreq, hargs, h⟩

theorem call_inv {k : K} {thread t : Nat} {op : LockOp} {lid : UInt64}
    (h : s.call cfg k thread t op lid = some s') :
    (s.rpc.clients k).bindFails op.proc = false ∧ ∃ y,
      s.rpc.next cfg (.call k t op.proc (lockArgs (cfg.cltNonce k) lid)) = some y ∧
      s' = { s with rpc := y }.setThread k thread (.calling op lid t) := by
  unfold call at h
  split at h
  · cases h
  · next hb =>
      obtain ⟨y, hy, rfl⟩ := Option.map_eq_some_iff.mp h
      exact ⟨by simpa using hb, y, hy, rfl⟩

/-- The step of an `acquire` that runs `get_lock`. -/
theorem step_of_getLock {a : LockSysAct K} {b : LockAct} {j : Nat} {req : Request} {clt : Int32}
    {lid : UInt64} (hb : ∀ l, s.lock.next b = some l →
      (s.lock.lockMap lid = none ∧
        l.lockMap = Function.update s.lock.lockMap lid (some clt)) ∨
      (s.lock.lockMap lid ≠ none ∧ l.lockMap = s.lock.lockMap))
    (hreq : s.handling j .acquire = some req) (hargs : readLockArgs req.args = some (clt, lid))
    (h : s.getLock cfg b ⟨j, clt, lid⟩ = some s') : Step cfg s a s' := by
  obtain ⟨l, hl, h⟩ := Option.bind_eq_some_iff.mp h
  rcases s.lock.lockMap.getLock_cases clt lid with ⟨hfree, hg⟩ | ⟨c, hheld, hg⟩
  · simp only [hg] at h
    obtain ⟨y, hy, rfl⟩ := handled_inv h
    rcases hb l hl with ⟨-, hmap⟩ | ⟨hne, -⟩
    · exact .granted hl hreq hargs hfree hmap hy
    · exact absurd hfree hne
  · simp only [hg] at h
    cases h
    rcases hb l hl with ⟨hfree, -⟩ | ⟨-, hmap⟩
    · rw [hfree] at hheld
      cases hheld
    · exact .waits hl hmap

theorem step_of_returns {k : K} {thread : Nat} (h : s.returns cfg k thread = some s') :
    Step cfg s (.returns k thread) s' := by
  unfold returns at h
  split at h
  · next op lid t hth =>
      split at h
      · cases h
      · next r hr =>
          split at h
          · cases h
          · obtain ⟨y, hy, h⟩ := Option.bind_eq_some_iff.mp h
            obtain ⟨call, hcall, hreply⟩ := Option.bind_eq_some_iff.mp hr
            cases op with
            | release =>
                cases h
                exact .unlocked hth hy (by simp)
            | acquire =>
                simp only [afterCall] at h
                split at h
                · cases h
                  exact .unlocked hth hy (by simp)
                · split at h
                  · next hok =>
                      cases h
                      exact .locked hth hy hcall hreply hok
                  · cases h
  · cases h
  · cases h

theorem step_of_next {a : LockSysAct K} (h : s.next cfg a = some s') : Step cfg s a s' := by
  cases a with
  | rpc a =>
      simp only [next] at h
      split at h
      · next hown =>
          obtain ⟨y, hy, rfl⟩ := Option.map_eq_some_iff.mp h
          exact .rpc hown hy
      · cases h
  | acquire k thread t lid =>
      simp only [next] at h
      split at h
      · obtain ⟨hb, y, hy, rfl⟩ := call_inv h
        exact .acquire hb hy
      · cases h
  | release k thread t lid =>
      simp only [next] at h
      split at h
      · next hg =>
          obtain ⟨s₁, h₁, rfl⟩ := Option.map_eq_some_iff.mp h
          obtain ⟨hb, y, hy, rfl⟩ := call_inv h₁
          exact .release hg.2 hb hy
      · cases h
  | returns k thread => exact step_of_returns h
  | enter j =>
      simp only [next] at h
      rcases withArgs_inv h with ⟨y, hy, rfl⟩ | ⟨req, clt, lid, hreq, hargs, hf⟩
      · exact .badArgs hy
      · refine step_of_getLock (fun l hl => ?_) hreq hargs hf
        cases LockServer.step_of_next hl with
        | grant hfree => exact .inl ⟨hfree, rfl⟩
        | park hheld => exact .inr ⟨by simp [hheld], rfl⟩
  | resume j =>
      simp only [next] at h
      rcases withArgs_inv h with ⟨y, hy, rfl⟩ | ⟨req, clt, lid, hreq, hargs, hf⟩
      · exact .badArgs hy
      · refine step_of_getLock (fun l hl => ?_) hreq hargs hf
        cases LockServer.step_of_next hl with
        | grantWoken _ hfree => exact .inl ⟨hfree, rfl⟩
        | parkWoken _ hheld => exact .inr ⟨by simp [hheld], rfl⟩
  | spurious j =>
      simp only [next] at h
      rcases withArgs_inv h with ⟨y, hy, rfl⟩ | ⟨req, clt, lid, -, -, hf⟩
      · exact .badArgs hy
      · obtain ⟨l, hl, rfl⟩ := Option.map_eq_some_iff.mp hf
        cases LockServer.step_of_next hl with
        | spurious => exact .waits hl rfl
  | drop j w =>
      simp only [next] at h
      rcases withArgs_inv h with ⟨y, hy, rfl⟩ | ⟨req, clt, lid, hreq, hargs, hf⟩
      · exact .badArgs hy
      · obtain ⟨⟨l, st, r⟩, hr, hf⟩ := Option.bind_eq_some_iff.mp hf
        obtain ⟨y, hy, rfl⟩ := handled_inv hf
        have hl : s.lock.next (.release clt lid w) = some l := by
          rw [LockServer.next, hr, Option.map_some]
        rcases LockServer.release_inv hr with ⟨hheld, c, hc, he⟩ | ⟨-, -, he⟩
        · cases he
          exact .dropped hl hreq hargs hheld rfl hy
        · cases he
          exact .refused hy

end LockSys

end RpcLock
