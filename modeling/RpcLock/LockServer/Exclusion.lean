import RpcLock.LockServer.Clients
import RpcLock.System.Records
import Mathlib.Data.List.Nodup
import Mathlib.Data.List.Perm.Subperm

/-!
# Mutual exclusion

In runs where no client reuses an xid and no check overtakes the sending of a
saved reply, at most one thread holds a lock.

The argument counts.  For every client and lock, the server has granted the lock
once more than it has dropped it exactly while `lock_map_` names the client, and
it has not dropped it more often than threads called `release`.  A thread that
holds the lock has an `OK` that no `release` followed, and an `OK` comes from a
grant of its own.

A check that overtakes breaks this: a stalled activation sends the `OK` of
another client.
-/

namespace List

variable {α β γ : Type*}

/-- The counted elements of one list inject into those of another. -/
theorem countP_le_countP_of_map {l : List α} {m : List β} {p : α → Bool} {q : β → Bool}
    (f : α → γ) (g : β → γ) (hl : ((l.filter p).map f).Nodup)
    (hsub : ∀ a ∈ l, p a = true → ∃ b ∈ m, q b = true ∧ g b = f a) :
    l.countP p ≤ m.countP q := by
  have hmem : (l.filter p).map f ⊆ (m.filter q).map g := by
    intro c hc
    obtain ⟨a, ha, rfl⟩ := List.mem_map.mp hc
    obtain ⟨ha, hp⟩ := List.mem_filter.mp ha
    obtain ⟨b, hb, hq, hgf⟩ := hsub a ha hp
    exact List.mem_map.mpr ⟨b, List.mem_filter.mpr ⟨hb, hq⟩, hgf⟩
  have hlen := (hl.subperm hmem).length_le
  rw [List.length_map, List.length_map] at hlen
  rwa [List.countP_eq_length_filter, List.countP_eq_length_filter]

end List

namespace RpcLock

open Rpcc Rpcs

namespace LockSys

section

variable {K : Type} [DecidableEq K]

/-! ## Conditions on the steps -/

/-- No xid is handed out twice. -/
def FreshXids (s : LockSys K) : LockSysAct K → Prop
  | .rpc a => s.rpc.FreshXids a
  | .acquire k _ _ _ | .release k _ _ _ => (s.rpc.clients k).xid ≠ 0
  | _ => True

/-- No check overtakes an activation that holds a saved reply. -/
def NoOvertake (s : LockSys K) : LockSysAct K → Prop
  | .rpc a => s.rpc.NoOvertake a
  | _ => True

/-- The step is not a check that frees a reply. -/
def FreesNothing (s : LockSys K) : LockSysAct K → Bool
  | .rpc a => s.rpc.FreesNothing a
  | _ => true

instance (s : LockSys K) (a : LockSysAct K) : Decidable (s.FreshXids a) :=
  match a with
  | .rpc a => inferInstanceAs (Decidable (s.rpc.FreshXids a))
  | .acquire k _ _ _ | .release k _ _ _ =>
      inferInstanceAs (Decidable ((s.rpc.clients k).xid ≠ 0))
  | .returns _ _ | .enter _ | .resume _ | .spurious _ | .drop _ _ => .isTrue trivial

variable {cfg : Config K Unit} {s s' : LockSys K} {a : LockSysAct K}

/-- A step is at most one step of the RPC system. -/
theorem rpc_step (hf : s.FreshXids a) (ho : s.NoOvertake a) (h : Step cfg s a s') :
    s'.rpc = s.rpc ∨ ∃ b, s.rpc.next cfg b = some s'.rpc ∧ s.rpc.FreshXids b ∧
      s.rpc.NoOvertake b := by
  cases h with
  | rpc _ hy => exact .inr ⟨_, hy, hf, ho⟩
  | acquire _ hy => exact .inr ⟨_, hy, hf, trivial⟩
  | release _ _ hy => exact .inr ⟨_, hy, hf, trivial⟩
  | unlocked _ hy _ => exact .inr ⟨_, hy, trivial, trivial⟩
  | locked _ hy _ _ _ => exact .inr ⟨_, hy, trivial, trivial⟩
  | badArgs hy => exact .inr ⟨_, hy, trivial, trivial⟩
  | waits => exact .inl rfl
  | granted _ _ _ _ _ hy => exact .inr ⟨_, hy, trivial, trivial⟩
  | dropped _ _ _ _ _ hy => exact .inr ⟨_, hy, trivial, trivial⟩
  | refused hy => exact .inr ⟨_, hy, trivial, trivial⟩

/-- A run of clients and server is a run of the RPC system. -/
theorem reachedVia_rpc
    (h : (lockSystem cfg).ReachedVia (fun s a => s.FreshXids a ∧ s.NoOvertake a) s) :
    (system cfg).ReachedVia (fun s a => s.FreshXids a ∧ s.NoOvertake a) s.rpc := by
  refine h.map (N := system cfg) LockSys.rpc rfl fun s s' a hg hn => ?_
  rcases rpc_step hg.1 hg.2 (step_of_next hn) with he | ⟨b, hy, hb⟩
  · exact .inl he
  · exact .inr ⟨b, hb, hy⟩

/-- A run in which no check frees anything overtakes nobody. -/
theorem reachedVia_noOvertake
    (h : (lockSystem cfg).ReachedVia (fun s a => s.FreshXids a ∧ s.FreesNothing a = true) s) :
    (lockSystem cfg).ReachedVia (fun s a => s.FreshXids a ∧ s.NoOvertake a) s := by
  refine h.imp fun s a _ hs hg => ⟨hg.1, ?_⟩
  cases a with
  | rpc b =>
      exact Sys.noOvertake_of_freesNothing ((reachedVia_rpc hs).mono fun _ _ hg => hg.2) hg.2
  | _ => trivial

/-! ## Executions and the table -/

/-- A handler for `op` on the lock `lid` of the client `clt` returned `OK`. -/
def isOk (op : LockOp) (clt : Int32) (lid : UInt64) (e : Exec) : Bool :=
  decide (e.req.proc = op.proc ∧ e.ret = LockStatus.ok.toInt ∧
    readLockArgs e.req.args = some (clt, lid))

/-- The number of such executions. -/
def okCount (s : LockSys K) (op : LockOp) (clt : Int32) (lid : UInt64) : Nat :=
  (s.rpc.servers ()).execs.countP (isOk op clt lid)

/-- The table names the client of the last grant that was not dropped. -/
def Balanced (s : LockSys K) : Prop :=
  ∀ clt lid, s.okCount .acquire clt lid =
    s.okCount .release clt lid + if s.lock.lockMap lid = some clt then 1 else 0

omit [DecidableEq K] in
theorem balanced_init : Balanced (LockSys.init : LockSys K) := by
  intro clt lid
  simp [okCount, LockSys.init, Sys.init, Server.init, LockServer.init]

omit [DecidableEq K] in
/-- A step that executes nothing and leaves the table alone. -/
theorem Balanced.same (h : s.Balanced)
    (hex : (s'.rpc.servers ()).execs = (s.rpc.servers ()).execs)
    (hmap : s'.lock.lockMap = s.lock.lockMap) : s'.Balanced := by
  intro clt lid
  rw [okCount, okCount, hex, hmap]
  exact h clt lid

omit [DecidableEq K] in
/-- An execution that is neither a grant nor a drop. -/
theorem Balanced.other (h : s.Balanced) {e : Exec}
    (hex : (s'.rpc.servers ()).execs = (s.rpc.servers ()).execs ++ [e])
    (he : ∀ op clt lid, isOk op clt lid e = false) (hmap : s'.lock.lockMap = s.lock.lockMap) :
    s'.Balanced := by
  intro clt lid
  have hcount : ∀ op, s'.okCount op clt lid = s.okCount op clt lid := by
    intro op
    rw [okCount, hex, List.countP_append, List.countP_singleton, he]
    rfl
  rw [hcount, hcount, hmap]
  exact h clt lid

omit [DecidableEq K] in
/-- What a successful handler adds to the counts. -/
theorem okCount_of_exec {e : Exec} {op : LockOp} {clt : Int32} {lid : UInt64}
    (hex : (s'.rpc.servers ()).execs = (s.rpc.servers ()).execs ++ [e])
    (hproc : e.req.proc = op.proc) (hret : e.ret = LockStatus.ok.toInt)
    (hargs : readLockArgs e.req.args = some (clt, lid)) (op' : LockOp) (clt' : Int32)
    (lid' : UInt64) :
    s'.okCount op' clt' lid' = s.okCount op' clt' lid' +
      if op' = op ∧ clt' = clt ∧ lid' = lid then 1 else 0 := by
  have hok : isOk op' clt' lid' e = decide (op' = op ∧ clt' = clt ∧ lid' = lid) := by
    rw [isOk, hproc, hret, hargs, decide_eq_decide]
    constructor
    · rintro ⟨hp, -, ha⟩
      cases ha
      exact ⟨(LockOp.proc_injective hp).symm, rfl, rfl⟩
    · rintro ⟨rfl, rfl, rfl⟩
      exact ⟨rfl, rfl, rfl⟩
  rw [okCount, hex, List.countP_append, List.countP_singleton, hok, okCount]
  simp only [decide_eq_true_eq]

omit [DecidableEq K] in
/-- A successful handler for the lock `lid`.  What must be shown is about that
entry of the table. -/
theorem Balanced.handled (h : s.Balanced) {e : Exec} {op : LockOp} {clt : Int32} {lid : UInt64}
    (hex : (s'.rpc.servers ()).execs = (s.rpc.servers ()).execs ++ [e])
    (hproc : e.req.proc = op.proc) (hret : e.ret = LockStatus.ok.toInt)
    (hargs : readLockArgs e.req.args = some (clt, lid))
    (hmap : ∀ l, l ≠ lid → s'.lock.lockMap l = s.lock.lockMap l)
    (hself : ∀ c, (if s.lock.lockMap lid = some c then 1 else 0) +
      (if LockOp.acquire = op ∧ c = clt then 1 else 0) =
        (if LockOp.release = op ∧ c = clt then 1 else 0) +
          if s'.lock.lockMap lid = some c then 1 else 0) : s'.Balanced := by
  intro c l
  have hcount := okCount_of_exec hex hproc hret hargs
  have hb := h c l
  rw [hcount, hcount]
  by_cases hl : l = lid
  · subst hl
    have hc := hself c
    simp only [and_true]
    omega
  · rw [hmap l hl]
    simp only [hl, and_false, if_false]
    exact hb

theorem balanced_next (h : s.Balanced) (hn : Step cfg s a s') : s'.Balanced := by
  cases hn with
  | @rpc a y hown hy =>
      cases a with
      | server i b =>
          cases b with
          | runHandler j ret out =>
              obtain ⟨job, hj, hex⟩ := Sys.execs_of_runHandler hy
              have hbind : job.req.proc = RpcConst.bind := by
                have hj : (s.rpc.servers ()).jobs j = some job := hj
                simpa [ownStep, hj] using hown
              refine h.other hex (fun op clt lid => ?_) rfl
              have hne := op.proc_ne_bind
              simp [isOk, hbind, hne.symm]
          | _ => exact h.same (Sys.execs_of_server (by simp) hy) rfl
      | _ => exact h.same (by rw [Sys.servers_of_next hy (by simp)]) rfl
  | acquire _ hy => exact h.same (congrArg (fun f => (f ()).execs)
      (Sys.servers_of_next hy (by simp))) rfl
  | release _ _ hy => exact h.same (congrArg (fun f => (f ()).execs)
      (Sys.servers_of_next hy (by simp))) rfl
  | unlocked _ hy _ => exact h.same (congrArg (fun f => (f ()).execs)
      (Sys.servers_of_next hy (by simp))) rfl
  | locked _ hy _ _ _ => exact h.same (congrArg (fun f => (f ()).execs)
      (Sys.servers_of_next hy (by simp))) rfl
  | badArgs hy =>
      obtain ⟨job, -, hex⟩ := Sys.execs_of_runHandler hy
      exact h.other hex (fun op clt lid => by simp [isOk, RpcConst.unmarshalArgsFailure,
        LockStatus.toInt]) rfl
  | waits _ hmap => exact h.same rfl hmap
  | @granted _ _ j req clt lid l y _ hreq hargs hfree hmap hy =>
      obtain ⟨job, hj, hex⟩ := Sys.execs_of_runHandler hy
      obtain ⟨hproc, hjob⟩ := handling_inv hreq hj
      refine h.handled hex hproc rfl (hjob ▸ hargs) (fun l' hl' => ?_) fun c => ?_
      · rw [hmap, Function.update_of_ne hl']
      · rw [hmap, hfree, Function.update_self]
        simp [eq_comm]
  | @dropped j w req clt lid l y _ hreq hargs hheld hmap hy =>
      obtain ⟨job, hj, hex⟩ := Sys.execs_of_runHandler hy
      obtain ⟨hproc, hjob⟩ := handling_inv hreq hj
      refine h.handled hex hproc rfl (hjob ▸ hargs) (fun l' hl' => ?_) fun c => ?_
      · rw [hmap, Function.update_of_ne hl']
      · rw [hmap, hheld, Function.update_self]
        simp [eq_comm]
  | refused hy =>
      obtain ⟨job, -, hex⟩ := Sys.execs_of_runHandler hy
      exact h.other hex (fun op clt lid => by simp [isOk, LockStatus.toInt]) rfl

/-! ## The calls of the threads -/

/-- What the records say about the calls of the clients. -/
structure Recorded (cfg : Config K Unit) (s : LockSys K) : Prop where
  calling : ∀ k thread op lid t, s.threads k thread = .calling op lid t →
    ∃ call, (s.rpc.clients k).calls t = some call ∧ call.req.proc = op.proc ∧
      call.req.args = lockArgs (cfg.cltNonce k) lid
  acquired : ∀ c ∈ s.acquired, ∃ call, (s.rpc.clients c.client).calls c.t = some call ∧
    call.req.proc = LockOp.acquire.proc ∧
    call.req.args = lockArgs (cfg.cltNonce c.client) c.lid ∧
    call.ret = some LockStatus.ok.toInt
  /-- An activation of `call1` returns once. -/
  nodup : (s.acquired.map fun c => (c.client, c.t)).Nodup
  released : ∀ k t call, (s.rpc.clients k).calls t = some call →
    call.req.proc = LockOp.release.proc →
    ∃ lid, call.req.args = lockArgs (cfg.cltNonce k) lid ∧ ⟨k, t, lid⟩ ∈ s.released
  /-- An `OK` was followed by a `release`, or the lock is held. -/
  balance : ∀ k lid, s.holding.countP (fun h => h.client = k ∧ h.lid = lid) +
    s.released.countP (fun c => c.client = k ∧ c.lid = lid) =
      s.acquired.countP fun c => c.client = k ∧ c.lid = lid

theorem recorded_init : Recorded cfg (LockSys.init : LockSys K) where
  calling := by simp [LockSys.init]
  acquired := by simp [LockSys.init]
  nodup := by simp [LockSys.init]
  released := by simp [LockSys.init, Sys.init, Client.init]
  balance := by simp [LockSys.init]

/-- A step that forgets no call.  What must be shown is about what it adds. -/
theorem Recorded.step (h : Recorded cfg s)
    (hcalls : ∀ k t call, (s.rpc.clients k).calls t = some call →
      ∃ call', (s'.rpc.clients k).calls t = some call' ∧ call'.req = call.req ∧
        ∀ v, call.ret = some v → call'.ret = some v)
    (hcalling : ∀ k thread op lid t, s'.threads k thread = .calling op lid t →
      s.threads k thread = .calling op lid t ∨
      ∃ call, (s'.rpc.clients k).calls t = some call ∧ call.req.proc = op.proc ∧
        call.req.args = lockArgs (cfg.cltNonce k) lid)
    (hacquired : ∀ c ∈ s'.acquired, c ∈ s.acquired ∨
      ∃ call, (s'.rpc.clients c.client).calls c.t = some call ∧
        call.req.proc = LockOp.acquire.proc ∧
        call.req.args = lockArgs (cfg.cltNonce c.client) c.lid ∧
        call.ret = some LockStatus.ok.toInt)
    (hnodup : (s'.acquired.map fun c => (c.client, c.t)).Nodup)
    (hreleased : ∀ k t call', (s'.rpc.clients k).calls t = some call' →
      call'.req.proc = LockOp.release.proc →
      (∃ call, (s.rpc.clients k).calls t = some call ∧ call'.req = call.req) ∨
      ∃ lid, call'.req.args = lockArgs (cfg.cltNonce k) lid ∧ ⟨k, t, lid⟩ ∈ s'.released)
    (hmem : ∀ c ∈ s.released, c ∈ s'.released)
    (hbalance : ∀ k lid, s'.holding.countP (fun h => h.client = k ∧ h.lid = lid) +
      s'.released.countP (fun c => c.client = k ∧ c.lid = lid) =
        s'.acquired.countP fun c => c.client = k ∧ c.lid = lid) : Recorded cfg s' where
  calling k thread op lid t hth := by
    rcases hcalling k thread op lid t hth with hth | hnew
    · obtain ⟨call, ht, hproc, hargs⟩ := h.calling k thread op lid t hth
      obtain ⟨call', ht', hreq, -⟩ := hcalls k t call ht
      exact ⟨call', ht', by rw [hreq]; exact hproc, by rw [hreq]; exact hargs⟩
    · exact hnew
  acquired c hc := by
    rcases hacquired c hc with hc | hnew
    · obtain ⟨call, ht, hproc, hargs, hret⟩ := h.acquired c hc
      obtain ⟨call', ht', hreq, hret'⟩ := hcalls c.client c.t call ht
      exact ⟨call', ht', by rw [hreq]; exact hproc, by rw [hreq]; exact hargs, hret' _ hret⟩
    · exact hnew
  nodup := hnodup
  released k t call ht hproc := by
    rcases hreleased k t call ht hproc with ⟨call₀, ht₀, hreq⟩ | hnew
    · rw [hreq] at hproc ⊢
      obtain ⟨lid, hargs, hc⟩ := h.released k t call₀ ht₀ hproc
      exact ⟨lid, hargs, hmem _ hc⟩
    · exact hnew
  balance := hbalance

/-- A step that adds nothing to the records. -/
theorem Recorded.keep (h : Recorded cfg s)
    (hcalls : ∀ k t call, (s.rpc.clients k).calls t = some call →
      ∃ call', (s'.rpc.clients k).calls t = some call' ∧ call'.req = call.req ∧
        ∀ v, call.ret = some v → call'.ret = some v)
    (hback : ∀ k t call', (s'.rpc.clients k).calls t = some call' →
      call'.req.proc = LockOp.release.proc →
      ∃ call, (s.rpc.clients k).calls t = some call ∧ call'.req = call.req)
    (hcalling : ∀ k thread op lid t, s'.threads k thread = .calling op lid t →
      s.threads k thread = .calling op lid t ∨
      ∃ call, (s'.rpc.clients k).calls t = some call ∧ call.req.proc = op.proc ∧
        call.req.args = lockArgs (cfg.cltNonce k) lid)
    (hheld : s'.holding = s.holding) (hacq : s'.acquired = s.acquired)
    (hrel : s'.released = s.released) : Recorded cfg s' := by
  refine h.step hcalls hcalling (fun c hc => .inl (hacq ▸ hc)) (hacq ▸ h.nodup)
    (fun k t call ht hproc => .inl (hback k t call ht hproc)) (fun c hc => hrel ▸ hc)
    fun k lid => ?_
  rw [hheld, hacq, hrel]
  exact h.balance k lid

theorem setThread_calling {k l : K} {thread u : Nat} {th : Thread} {op : LockOp} {lid : UInt64}
    {t : Nat} (h : (s.setThread k thread th).threads l u = .calling op lid t) :
    (l = k ∧ u = thread ∧ th = .calling op lid t) ∨ s.threads l u = .calling op lid t := by
  simp only [setThread] at h
  by_cases hl : l = k
  · subst hl
    rw [Function.update_self] at h
    by_cases hu : u = thread
    · subst hu
      rw [Function.update_self] at h
      exact .inl ⟨rfl, rfl, h⟩
    · rw [Function.update_of_ne hu] at h
      exact .inr h
  · rw [Function.update_of_ne hl] at h
    exact .inr h

/-- A step of the RPC system that makes no `release`. -/
theorem calls_back {y : Sys K Unit} {b : SysAct K Unit} (hy : s.rpc.next cfg b = some y)
    (hb : ∀ k t args, b ≠ .call k t LockOp.release.proc args) (k : K) (t : Nat) (call' : Call)
    (ht : (y.clients k).calls t = some call') (hproc : call'.req.proc = LockOp.release.proc) :
    ∃ call, (s.rpc.clients k).calls t = some call ∧ call'.req = call.req := by
  rcases Sys.call_cases hy ht with hold | ⟨proc, args, rfl, rfl, -⟩
  · exact hold
  · exact absurd (by rw [hproc]) (hb k t args)

/-- A step of the server. -/
theorem Recorded.server (h : Recorded cfg s) {b : ServerAct} {y : Sys K Unit}
    (hy : s.rpc.next cfg (.server () b) = some y) (l : LockServer) :
    Recorded cfg { s with rpc := y, lock := l } :=
  h.keep (fun _ _ _ ht => Sys.call_of_next hy ht) (calls_back hy (by simp))
    (fun _ _ _ _ _ hth => .inl hth) rfl rfl rfl

theorem recorded_next (h : Recorded cfg s) (hn : Step cfg s a s') : Recorded cfg s' := by
  cases hn with
  | @rpc b y hown hy =>
      refine h.keep (fun _ _ _ ht => Sys.call_of_next hy ht) (calls_back hy ?_)
        (fun _ _ _ _ _ hth => .inl hth) rfl rfl rfl
      rintro k t args rfl
      simp [ownStep, (LockOp.proc_ne_bind .release)] at hown
  | @acquire k thread t lid y hb hy =>
      obtain ⟨-, call, ht, hproc, hargs⟩ := Sys.call_made hy hb
      refine h.keep (fun _ _ _ ht => Sys.call_of_next hy ht) (calls_back hy ?_)
        (fun l u op lid' t' hth => ?_) rfl rfl rfl
      · simp [LockOp.proc]
      · rcases setThread_calling hth with ⟨rfl, rfl, hnew⟩ | hold
        · cases hnew
          exact .inr ⟨call, ht, hproc, hargs⟩
        · exact .inl hold
  | @release k thread t lid y hheld hb hy =>
      obtain ⟨-, call, ht, hproc, hargs⟩ := Sys.call_made hy hb
      refine h.step (fun _ _ _ ht => Sys.call_of_next hy ht) (fun l u op lid' t' hth => ?_)
        (fun c hc => .inl hc) h.nodup (fun l u call' hu hp => ?_)
        (fun c hc => List.mem_cons_of_mem _ hc) fun l lid' => ?_
      · rcases setThread_calling hth with ⟨rfl, rfl, hnew⟩ | hold
        · cases hnew
          exact .inr ⟨call, ht, hproc, hargs⟩
        · exact .inl hold
      · rcases Sys.call_cases hy hu with hold | ⟨proc, args, he, -, hargs'⟩
        · exact .inl hold
        · cases he
          exact .inr ⟨lid, hargs', List.mem_cons_self⟩
      · -- one lock less is held, and one `release` more was called
        have hperm := (List.perm_cons_erase hheld).countP_eq
          fun h => decide (h.client = l ∧ h.lid = lid')
        have hbal := h.balance l lid'
        simp only [setThread, List.countP_cons] at hperm ⊢
        rw [hperm] at hbal
        omega
  | @unlocked k thread t lid y th op hth hy hnot =>
      refine h.keep (fun _ _ _ ht => Sys.call_of_next hy ht) (calls_back hy (by simp))
        (fun l u op' lid' t' hu => ?_) rfl rfl rfl
      rcases setThread_calling hu with ⟨rfl, rfl, hnew⟩ | hold
      · exact absurd hnew (hnot op' lid' t')
      · exact .inl hold
  | @locked k thread t lid y call r hth hy ht hr hok =>
      obtain ⟨call₀, ht₀, hnone, hdone⟩ := Sys.call_finished hy
      rw [ht] at ht₀
      cases ht₀
      obtain ⟨call₁, ht₁, hproc, hargs⟩ := h.calling k thread .acquire lid t hth
      rw [ht] at ht₁
      cases ht₁
      have hres : call.result = LockStatus.ok.toInt := by
        rw [Call.result, hr]
        exact hok
      refine h.step (fun _ _ _ ht => Sys.call_of_next hy ht) (fun l u op' lid' t' hu => ?_)
        (fun c hc => ?_) ?_ (fun l u call' hu hp => .inl (calls_back hy (by simp) l u call' hu hp))
        (fun c hc => hc) fun l lid' => ?_
      · rcases setThread_calling hu with ⟨rfl, rfl, hnew⟩ | hold
        · cases hnew
        · exact .inl hold
      · rcases List.mem_cons.mp hc with rfl | hc
        · exact .inr ⟨_, hdone, hproc, hargs, by rw [hres]⟩
        · exact .inl hc
      · rw [List.map_cons, List.nodup_cons]
        refine ⟨fun hmem => ?_, h.nodup⟩
        obtain ⟨c, hc, he⟩ := List.mem_map.mp hmem
        cases he
        obtain ⟨call₂, ht₂, -, -, hret⟩ := h.acquired c hc
        rw [ht] at ht₂
        cases ht₂
        rw [hnone] at hret
        cases hret
      · have hbal := h.balance l lid'
        simp only [setThread, List.countP_cons] at hbal ⊢
        omega
  | badArgs hy => exact h.server hy s.lock
  | waits => exact ⟨h.calling, h.acquired, h.nodup, h.released, h.balance⟩
  | granted _ _ _ _ _ hy => exact h.server hy _
  | dropped _ _ _ _ _ hy => exact h.server hy _
  | refused hy => exact h.server hy s.lock

/-! ## Counting -/

/-- The xid of a recorded call. -/
def xidOf (s : LockSys K) (c : LockCall K) : Option UInt32 :=
  ((s.rpc.clients c.client).calls c.t).map fun call => call.req.xid

/-- Different calls that returned `OK` come from different grants. -/
theorem acquired_le (hl : Sys.Linked cfg s.rpc) (ho : ∀ i, (s.rpc.servers i).Once)
    (h : Recorded cfg s) (k : K) (lid : UInt64) :
    s.acquired.countP (fun c => c.client = k ∧ c.lid = lid) ≤
      s.okCount .acquire (cfg.cltNonce k).toInt32 lid := by
  refine List.countP_le_countP_of_map s.xidOf (fun e => some e.req.xid) ?_ fun c hc hp => ?_
  · refine List.Nodup.map_on (fun c hc d hd hx => ?_) (h.nodup.of_map.filter _)
    obtain ⟨hc, hck⟩ := List.mem_filter.mp hc
    obtain ⟨hd, hdk⟩ := List.mem_filter.mp hd
    obtain ⟨call, ht, -⟩ := h.acquired c hc
    obtain ⟨call', ht', -⟩ := h.acquired d hd
    have hclient : c.client = d.client :=
      (of_decide_eq_true hck).1.trans (of_decide_eq_true hdk).1.symm
    rw [xidOf, xidOf, ht, ht'] at hx
    have htt := (hl.traffic.clients c.client).xid_inj c.t d.t call call' ht (hclient ▸ ht')
      (Option.some.inj hx)
    exact List.inj_on_of_nodup_map h.nodup hc hd (by rw [hclient, htt])
  · obtain ⟨rfl, rfl⟩ := of_decide_eq_true hp
    obtain ⟨call, ht, hproc, hargs, hret⟩ := h.acquired c hc
    obtain ⟨i, e, r, he, hreq, her, -⟩ := hl.executed ho ht hret le_rfl
    refine ⟨e, he, ?_, ?_⟩
    · rw [isOk, hreq, hproc, hargs, her, readLockArgs_lockArgs]
      exact decide_eq_true ⟨rfl, rfl, rfl⟩
    · rw [xidOf, ht, hreq, Option.map_some]

theorem toInt32_injective : Function.Injective UInt32.toInt32 := by
  intro a b h
  rw [← UInt32.toUInt32_toInt32 a, h, UInt32.toUInt32_toInt32]

/-- An executed `release` was called by a thread of its client. -/
theorem released_of_exec (hl : Sys.Linked cfg s.rpc) (ho : (s.rpc.servers ()).Once)
    (h : Recorded cfg s) {k : K} {lid : UInt64} {e : Exec}
    (he : e ∈ (s.rpc.servers ()).execs) (hok : isOk .release (cfg.cltNonce k).toInt32 lid e = true) :
    e.req.cltNonce = cfg.cltNonce k ∧ ∃ t, ⟨k, t, lid⟩ ∈ s.released ∧
      s.xidOf ⟨k, t, lid⟩ = some e.req.xid := by
  obtain ⟨hproc, -, hargs⟩ := of_decide_eq_true hok
  obtain ⟨job, hj, hreq, -, -⟩ := ho.exec_job e he
  have hmade := (hl.traffic.servers ()).jobs _ job hj
  have hnonce := hl.traffic.made_nonce hmade
  obtain ⟨t, call, ht, hcall⟩ := hmade
  obtain ⟨lid', hlid, hc⟩ := h.released _ t call ht (by rw [hcall, hreq]; exact hproc)
  rw [← hreq, ← hcall, hlid, readLockArgs_lockArgs] at hargs
  obtain ⟨hclt, rfl⟩ := Prod.mk.inj (Option.some.inj hargs)
  have hk : cfg.owner job.conn = k := cfg.cltNonce_injective (toInt32_injective hclt)
  subst hk
  exact ⟨by rw [← hreq]; exact hnonce, t, hc, by rw [xidOf, ht, Option.map_some, hcall, hreq]⟩

/-- A lock is not dropped more often than its threads called `release`. -/
theorem dropped_le (hl : Sys.Linked cfg s.rpc) (ho : (s.rpc.servers ()).Once)
    (h : Recorded cfg s) (k : K) (lid : UInt64) :
    s.okCount .release (cfg.cltNonce k).toInt32 lid ≤
      s.released.countP fun c => c.client = k ∧ c.lid = lid := by
  refine List.countP_le_countP_of_map (fun e => some e.req.xid) s.xidOf ?_ fun e he hok => ?_
  · refine List.Nodup.map_on (fun e he f hf hx => ?_) (ho.exec_nodup.of_map.filter _)
    obtain ⟨he, hoke⟩ := List.mem_filter.mp he
    obtain ⟨hf, hokf⟩ := List.mem_filter.mp hf
    obtain ⟨hen, -⟩ := released_of_exec hl ho h he hoke
    obtain ⟨hfn, -⟩ := released_of_exec hl ho h hf hokf
    obtain ⟨p, hp⟩ := List.getElem?_of_mem he
    obtain ⟨q, hq⟩ := List.getElem?_of_mem hf
    have hpq := ho.exec_index_unique hp hq (by rw [hen]; exact cfg.cltNonce_ne_zero k)
      (hen.trans hfn.symm) (Option.some.inj hx)
    rw [hpq, hq] at hp
    exact (Option.some.inj hp).symm
  · obtain ⟨-, t, hc, hx⟩ := released_of_exec hl ho h he hok
    exact ⟨_, hc, decide_eq_true ⟨rfl, rfl⟩, hx⟩

/-- What is known of a state reached without overtaking. -/
structure Locked (cfg : Config K Unit) (s : LockSys K) : Prop where
  linked : Sys.Linked cfg s.rpc
  once : ∀ i, (s.rpc.servers i).Once
  balanced : s.Balanced
  recorded : Recorded cfg s

theorem locked_of_reachedVia
    (h : (lockSystem cfg).ReachedVia (fun s a => s.FreshXids a ∧ s.NoOvertake a) s) :
    Locked cfg s where
  linked := Sys.linked_of_reachedVia (reachedVia_rpc h)
  once i := (Sys.sound_server ((reachedVia_rpc h).mono fun _ _ hg => hg.2) i).once
  balanced := h.invariant balanced_init fun _ _ _ hb _ hn => balanced_next hb (step_of_next hn)
  recorded := h.invariant recorded_init fun _ _ _ hr _ hn => recorded_next hr (step_of_next hn)

/-- The threads of a client hold a lock at most once, and only while the table
names the client. -/
theorem Locked.holding_le (h : Locked cfg s) (k : K) (lid : UInt64) :
    s.holding.countP (fun h => h.client = k ∧ h.lid = lid) ≤
      if s.lock.lockMap lid = some (cfg.cltNonce k).toInt32 then 1 else 0 := by
  have hgrants := acquired_le h.linked h.once h.recorded k lid
  have hdrops := dropped_le h.linked (h.once ()) h.recorded k lid
  have htable := h.balanced (cfg.cltNonce k).toInt32 lid
  have hthreads := h.recorded.balance k lid
  omega

/-- The table names the client whose thread holds the lock. -/
theorem Locked.lockMap_of_mem (h : Locked cfg s) {p : Holding K} (hp : p ∈ s.holding) :
    s.lock.lockMap p.lid = some (cfg.cltNonce p.client).toInt32 := by
  have hle := h.holding_le p.client p.lid
  have hpos : 0 < s.holding.countP fun h => h.client = p.client ∧ h.lid = p.lid :=
    List.countP_pos_iff.mpr ⟨p, hp, decide_eq_true ⟨rfl, rfl⟩⟩
  by_contra hne
  rw [if_neg hne] at hle
  omega

/-! ## The guarantee -/

/-- At most one thread, over all clients, is between the `OK` of an `acquire` and
its next `release` of the lock. -/
def Exclusive (s : LockSys K) (lid : UInt64) : Prop :=
  s.holding.countP (fun h => h.lid = lid) ≤ 1

/-- In runs where no xid is reused and no check overtakes the sending of a saved
reply, locks exclude. -/
theorem mutual_exclusion
    (h : (lockSystem cfg).ReachedVia (fun s a => s.FreshXids a ∧ s.NoOvertake a) s)
    (lid : UInt64) : s.Exclusive lid := by
  have hs := locked_of_reachedVia h
  unfold Exclusive
  rcases Nat.eq_zero_or_pos (s.holding.countP fun h => h.lid = lid) with hnone | hpos
  · omega
  · -- all that hold the lock are threads of the client in the table
    obtain ⟨p, hp, hlid⟩ := List.countP_pos_iff.mp hpos
    have hlid : p.lid = lid := of_decide_eq_true hlid
    have hsame : s.holding.countP (fun h => h.lid = lid) =
        s.holding.countP fun h => h.client = p.client ∧ h.lid = lid := by
      refine List.countP_congr fun q hq => ?_
      simp only [decide_eq_true_eq]
      refine ⟨fun hql => ⟨?_, hql⟩, fun hql => hql.2⟩
      have hmap := hs.lockMap_of_mem hq
      rw [hql, ← hlid, hs.lockMap_of_mem hp] at hmap
      exact cfg.cltNonce_injective (toInt32_injective (Option.some.inj hmap).symm)
    have hle := hs.holding_le p.client lid
    rw [hsame]
    split at hle <;> omega

end

/-! ## Two clients -/

/-- A request of a thread to the instance with nonce 9. -/
def lockRequest (op : LockOp) (cltNonce xid xidRep : UInt32) (lid : UInt64) : Request :=
  ⟨xid, op.proc, cltNonce, 9, xidRep, lockArgs cltNonce lid⟩

/-- Steps of the RPC layer. -/
def rpcSteps (as : List (SysAct Bool Unit)) : List (LockSysAct Bool) := as.map .rpc

/-- Call `t` of client `k` passes the check as job `j`. -/
def checked (k : Bool) (t : Nat) (c : ConnId) (j : Nat) (req : Request) (p : Ptr) :
    List (LockSysAct Bool) :=
  rpcSteps (Sys.arrives k t c () j req p ++ [SysAct.server () (.check j)])

/-- The reply of job `j` is saved. -/
def saved (j : Nat) : List (LockSysAct Bool) :=
  rpcSteps [.server () (.packReplyHeader j), .server () (.addReply j)]

/-- The stored `OK` of job `j` reaches thread 0 of client `k`. -/
def answered (k : Bool) (c : ConnId) (j : Nat) (req : Request) : List (LockSysAct Bool) :=
  rpcSteps [.server () (.pickConn j false), .server () (.send j),
    .gotPdu k () ⟨c, req, ⟨req.xid, 0, resultBytes 0⟩⟩] ++ [.returns k 0]

/-- Thread 0 of client `k` gets the lock `lid`, through job `j`. -/
def locks (k : Bool) (t : Nat) (c : ConnId) (j : Nat) (lid : UInt64) (req : Request) (p : Ptr) :
    List (LockSysAct Bool) :=
  [.acquire k 0 t lid] ++ checked k t c j req p ++ [.enter j] ++
    saved j ++ answered k c j req

/-- It releases the lock. -/
def unlocks (k : Bool) (t : Nat) (c : ConnId) (j : Nat) (lid : UInt64) (req : Request) (p : Ptr) :
    List (LockSysAct Bool) :=
  [.release k 0 t lid] ++ checked k t c j req p ++ [.drop j none] ++
    saved j ++ answered k c j req

/-- Both clients bind to the server. -/
def bothBind : List (LockSysAct Bool) :=
  rpcSteps (Sys.binds Sys.twoClients false 3 () 0 0 ++ Sys.binds Sys.twoClients true 4 () 1 1)

theorem mutual_exclusion_held : ∃ s : LockSys Bool,
    (lockSystem Sys.twoClients).ReachedVia (fun s a => s.FreshXids a ∧ s.NoOvertake a) s ∧
    s.holding = [⟨false, 0, 1⟩] ∧ s.Exclusive 1 := by
  obtain ⟨s, hs, hp⟩ := @Machine.exists_reachedVia_of_run _ _ (lockSystem Sys.twoClients)
    (fun s a => s.FreshXids a ∧ s.FreesNothing a = true) _
    (fun s => decide (s.holding = [⟨false, 0, 1⟩]))
    (bothBind ++ locks false 1 3 2 1 (lockRequest .acquire 7 2 1 1) 2) (by decide)
  have hvia := reachedVia_noOvertake hs
  exact ⟨s, hvia, of_decide_eq_true hp, mutual_exclusion hvia 1⟩

/-- Client `false` locks and unlocks 1.  A copy of its first request, job 3, finds
the saved reply in block 2 and stalls.  The check of its `acquire` of lock 2, job
5, frees the block.  Client `true` locks 2 with job 8, whose reply gets the block.
Job 3 sends it, and the call of client `false`, which has the same xid, takes it
in. -/
def crossedLocks : List (LockSysAct Bool) :=
  bothBind ++
  [.acquire false 0 1 1] ++ checked false 1 3 2 (lockRequest .acquire 7 2 1 1) 2 ++ [.enter 2] ++
  saved 2 ++ checked false 1 3 3 (lockRequest .acquire 7 2 1 1) 3 ++
  answered false 3 2 (lockRequest .acquire 7 2 1 1) ++
  unlocks false 2 3 4 1 (lockRequest .release 7 3 2 1) 4 ++
  [.acquire false 0 3 2] ++ checked false 3 3 5 (lockRequest .acquire 7 4 3 2) 5 ++
  locks true 1 4 6 3 (lockRequest .acquire 8 2 1 3) 6 ++
  unlocks true 2 4 7 3 (lockRequest .release 8 3 2 3) 7 ++
  locks true 3 4 8 2 (lockRequest .acquire 8 4 3 2) 2 ++
  rpcSteps [.server () (.send 3),
    .gotPdu false () ⟨3, lockRequest .acquire 7 2 1 1, ⟨4, 0, resultBytes 0⟩⟩] ++
  [.returns false 0]

/-- Threads of two clients hold the same lock. -/
theorem both_hold : ∃ s : LockSys Bool,
    (lockSystem Sys.twoClients).ReachedVia FreshXids s ∧
    s.holding = [⟨false, 0, 2⟩, ⟨true, 0, 2⟩] ∧ ¬ s.Exclusive 2 := by
  obtain ⟨s, hs, hp⟩ := @Machine.exists_reachedVia_of_run _ _ (lockSystem Sys.twoClients)
    FreshXids _ (fun s => decide (s.holding = [⟨false, 0, 2⟩, ⟨true, 0, 2⟩])) crossedLocks
    (by decide)
  have hheld := of_decide_eq_true hp
  exact ⟨s, hs, hheld, by unfold Exclusive; rw [hheld]; decide⟩

end LockSys

end RpcLock
