import RpcLock.Rpcs.ConnServer

/-!
# The references to a connection

A connection is held by `tcpsconn`, by the jobs in the queue, by the activations
under way, and by the entries of `conns_`.  `refno_` is the number of these
holders and of the activations that returned without giving their reference
back, which are those that answered a request for an old server instance.
-/

namespace RpcLock.Rpcs

/-! ## Counting activations and entries -/

/-- The activations `r` whose connection is `c`. -/
def jobsOn (jobs : Nat → Option Job) (r : List Nat) (c : ConnId) : Nat :=
  r.countP fun j => (jobs j).any (·.conn = c)

/-- The entries with the keys `ks` that point to `c`. -/
def entriesOf (conns : UInt32 → Option ConnId) (ks : List UInt32) (c : ConnId) : Nat :=
  ks.countP fun n => conns n = some c

section

variable {jobs : Nat → Option Job} {r : List Nat} {j : Nat} {job job' : Job}
  {conns : UInt32 → Option ConnId} {ks : List UInt32} {n : UInt32} {c₀ c₁ : ConnId}

/-- An activation changes its connection. -/
theorem jobsOn_update (hr : r.Nodup) (hj : j ∈ r) (hjob : jobs j = some job) (job' : Job)
    (c : ConnId) :
    jobsOn (Function.update jobs j (some job')) r c + (if job.conn = c then 1 else 0) =
      jobsOn jobs r c + if job'.conn = c then 1 else 0 := by
  have h := tableCount_update hr hj hjob job' fun j => decide (j.conn = c)
  simp only [decide_eq_true_eq] at h
  exact h

/-- An activation keeps its connection. -/
theorem jobsOn_update_same (hjob : jobs j = some job) (hconn : job'.conn = job.conn) (c : ConnId) :
    jobsOn (Function.update jobs j (some job')) r c = jobsOn jobs r c := by
  refine List.countP_congr fun k _ => ?_
  by_cases hk : k = j
  · subst hk
    simp [hjob, hconn]
  · rw [Function.update_of_ne hk]

/-- An activation returns. -/
theorem jobsOn_erase (hr : r.Nodup) (hj : j ∈ r) (hjob : jobs j = some job) (o : Option Job)
    (c : ConnId) :
    jobsOn (Function.update jobs j o) (r.erase j) c + (if job.conn = c then 1 else 0) =
      jobsOn jobs r c := by
  have h := tableCount_erase hr hj hjob o fun j => decide (j.conn = c)
  simp only [decide_eq_true_eq] at h
  exact h

/-- An activation begins. -/
theorem jobsOn_cons (hj : j ∉ r) (jobs : Nat → Option Job) (job : Job) (c : ConnId) :
    jobsOn (Function.update jobs j (some job)) (j :: r) c =
      jobsOn jobs r c + if job.conn = c then 1 else 0 := by
  have h := tableCount_cons (f := jobs) hj job fun j => decide (j.conn = c)
  simp only [decide_eq_true_eq] at h
  exact h

theorem entriesOf_eq (conns : UInt32 → Option ConnId) (ks : List UInt32) (c : ConnId) :
    entriesOf conns ks c = tableCount conns ks fun d => decide (d = c) := by
  refine List.countP_congr fun n _ => ?_
  cases conns n with
  | none => simp
  | some d => simp

/-- A client gets an entry. -/
theorem entriesOf_insert (hn : n ∉ ks) (conns : UInt32 → Option ConnId) (c₁ c : ConnId) :
    entriesOf (Function.update conns n (some c₁)) (n :: ks) c =
      entriesOf conns ks c + if c₁ = c then 1 else 0 := by
  rw [entriesOf_eq, entriesOf_eq, tableCount_cons hn]
  simp only [decide_eq_true_eq]

/-- The entry of a client is replaced. -/
theorem entriesOf_update (hks : ks.Nodup) (hn : n ∈ ks) (hc : conns n = some c₀) (c₁ c : ConnId) :
    entriesOf (Function.update conns n (some c₁)) ks c + (if c₀ = c then 1 else 0) =
      entriesOf conns ks c + if c₁ = c then 1 else 0 := by
  have h := tableCount_update hks hn hc c₁ fun d => decide (d = c)
  simp only [decide_eq_true_eq] at h
  rw [entriesOf_eq, entriesOf_eq]
  exact h

/-- A null pointer is nobody's. -/
theorem entriesOf_null (hc : conns n = none) (c : ConnId) :
    entriesOf conns (n :: ks) c = entriesOf conns ks c := by
  unfold entriesOf
  rw [List.countP_cons]
  simp [hc]

theorem entriesOf_pos (hn : n ∈ ks) (hc : conns n = some c₀) : 0 < entriesOf conns ks c₀ := by
  rw [entriesOf_eq]
  exact tableCount_pos hn hc (decide_eq_true rfl)

theorem jobsOn_pos (hj : j ∈ r) (hjob : jobs j = some job) : 0 < jobsOn jobs r job.conn :=
  tableCount_pos hj hjob (decide_eq_true rfl)

end

namespace ConnServer

/-- The jobs in the queue for `c`. -/
def queued (s : ConnServer) (c : ConnId) : Nat := s.jobq.countP fun d => d.conn = c

/-- The jobs, queued or running, that hold `c` and the entries of `conns_` that
point to it. -/
def holders (s : ConnServer) (c : ConnId) : Nat :=
  s.queued c + jobsOn s.server.jobs s.running c + entriesOf s.server.conns s.keys c

/-- All references to `c`, those of `tcpsconn` and those never given back
included. -/
def held (s : ConnServer) (c : ConnId) : Nat :=
  s.accepted.count c + s.holders c + s.oldServed.count c

/-- The lists of a live process are those of the server instance. -/
structure Tidy (s : ConnServer) : Prop where
  running_nodup : s.running.Nodup
  mem_running : ∀ j, j ∈ s.running ↔ ∃ job, s.server.jobs j = some job ∧ job.phase ≠ .finished
  keys_nodup : s.keys.Nodup
  mem_keys : ∀ n, n ∈ s.keys ↔ (s.server.conns n).isSome

/-- The counts are exact. -/
structure Inv (s : ConnServer) : Prop where
  refs : ∀ c, s.refno c = s.held c
  nodup : s.accepted.Nodup
  tidy : s.server.aborted = false → s.Tidy
  /-- Nobody else holds the connection that is about to be collected. -/
  collecting : ∀ c, s.collecting = some c →
    c ∈ s.accepted ∧ s.dead c = true ∧ s.held c = 1

theorem Inv.init : init.Inv where
  refs _ := rfl
  nodup := .nil
  tidy _ := {
    running_nodup := .nil
    mem_running := fun j => by simp [ConnServer.init, Server.init]
    keys_nodup := .nil
    mem_keys := fun n => by simp [ConnServer.init, Server.init] }
  collecting c h := by cases h

variable {cfg : ServerConfig} {s s' : ConnServer} {e : Effect} {j : Nat} {job : Job} {t : Server}
  {a : ConnAct}

theorem Tidy.mem_running_of (ht : s.Tidy) (hj : s.server.jobs j = some job)
    (hp : job.phase ≠ .finished) : j ∈ s.running := (ht.mem_running j).mpr ⟨job, hj, hp⟩

theorem Tidy.not_mem_running (ht : s.Tidy) (hj : s.server.jobs j = none) : j ∉ s.running := by
  rw [ht.mem_running j]
  rintro ⟨job, hj', -⟩
  rw [hj] at hj'
  cases hj'

theorem Tidy.mem_keys_of (ht : s.Tidy) {n : UInt32} {c : ConnId}
    (hc : s.server.conns n = some c) : n ∈ s.keys := (ht.mem_keys n).mpr (by rw [hc]; rfl)

theorem Tidy.not_mem_keys (ht : s.Tidy) {n : UInt32} (hc : s.server.conns n = none) :
    n ∉ s.keys := by
  intro hn
  have := (ht.mem_keys n).mp hn
  rw [hc] at this
  cases this

/-- The lists after a step that touches neither them nor the server instance. -/
theorem Tidy.of_eq (ht : s.Tidy) (hserver : s'.server = s.server)
    (hrunning : s'.running = s.running) (hkeys : s'.keys = s.keys) : s'.Tidy where
  running_nodup := hrunning ▸ ht.running_nodup
  mem_running := by
    rw [hrunning, hserver]
    exact ht.mem_running
  keys_nodup := hkeys ▸ ht.keys_nodup
  mem_keys := by
    rw [hkeys, hserver]
    exact ht.mem_keys

/-- The activations after one of them took a step and did not return. -/
theorem Tidy.mem_running_update (ht : s.Tidy) (hj : s.server.jobs j = some job)
    (hp : job.phase ≠ .finished) {job' : Job}
    (hjobs : t.jobs = Function.update s.server.jobs j (some job')) (hp' : job'.phase ≠ .finished)
    (k : Nat) : k ∈ s.running ↔ ∃ job, t.jobs k = some job ∧ job.phase ≠ .finished := by
  rw [ht.mem_running k, hjobs]
  by_cases hkj : k = j
  · subst hkj
    simp [hj, hp, hp']
  · rw [Function.update_of_ne hkj]

/-- An effect that keeps the invariant. -/
structure EffectOk (s : ConnServer) (e : Effect) : Prop where
  backed : RefOp.Backed s.held e.2.held e.1
  nodup : e.2.accepted.Nodup
  tidy : e.2.server.aborted = false → e.2.Tidy
  collecting : ∀ c, e.2.collecting = some c →
    c ∈ e.2.accepted ∧ e.2.dead c = true ∧ e.2.held c = 1

/-- An effect on connections that are held or alive leaves the one that is being
collected alone. -/
theorem Inv.effectOk (hinv : s.Inv) (hbacked : RefOp.Backed s.held e.2.held e.1)
    (htouched : ∀ op ∈ e.1, 0 < s.holders op.target ∨ s.dead op.target = false)
    (hnodup : e.2.accepted.Nodup) (hacc : ∀ c ∈ s.accepted, c ∈ e.2.accepted)
    (hdead : ∀ c, s.dead c = true → e.2.dead c = true) (hcoll : e.2.collecting = s.collecting)
    (htidy : e.2.server.aborted = false → e.2.Tidy) : EffectOk s e where
  backed := hbacked
  nodup := hnodup
  tidy := htidy
  collecting c hc := by
    obtain ⟨hin, hd, hone⟩ := hinv.collecting c (hcoll ▸ hc)
    have hcount : 0 < s.accepted.count c := List.count_pos_iff.mpr hin
    refine ⟨hacc c hin, hdead c hd, ?_⟩
    rw [hbacked.untouched (i := c), hone]
    rintro op hop rfl
    rcases htouched op hop with hpos | halive
    · unfold held at hone
      omega
    · rw [hd] at halive
      cases halive

/-- The same for an effect of an activation. -/
theorem Inv.activationOk (hinv : s.Inv) {ops : List (RefOp ConnId)} {running : List Nat}
    {keys : List UInt32} {oldServed : List ConnId}
    (hbacked : RefOp.Backed s.held
      { s with server := t, running := running, keys := keys, oldServed := oldServed }.held ops)
    (htouched : ∀ op ∈ ops, 0 < s.holders op.target)
    (htidy : t.aborted = false →
      { s with server := t, running := running, keys := keys, oldServed := oldServed }.Tidy) :
    EffectOk s
      (ops, { s with server := t, running := running, keys := keys, oldServed := oldServed }) :=
  hinv.effectOk hbacked (fun op hop => .inl (htouched op hop)) hinv.nodup (fun _ h => h)
    (fun _ h => h) rfl htidy

end ConnServer

end RpcLock.Rpcs
