import RpcLock.Library.RefCount
import RpcLock.Marshall.Buffer
import RpcLock.Rpcs.DispatchSteps

/-!
# A server instance and its connections

`ConnServer` is a server instance with what its connections need: the counts
`refno_`, the connections `tcpsconn` keeps, the queue of the dispatch pool, and
the keys of the map `conns_`, whose `operator[]` inserts a null pointer for a new
one.  The requests are the bytes `got_pdu` is called with.

A step is given by its operations on the counts, in the order of the source, and
the state it leaves otherwise.  `reachable_` is true throughout.  A connection
dies at any time, and `read_cb` passes nothing on for a dead one.
-/

namespace RpcLock.Rpcs

/-- `rpcs::djob_t`. -/
structure Djob where
  conn : ConnId
  buf : List UInt8
deriving DecidableEq, Repr

/-- The header as `dispatch` reads it, if `req.ok()`. -/
def readRequest (b : List UInt8) : Option Request :=
  let (h, u) := (Unmarshall.ofBuffer b b.length).unpackReqHeader
  if u.ok then
    some ⟨h.xid.toUInt32, h.proc.toUInt32, h.cltNonce, h.srvNonce, h.xidRep.toUInt32,
      b.drop rpcHeaderSz⟩
  else none

/-- Whether the client is sending to an old instance of the server. -/
def ServerConfig.ForOldServer (cfg : ServerConfig) (req : Request) : Prop :=
  req.srvNonce ≠ 0 ∧ req.srvNonce ≠ cfg.nonce

instance (cfg : ServerConfig) (req : Request) : Decidable (cfg.ForOldServer req) :=
  inferInstanceAs (Decidable (_ ∧ _))

/-- The capacity of the queue of `dispatchpool_`, a `ThrPool(6, false)`. -/
def dispatchQueueMax : Nat := 100 * 6

/-- A server instance with its connections. -/
structure ConnServer where
  server : Server
  /-- The keys of `conns_`.  A key without a connection has a null pointer. -/
  keys : List UInt32
  /-- `refno_` -/
  refno : ConnId → Nat
  /-- `dead_` -/
  dead : ConnId → Bool
  /-- The connections `tcpsconn` keeps. -/
  accepted : List ConnId
  /-- The one `process_accept` is about to collect. -/
  collecting : Option ConnId
  jobq : List Djob
  /-- The activations of `dispatch` under way. -/
  running : List Nat
  /-- What `got_pdu` was called with so far. -/
  arrived : List Djob
  /-- The connections of the activations that returned for an old server
  instance. -/
  oldServed : List ConnId

inductive ConnAct where
  /-- `process_accept` makes a connection. -/
  | accept (c : ConnId)
  | die (c : ConnId)
  /-- `got_pdu(c, b, sz)`. -/
  | gotPdu (c : ConnId) (b : List UInt8)
  /-- A thread enters `dispatch` with the first job, up to the handler lookup. -/
  | dispatch (j : Nat) (p : Ptr)
  | createWindow (j : Nat)
  | saveConn (j : Nat)
  | check (j : Nat)
  | runHandler (j : Nat) (ret : Int) (out : List UInt8)
  | packReplyHeader (j : Nat)
  | addReply (j : Nat)
  | pickConn (j : Nat)
  /-- The send, and the return. -/
  | send (j : Nat)
  /-- `process_accept` finds a dead connection with `ref() == 1`. -/
  | collect (c : ConnId)
  /-- It gives up its reference to it. -/
  | erase
deriving DecidableEq, Repr

namespace ConnServer

/-- `rpcs::rpcs`. -/
def init : ConnServer where
  server := .init
  keys := []
  refno _ := 0
  dead _ := false
  accepted := []
  collecting := none
  jobq := []
  running := []
  arrived := []
  oldServed := []

/-- The keys after `conns_[n]`. -/
def insertKey (s : ConnServer) (n : UInt32) : List UInt32 :=
  if n ∈ s.keys then s.keys else n :: s.keys

/-- What a step does to the counts, and the state it leaves otherwise. -/
abbrev Effect : Type := List (RefOp ConnId) × ConnServer

/-- Continue the activation `j` with the step `a`. -/
def activation (cfg : ServerConfig) (s : ConnServer) (j : Nat) (a : ServerAct)
    (f : Job → Server → Effect) : Option Effect :=
  match s.server.jobs j with
  | none => none
  | some job => (s.server.next cfg a).map (f job)

/-- A PDU arrived.  `succ` is whether the queue has room for the job. -/
def gotPdu (s : ConnServer) (c : ConnId) (b : List UInt8) : Effect :=
  let s := { s with arrived := s.arrived ++ [⟨c, b⟩] }
  if s.jobq.length < dispatchQueueMax then ([.incref c], { s with jobq := s.jobq ++ [⟨c, b⟩] })
  else ([.incref c, .decref c], s)

/-- The entry of `dispatch` with the job `d`, which is off the queue. -/
def dispatch (cfg : ServerConfig) (s : ConnServer) (d : Djob) (j : Nat) (p : Ptr) :
    Option Effect :=
  match readRequest d.buf with
  -- unmarshall header failed
  | none => some ([.decref d.conn], s)
  | some req => (s.server.next cfg (.receive j d.conn req p)).map fun t =>
      -- unknown proc
      if t.aborted then ([.decref d.conn], { s with server := t })
      else ([], { s with server := t, running := j :: s.running })

/-- Save the latest good connection to the client. -/
def saveConn (cfg : ServerConfig) (s : ConnServer) (job : Job) (t : Server) : Effect :=
  let n := job.req.cltNonce
  match s.server.conns n with
  | none => ([.incref job.conn], { s with server := t, keys := s.insertKey n })
  | some c =>
      if cfg.createTime c < cfg.createTime job.conn then
        ([.decref c, .incref job.conn], { s with server := t })
      else ([], { s with server := t })

/-- The switch on `stat`.  On `INPROGRESS` the activation returns. -/
def check (s : ConnServer) (j : Nat) (job : Job) (t : Server) : Effect :=
  if (t.jobs j).any (·.phase = .finished) then
    ([.decref job.conn], { s with server := t, running := s.running.erase j })
  else ([], { s with server := t })

/-- Get the latest connection to the client.  A null pointer ends the process in
`c->incref()`. -/
def pickConn (s : ConnServer) (j : Nat) (job : Job) (t : Server) : Effect :=
  if s.dead job.conn then
    let n := job.req.cltNonce
    let keys := s.insertKey n
    match s.server.conns n with
    | none =>
        ([.decref job.conn], { s with server := t, keys := keys, running := s.running.erase j })
    | some c =>
        if c = job.conn then ([], { s with server := t, keys := keys })
        else ([.decref job.conn, .incref c], { s with server := t, keys := keys })
  else ([], { s with server := t })

/-- The end of the activation.  The path for an old server instance returns
before the `c->decref()` of the others. -/
def finish (cfg : ServerConfig) (s : ConnServer) (j : Nat) (job : Job) (t : Server) : Effect :=
  let s := { s with server := t, running := s.running.erase j }
  if cfg.ForOldServer job.req then ([], { s with oldServed := job.conn :: s.oldServed })
  else ([.decref job.conn], s)

def effect (cfg : ServerConfig) (s : ConnServer) : ConnAct → Option Effect
  | .accept c =>
      if s.refno c = 0 ∧ s.dead c = false ∧ c ∉ s.accepted then
        some ([.incref c], { s with accepted := c :: s.accepted })
      else none
  | .die c =>
      if c ∈ s.accepted then some ([], { s with dead := Function.update s.dead c true }) else none
  | .gotPdu c b => if c ∈ s.accepted ∧ s.dead c = false then some (s.gotPdu c b) else none
  | .dispatch j p =>
      match s.jobq with
      | [] => none
      | d :: rest => dispatch cfg { s with jobq := rest } d j p
  | .createWindow j => s.activation cfg j (.createWindow j) fun _ t => ([], { s with server := t })
  | .saveConn j => s.activation cfg j (.saveConn j) (s.saveConn cfg)
  | .check j => s.activation cfg j (.check j) (s.check j)
  | .runHandler j ret out =>
      s.activation cfg j (.runHandler j ret out) fun _ t => ([], { s with server := t })
  | .packReplyHeader j =>
      s.activation cfg j (.packReplyHeader j) fun _ t => ([], { s with server := t })
  | .addReply j => s.activation cfg j (.addReply j) fun _ t => ([], { s with server := t })
  | .pickConn j =>
      match s.server.jobs j with
      | none => none
      | some job => s.activation cfg j (.pickConn j (s.dead job.conn)) (s.pickConn j)
  | .send j => s.activation cfg j (.send j) (s.finish cfg j)
  | .collect c =>
      if s.collecting = none ∧ c ∈ s.accepted ∧ s.dead c = true ∧ s.refno c = 1 then
        some ([], { s with collecting := some c })
      else none
  | .erase =>
      match s.collecting with
      | none => none
      | some c =>
          some ([.decref c], { s with accepted := s.accepted.erase c, collecting := none })

/-- One step.  A count below zero fails a `VERIFY`. -/
def next (cfg : ServerConfig) (s : ConnServer) (a : ConnAct) : Option ConnServer :=
  if s.server.aborted then none
  else (s.effect cfg a).map fun e =>
    match RefOp.applyAll s.refno e.1 with
    | none => { s with server := s.server.abort }
    | some r => { e.2 with refno := r }

end ConnServer

/-- A server instance under arbitrary connections and bytes. -/
def connServerMachine (cfg : ServerConfig) : Machine ConnServer ConnAct where
  init := .init
  next := ConnServer.next cfg

namespace ConnServer

/-! ## What a step changes -/

variable {cfg : ServerConfig} {s : ConnServer} {e : Effect} {j : Nat}

theorem activation_inv {a : ServerAct} {f : Job → Server → Effect}
    (h : s.activation cfg j a f = some e) :
    ∃ job t, s.server.jobs j = some job ∧ s.server.next cfg a = some t ∧ e = f job t := by
  unfold activation at h
  split at h
  · cases h
  · next job hj =>
      obtain ⟨t, ht, rfl⟩ := Option.map_eq_some_iff.mp h
      exact ⟨job, t, hj, ht, rfl⟩

/-- Where a step can make a difference. -/
structure Changes (cfg : ServerConfig) (s : ConnServer) (a : ConnAct) (e : Effect) : Prop where
  /-- The server instance takes a step, with a request from the queue if it is a
  new one, or none. -/
  server : e.2.server = s.server ∨ ∃ b, s.server.next cfg b = some e.2.server ∧
    ∀ j c req p, b = .receive j c req p →
      ∃ d ∈ s.jobq, d.conn = c ∧ readRequest d.buf = some req
  jobq : ∀ d ∈ e.2.jobq, d ∈ s.jobq ∨ d ∈ e.2.arrived
  arrived : ∀ d ∈ s.arrived, d ∈ e.2.arrived
  oldServed : e.2.oldServed = s.oldServed ∨
    ∃ j job, a = .send j ∧ s.server.jobs j = some job ∧ cfg.ForOldServer job.req
  keys : ∀ n ∈ e.2.keys, n ∈ s.keys ∨ ∃ j job, s.server.jobs j = some job ∧
    job.req.cltNonce = n ∧ (a = .saveConn j ∨ a = .pickConn j ∧ s.dead job.conn = true)

theorem mem_insertKey {n m : UInt32} : m ∈ s.insertKey n ↔ m ∈ s.keys ∨ m = n := by
  unfold insertKey
  split
  · next h =>
      refine ⟨.inl, ?_⟩
      rintro (hm | rfl)
      · exact hm
      · exact h
  · rw [List.mem_cons, or_comm]

/-- A step that leaves the server instance and the histories alone. -/
theorem changes_of_eq {a : ConnAct} (hserver : e.2.server = s.server)
    (hjobq : ∀ d ∈ e.2.jobq, d ∈ s.jobq ∨ d ∈ e.2.arrived)
    (harr : ∀ d ∈ s.arrived, d ∈ e.2.arrived) (hold : e.2.oldServed = s.oldServed)
    (hkeys : e.2.keys = s.keys) : Changes cfg s a e :=
  ⟨.inl hserver, hjobq, harr, .inl hold, fun _ hn => .inl (hkeys ▸ hn)⟩

/-- A step of an activation. -/
theorem changes_of_activation {a : ConnAct} {b : ServerAct} {t : Server}
    (hn : s.server.next cfg b = some t) (hb : ∀ j c req p, b ≠ .receive j c req p)
    (hserver : e.2.server = t) (hjobq : e.2.jobq = s.jobq) (harr : e.2.arrived = s.arrived)
    (hold : e.2.oldServed = s.oldServed ∨
      ∃ j job, a = .send j ∧ s.server.jobs j = some job ∧ cfg.ForOldServer job.req)
    (hkeys : ∀ n ∈ e.2.keys, n ∈ s.keys ∨ ∃ j job, s.server.jobs j = some job ∧
      job.req.cltNonce = n ∧ (a = .saveConn j ∨ a = .pickConn j ∧ s.dead job.conn = true)) :
    Changes cfg s a e where
  server := .inr ⟨b, hserver ▸ hn, fun j c req p he => absurd he (hb j c req p)⟩
  jobq _ hd := .inl (hjobq ▸ hd)
  arrived _ hd := harr ▸ hd
  oldServed := hold
  keys := hkeys

theorem changes_of_effect {a : ConnAct} (h : s.effect cfg a = some e) : Changes cfg s a e := by
  cases a with
  | accept c | die c | collect c =>
      simp only [effect] at h
      split at h
      case isFalse => cases h
      case isTrue =>
        cases h
        exact changes_of_eq rfl (fun _ hd => .inl hd) (fun _ hd => hd) rfl rfl
  | gotPdu c b =>
      simp only [effect] at h
      split at h
      case isFalse => cases h
      case isTrue =>
        cases h
        unfold gotPdu
        simp only
        split
        · refine changes_of_eq rfl (fun d hd => ?_) (fun _ hd => List.mem_append_left _ hd) rfl rfl
          rcases List.mem_append.mp hd with hd | hd
          · exact .inl hd
          · exact .inr (List.mem_append_right _ hd)
        · exact changes_of_eq rfl (fun _ hd => .inl hd)
            (fun _ hd => List.mem_append_left _ hd) rfl rfl
  | dispatch j p =>
      simp only [effect] at h
      split at h
      · cases h
      next d rest hq =>
        have hrest : ∀ d' ∈ rest, d' ∈ s.jobq := fun d' hd' => hq ▸ List.mem_cons_of_mem d hd'
        unfold dispatch at h
        split at h
        · cases h
          exact changes_of_eq rfl (fun _ hd => .inl (hrest _ hd)) (fun _ hd => hd) rfl rfl
        · next req hreq =>
            obtain ⟨t, hn, rfl⟩ := Option.map_eq_some_iff.mp h
            have hreceive : ∀ j' c req' p', ServerAct.receive j d.conn req p =
                .receive j' c req' p' →
                ∃ d ∈ s.jobq, d.conn = c ∧ readRequest d.buf = some req' := by
              intro j' c req' p' he
              cases he
              exact ⟨d, hq ▸ List.mem_cons_self, rfl, hreq⟩
            split <;> exact ⟨.inr ⟨_, hn, hreceive⟩, fun _ hd => .inl (hrest _ hd),
              fun _ hd => hd, .inl rfl, fun _ hn => .inl hn⟩
  | createWindow j | runHandler j _ _ | packReplyHeader j | addReply j =>
      obtain ⟨job, t, -, hn, rfl⟩ := activation_inv h
      exact changes_of_activation hn (by simp) rfl rfl rfl (.inl rfl) fun _ hn => .inl hn
  | saveConn j =>
      obtain ⟨job, t, hj, hn, rfl⟩ := activation_inv h
      unfold saveConn
      simp only
      split
      · refine changes_of_activation hn (by simp) rfl rfl rfl (.inl rfl) fun n hn => ?_
        rcases mem_insertKey.mp hn with hn | rfl
        · exact .inl hn
        · exact .inr ⟨j, job, hj, rfl, .inl rfl⟩
      · split <;>
          exact changes_of_activation hn (by simp) rfl rfl rfl (.inl rfl) fun _ hn => .inl hn
  | check j =>
      obtain ⟨job, t, -, hn, rfl⟩ := activation_inv h
      unfold check
      split <;> exact changes_of_activation hn (by simp) rfl rfl rfl (.inl rfl) fun _ hn => .inl hn
  | pickConn j =>
      simp only [effect] at h
      split at h
      · cases h
      next job hj =>
        obtain ⟨job', t, hj', hn, rfl⟩ := activation_inv h
        cases hj.symm.trans hj'
        unfold pickConn
        split
        · next hd =>
            have hkeys : ∀ n ∈ s.insertKey job.req.cltNonce, n ∈ s.keys ∨
                ∃ k job, s.server.jobs k = some job ∧ job.req.cltNonce = n ∧
                  (ConnAct.pickConn j = .saveConn k ∨
                    ConnAct.pickConn j = .pickConn k ∧ s.dead job.conn = true) := by
              intro n hn
              rcases mem_insertKey.mp hn with hn | rfl
              · exact .inl hn
              · exact .inr ⟨j, job, hj, rfl, .inr ⟨rfl, hd⟩⟩
            simp only
            split
            · exact changes_of_activation hn (by simp) rfl rfl rfl (.inl rfl) hkeys
            · split <;> exact changes_of_activation hn (by simp) rfl rfl rfl (.inl rfl) hkeys
        · exact changes_of_activation hn (by simp) rfl rfl rfl (.inl rfl) fun _ hn => .inl hn
  | send j =>
      obtain ⟨job, t, hj, hn, rfl⟩ := activation_inv h
      unfold finish
      simp only
      split
      · next hold =>
          exact changes_of_activation hn (by simp) rfl rfl rfl (.inr ⟨j, job, rfl, hj, hold⟩)
            fun _ hn => .inl hn
      · exact changes_of_activation hn (by simp) rfl rfl rfl (.inl rfl) fun _ hn => .inl hn
  | erase =>
      simp only [effect] at h
      split at h
      · cases h
      · cases h
        exact changes_of_eq rfl (fun _ hd => .inl hd) (fun _ hd => hd) rfl rfl

end ConnServer

end RpcLock.Rpcs
