import RpcLock.Rpcc.Client
import RpcLock.Rpcs.ReplyCache

/-!
# Clients, server instances and the network

Clients are indexed by `K` and server instances by `I`, both arbitrary.  The
network keeps every request that was transmitted and every reply that was sent.
A copy may be delivered at any moment, any number of times, in any order, or
never.  A request may reach any instance, so a copy meant for an instance that
is gone may reach its successor.  A reply reaches the client that owns the
connection it was sent on.

Instances run side by side without an order.  Restarts are the runs in which an
instance takes no step once the next one has started.
-/

namespace RpcLock

open Rpcc Rpcs

/-- What is fixed in a run.  The nonces are drawn with `random()`.  That they are
distinct and not 0 is an assumption, and so is that no client opted out of
at-most-once, which sets `clt_nonce_` to 0. -/
structure Config (K I : Type) where
  /-- `clt_nonce_` -/
  cltNonce : K → UInt32
  cltNonce_injective : Function.Injective cltNonce
  cltNonce_ne_zero : ∀ k, cltNonce k ≠ 0
  /-- `nonce_` -/
  srvNonce : I → UInt32
  srvNonce_injective : Function.Injective srvNonce
  srvNonce_ne_zero : ∀ i, srvNonce i ≠ 0
  /-- The client that opened a connection. -/
  owner : ConnId → K
  /-- `create_time_` of a connection. -/
  createTime : ConnId → Nat
  /-- The handlers of an instance, apart from bind. -/
  registered : I → UInt32 → Bool

/-- The configuration of one instance. -/
def Config.server {K I : Type} (cfg : Config K I) (i : I) : ServerConfig where
  nonce := cfg.srvNonce i
  registered := cfg.registered i
  createTime := cfg.createTime

/-- The state of all parties and the requests in flight.  The replies in flight
are the `sent` lists of the instances. -/
structure Sys (K I : Type) where
  clients : K → Client
  servers : I → Server
  requests : List (ConnId × Request)

inductive SysAct (K I : Type) where
  /-- A thread of client `k` enters `call1`. -/
  | call (k : K) (t : Nat) (proc : UInt32) (args : List UInt8)
  /-- Activation `t` sends its request on `c`: at first, on a retransmission, or
  as the `dup_req_` of the lossy test after it returned. -/
  | transmit (k : K) (t : Nat) (c : ConnId)
  | finish (k : K) (t : Nat)
  | storeNonce (k : K) (t : Nat)
  /-- The reply `m` of instance `i` reaches client `k`. -/
  | gotPdu (k : K) (i : I) (m : Sent)
  | server (i : I) (a : ServerAct)

namespace Sys

variable {K I : Type} [DecidableEq K] [DecidableEq I]

def init : Sys K I where
  clients _ := .init
  servers _ := .init
  requests := []

/-- Set the state of a client. -/
def setClient (s : Sys K I) (k : K) (c : Client) : Sys K I :=
  { s with clients := Function.update s.clients k c }

/-- Set the state of a server instance. -/
def setServer (s : Sys K I) (i : I) (v : Server) : Sys K I :=
  { s with servers := Function.update s.servers i v }

/-- Whether the network can deliver what the step receives. -/
def deliverable (s : Sys K I) : ServerAct → Bool
  | .receive _ c req _ => decide ((c, req) ∈ s.requests)
  | _ => true

/-- One step of the system. -/
def next (cfg : Config K I) (s : Sys K I) : SysAct K I → Option (Sys K I)
  | .call k t proc args =>
      ((s.clients k).call (cfg.cltNonce k) t proc args).map (s.setClient k)
  | .transmit k t c =>
      match (s.clients k).calls t with
      | none => none
      | some call =>
          if cfg.owner c = k then some { s with requests := (c, call.req) :: s.requests }
          else none
  | .finish k t => ((s.clients k).finish t).map (s.setClient k)
  | .storeNonce k t => ((s.clients k).storeNonce t).map (s.setClient k)
  | .gotPdu k i m =>
      if m ∈ (s.servers i).sent ∧ cfg.owner m.conn = k then
        some (s.setClient k ((s.clients k).gotPdu m.pdu))
      else none
  | .server i a =>
      if s.deliverable a then ((s.servers i).next (cfg.server i) a).map (s.setServer i) else none

end Sys

section

variable {K I : Type}

namespace Sys

section Clients

variable [DecidableEq K]

@[simp] theorem setClient_clients_self (s : Sys K I) (k : K) (c : Client) :
    (s.setClient k c).clients k = c := by simp [setClient]
theorem setClient_clients_ne (s : Sys K I) {k l : K} (c : Client) (h : l ≠ k) :
    (s.setClient k c).clients l = s.clients l := by simp [setClient, h]
@[simp] theorem setClient_servers (s : Sys K I) (k : K) (c : Client) :
    (s.setClient k c).servers = s.servers := rfl
@[simp] theorem setClient_requests (s : Sys K I) (k : K) (c : Client) :
    (s.setClient k c).requests = s.requests := rfl

end Clients

section Servers

variable [DecidableEq I]

@[simp] theorem setServer_servers_self (s : Sys K I) (i : I) (v : Server) :
    (s.setServer i v).servers i = v := by simp [setServer]
theorem setServer_servers_ne (s : Sys K I) {i l : I} (v : Server) (h : l ≠ i) :
    (s.setServer i v).servers l = s.servers l := by simp [setServer, h]
@[simp] theorem setServer_clients (s : Sys K I) (i : I) (v : Server) :
    (s.setServer i v).clients = s.clients := rfl
@[simp] theorem setServer_requests (s : Sys K I) (i : I) (v : Server) :
    (s.setServer i v).requests = s.requests := rfl

end Servers

end Sys

variable [DecidableEq K] [DecidableEq I]

/-- The whole system. -/
def system (cfg : Config K I) : Machine (Sys K I) (SysAct K I) where
  init := .init
  next := Sys.next cfg

namespace Sys

/-- The outcomes of a step of the system. -/
inductive Step (cfg : Config K I) (s : Sys K I) : SysAct K I → Sys K I → Prop where
  | bindFailure {k t proc args} : Step cfg s (.call k t proc args) s
  | call {k t proc args} :
      (s.clients k).calls t = none → (s.clients k).bindFails proc = false →
      Step cfg s (.call k t proc args) (s.setClient k
        (({ s.clients k with
          xid := (s.clients k).xid + 1
          pending := Function.update (s.clients k).pending (s.clients k).xid (some t) } :
            Client).setCall t
          ⟨(s.clients k).packRequest (cfg.cltNonce k) proc args, none, none, false⟩))
  | transmit {k t c call} :
      (s.clients k).calls t = some call → cfg.owner c = k →
      Step cfg s (.transmit k t c) { s with requests := (c, call.req) :: s.requests }
  | finish {k t call} :
      (s.clients k).calls t = some call → call.ret = none →
      Step cfg s (.finish k t) (s.setClient k
        (({ s.clients k with
          pending := Function.update (s.clients k).pending call.req.xid none
          window := updateXidRep (s.clients k).window call.req.xid } : Client).setCall t
          { call with ret := some call.result }))
  | storeNonce {k t call r nonce} :
      (s.clients k).calls t = some call → call.req.proc = RpcConst.bind → call.ret = some 0 →
      call.reply = some r → readNonce r.payload = some nonce →
      Step cfg s (.storeNonce k t) (s.setClient k
        (({ s.clients k with bindDone := true, srvNonce := nonce } : Client).setCall t
          { call with bound := true }))
  | ignored {k i m} :
      m ∈ (s.servers i).sent → cfg.owner m.conn = k →
      (∀ t call, (s.clients k).pending m.pdu.xid = some t → (s.clients k).calls t = some call →
        call.reply ≠ none) →
      Step cfg s (.gotPdu k i m) (s.setClient k
        { s.clients k with window := updateXidRep (s.clients k).window m.pdu.xid })
  | takenIn {k i m t call} :
      m ∈ (s.servers i).sent → cfg.owner m.conn = k →
      (s.clients k).pending m.pdu.xid = some t → (s.clients k).calls t = some call →
      call.reply = none →
      Step cfg s (.gotPdu k i m) (s.setClient k
        (({ s.clients k with window := updateXidRep (s.clients k).window m.pdu.xid } :
          Client).setCall t { call with reply := some m.pdu }))
  | server {i a v} :
      s.deliverable a = true → (s.servers i).next (cfg.server i) a = some v →
      Step cfg s (.server i a) (s.setServer i v)

theorem step_of_next {cfg : Config K I} {s s' : Sys K I} {a : SysAct K I}
    (h : s.next cfg a = some s') : Step cfg s a s' := by
  cases a with
  | call k t proc args =>
      simp only [Sys.next, Option.map_eq_some_iff] at h
      obtain ⟨c, hc, rfl⟩ := h
      rcases Client.call_inv hc with rfl | ⟨ht, hb, rfl⟩
      · rw [setClient, Function.update_eq_self]
        exact .bindFailure
      · exact .call ht hb
  | transmit k t c =>
      simp only [Sys.next] at h
      cases hc : (s.clients k).calls t with
      | none => simp [hc] at h
      | some call =>
          simp only [hc] at h
          split at h
          · next ho =>
              cases h
              exact .transmit hc ho
          · cases h
  | finish k t =>
      simp only [Sys.next, Option.map_eq_some_iff] at h
      obtain ⟨c, hc, rfl⟩ := h
      obtain ⟨call, ht, hr, rfl⟩ := Client.finish_inv hc
      exact .finish ht hr
  | storeNonce k t =>
      simp only [Sys.next, Option.map_eq_some_iff] at h
      obtain ⟨c, hc, rfl⟩ := h
      obtain ⟨call, r, nonce, ht, hp, hret, hr, hnonce, rfl⟩ := Client.storeNonce_inv hc
      exact .storeNonce ht hp hret hr hnonce
  | gotPdu k i m =>
      simp only [Sys.next] at h
      split at h
      · next hg =>
          cases h
          rcases Client.gotPdu_cases (s.clients k) m.pdu with ⟨he, hdone⟩ | ⟨t, call, hp, hc, hr, he⟩
          · rw [he]
            exact .ignored hg.1 hg.2 hdone
          · rw [he]
            exact .takenIn hg.1 hg.2 hp hc hr
      · cases h
  | server i a =>
      simp only [Sys.next] at h
      split at h
      · next hd =>
          obtain ⟨v, hv, rfl⟩ := Option.map_eq_some_iff.mp h
          exact .server hd hv
      · cases h

/-- A run of the system is a run of every instance under some traffic, and a
condition on its steps is a condition on theirs. -/
theorem reachedVia_server {cfg : Config K I} {G : Sys K I → SysAct K I → Prop}
    {H : Server → ServerAct → Prop} {s : Sys K I} (i : I)
    (hGH : ∀ s a, G s (.server i a) → H (s.servers i) a) (h : (system cfg).ReachedVia G s) :
    (serverMachine (cfg.server i)).ReachedVia H (s.servers i) := by
  refine h.map (N := serverMachine (cfg.server i)) (fun s => s.servers i) rfl
    fun s s' a hg hn => ?_
  cases step_of_next hn with
  | bindFailure | call | transmit | finish | storeNonce | ignored | takenIn => exact .inl rfl
  | @server l a v _ hv =>
      by_cases hil : i = l
      · subst hil
        exact .inr ⟨a, hGH s a hg, by rw [setServer_servers_self]; exact hv⟩
      · exact .inl (setServer_servers_ne s v hil)

theorem reachable_server {cfg : Config K I} {G : Sys K I → SysAct K I → Prop} {s : Sys K I}
    (h : (system cfg).ReachedVia G s) (i : I) :
    (serverMachine (cfg.server i)).Reachable (s.servers i) :=
  reachedVia_server i (fun _ _ _ => trivial) h

/-! ## Pieces of runs -/

section

variable {K I : Type}

/-- The request of activation `t` of client `k` is sent on `c` and reaches the
check of instance `i` as job `j`, whose `rep` is in block `p`. -/
def arrives (k : K) (t : Nat) (c : ConnId) (i : I) (j : Nat) (req : Request) (p : Ptr) :
    List (SysAct K I) :=
  [.transmit k t c, .server i (.receive j c req p), .server i (.createWindow j),
    .server i (.saveConn j)]

/-- Job `j` passes the check, its handler returns `ret`, and the reply is saved. -/
def runs (i : I) (j : Nat) (ret : Int) (out : List UInt8) : List (SysAct K I) :=
  [.server i (.check j), .server i (.runHandler j ret out), .server i (.packReplyHeader j),
    .server i (.addReply j)]

/-- The reply that job `j` has stored reaches client `k`, whose activation `t`
returns. -/
def returns (k : K) (t : Nat) (i : I) (j : Nat) (m : Sent) : List (SysAct K I) :=
  [.server i (.pickConn j false), .server i (.send j), .gotPdu k i m, .finish k t]

/-- The first bind request of a client. -/
def bindRequest (cltNonce : UInt32) : Request :=
  ⟨1, RpcConst.bind, cltNonce, 0, 0, [0, 0, 0, 0]⟩

/-- Client `k` binds to instance `i` on connection `c`, through job `j`. -/
def binds (cfg : Config K I) (k : K) (c : ConnId) (i : I) (j : Nat) (p : Ptr) :
    List (SysAct K I) :=
  let req := bindRequest (cfg.cltNonce k)
  let out := bindPayload (cfg.srvNonce i)
  [.call k 0 RpcConst.bind req.args] ++ arrives k 0 c i j req p ++ runs i j 0 out ++
    returns k 0 i j ⟨c, req, ⟨1, 0, out⟩⟩ ++ [.storeNonce k 0]

end

end Sys

end

end RpcLock
