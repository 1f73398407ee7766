import RpcLock.Rpcc.Waiting
import RpcLock.Rpcs.Routing
import RpcLock.System.Network

/-!
# Messages and acknowledgements in flight

`Traffic` is the joint invariant of clients, messages and server tables: every
request in flight or in an activation was made by the client that owns its
connection, and no server holds a lower bound above the front of its client's
window.  With `Client.Ok` this puts every acknowledgement in flight below every
xid still waiting.

Two conditions on the steps are assumed.  `FreshXids` bounds the number of calls
of a client.  `Answerable` says that a delivered reply answers some call of its
client.  It is discharged where the replies themselves are studied.
-/

namespace RpcLock.Sys

open Rpcc Rpcs

variable {K I : Type}

/-- No xid is handed out twice: `call1` is entered only while `xid_`, which
starts at 1, has not wrapped around to 0.  A client can make 2^32 - 1 calls. -/
def FreshXids (s : Sys K I) : SysAct K I → Prop
  | .call k _ _ _ => (s.clients k).xid ≠ 0
  | _ => True

instance (s : Sys K I) (a : SysAct K I) : Decidable (FreshXids s a) :=
  match a with
  | .call k _ _ _ => inferInstanceAs (Decidable ((s.clients k).xid ≠ 0))
  | .transmit _ _ _ | .finish _ _ | .storeNonce _ _ | .gotPdu _ _ _ | .server _ _ => .isTrue trivial

/-- A delivered reply has xid 0, which no call has, or the xid of a call of the
client it reaches. -/
def Answerable (s : Sys K I) : SysAct K I → Prop
  | .gotPdu k _ m => m.pdu.xid = 0 ∨ (s.clients k).Issued m.pdu.xid
  | _ => True

/-- Client `k` made the request `req`. -/
def Made (s : Sys K I) (k : K) (req : Request) : Prop :=
  ∃ t call, (s.clients k).calls t = some call ∧ call.req = req

/-- What holds of clients, messages and lower bounds together. -/
structure Traffic (cfg : Config K I) (s : Sys K I) : Prop where
  clients : ∀ k, (s.clients k).Ok (cfg.cltNonce k)
  requests : ∀ c req, (c, req) ∈ s.requests → s.Made (cfg.owner c) req
  servers : ∀ i, (s.servers i).Routed cfg.owner cfg.cltNonce s.Made
  bounds : ∀ i k lb, (s.servers i).tables.replyLowerBound (cfg.cltNonce k) = some lb →
    lb ≤ front (s.clients k).window

variable {cfg : Config K I} {s s' : Sys K I} {a : SysAct K I}

theorem traffic_init : Traffic cfg Sys.init where
  clients k := Client.ok_init _
  requests c req h := by simp [Sys.init] at h
  servers i := Server.routed_init
  bounds i k lb h := by simp [Sys.init, Server.init, ReplyTables.empty] at h

theorem Traffic.made_nonce (h : Traffic cfg s) {k : K} {req : Request} (hm : s.Made k req) :
    req.cltNonce = cfg.cltNonce k := by
  obtain ⟨t, call, ht, rfl⟩ := hm
  exact (h.clients k).nonce t call ht

/-- An acknowledgement that was sent is at or below the front. -/
theorem Traffic.xidRep_le (h : Traffic cfg s) {k : K} {req : Request} (hm : s.Made k req) :
    req.xidRep ≤ front (s.clients k).window := by
  obtain ⟨t, call, ht, rfl⟩ := hm
  exact (h.clients k).xidRep t call ht

variable [DecidableEq K]

/-- A step of one client that forgets no call and does not lower its front. -/
theorem Traffic.client (h : Traffic cfg s) {k : K} {c : Client} (hok : c.Ok (cfg.cltNonce k))
    (hcalls : ∀ t call, (s.clients k).calls t = some call →
      ∃ call', c.calls t = some call' ∧ call'.req = call.req)
    (hfront : front (s.clients k).window ≤ front c.window) : Traffic cfg (s.setClient k c) := by
  have hmade : ∀ l req, s.Made l req → (s.setClient k c).Made l req := by
    rintro l req ⟨t, call, ht, rfl⟩
    by_cases hlk : l = k
    · subst hlk
      obtain ⟨call', ht', hreq⟩ := hcalls t call ht
      exact ⟨t, call', by rw [setClient_clients_self]; exact ht', hreq⟩
    · exact ⟨t, call, by rw [setClient_clients_ne _ _ hlk]; exact ht, rfl⟩
  refine ⟨fun l => ?_, fun c req hc => hmade _ _ (h.requests c req hc),
    fun i => (h.servers i).mono hmade, fun i l lb hlb => ?_⟩
  · by_cases hlk : l = k
    · subst hlk
      rw [setClient_clients_self]
      exact hok
    · rw [setClient_clients_ne _ _ hlk]
      exact h.clients l
  · have hle := h.bounds i l lb hlb
    by_cases hlk : l = k
    · subst hlk
      rw [setClient_clients_self]
      exact le_trans hle hfront
    · rw [setClient_clients_ne _ _ hlk]
      exact hle

/-- Replacing a call by its next state forgets no call. -/
theorem calls_setCall {c c₁ : Client} {t : Nat} {call call' : Call} (hcalls : c₁.calls = c.calls)
    (ht : c.calls t = some call) (hreq : call'.req = call.req) (u : Nat) (call₀ : Call)
    (hu : c.calls u = some call₀) :
    ∃ call₁, (c₁.setCall t call').calls u = some call₁ ∧ call₁.req = call₀.req := by
  by_cases hut : u = t
  · subst hut
    rw [ht] at hu
    cases hu
    exact ⟨call', Client.setCall_calls_self _ _ _, hreq⟩
  · exact ⟨call₀, by rw [Client.setCall_calls_ne _ _ hut, hcalls]; exact hu, rfl⟩

theorem front_le_update {n : UInt32} {c : Client} (h : c.Ok n) (x : UInt32) :
    front c.window ≤ front (updateXidRep c.window x) := by
  obtain ⟨R, hw, -⟩ := h.acked
  exact (hw.update x).2

variable [DecidableEq I]

omit [DecidableEq K] in
/-- A step of one server instance. -/
theorem Traffic.server (h : Traffic cfg s) {i : I} {b : ServerAct} {v : Server}
    (hd : s.deliverable b = true) (hv : (s.servers i).next (cfg.server i) b = some v) :
    Traffic cfg (s.setServer i v) := by
  have hnonce : ∀ k req, s.Made k req → req.cltNonce = cfg.cltNonce k := fun _ _ hm =>
    h.made_nonce hm
  refine ⟨h.clients, h.requests, fun l => ?_, fun l k lb hlb => ?_⟩
  · by_cases hl : l = i
    · subst hl
      rw [setServer_servers_self]
      refine Server.routed_next hnonce cfg.cltNonce_injective (h.servers l) ?_ hv
      rintro j c req p rfl
      exact h.requests c req (by simpa [deliverable] using hd)
    · rw [setServer_servers_ne _ _ hl]
      exact h.servers l
  · by_cases hl : l = i
    · subst hl
      rw [setServer_servers_self] at hlb
      rcases Server.bound_of_next hv hlb with hold | ⟨j, job, hj, hn, rfl⟩
      · exact h.bounds l k lb hold
      · have hm := (h.servers l).jobs j job hj
        have hk : cfg.owner job.conn = k :=
          cfg.cltNonce_injective ((h.made_nonce hm).symm.trans hn)
        exact hk ▸ h.xidRep_le hm
    · rw [setServer_servers_ne _ _ hl] at hlb
      exact h.bounds l k lb hlb

theorem traffic_next (h : Traffic cfg s) (hfresh : FreshXids s a) (hans : Answerable s a)
    (hn : s.next cfg a = some s') : Traffic cfg s' := by
  cases step_of_next hn with
  | bindFailure => exact h
  | @call k t proc args ht _ =>
      refine h.client ((h.clients k).entry hfresh ht) (fun u call hu => ⟨call, ?_, rfl⟩) le_rfl
      have hut : u ≠ t := by
        rintro rfl
        rw [ht] at hu
        cases hu
      rw [Client.setCall_calls_ne _ _ hut]
      exact hu
  | @transmit k t c call ht hown =>
      refine ⟨h.clients, fun c' req hc => ?_, h.servers, h.bounds⟩
      rcases List.mem_cons.mp hc with he | hc
      · cases he
        exact ⟨t, call, hown ▸ ht, rfl⟩
      · exact h.requests c' req hc
  | @finish k t call ht _ =>
      exact h.client ((h.clients k).finish ht) (calls_setCall rfl ht rfl)
        (front_le_update (h.clients k) _)
  | @storeNonce k t call r nonce ht _ _ _ _ =>
      exact h.client ((h.clients k).storeNonce ht nonce) (calls_setCall rfl ht rfl) le_rfl
  | @ignored k i m _ _ hdone =>
      exact h.client ((h.clients k).ignored hans hdone) (fun u call hu => ⟨call, hu, rfl⟩)
        (front_le_update (h.clients k) _)
  | @takenIn k i m t call _ _ hp ht _ =>
      exact h.client ((h.clients k).takenIn hp ht) (calls_setCall rfl ht rfl)
        (front_le_update (h.clients k) _)
  | server hd hv => exact h.server hd hv

end RpcLock.Sys
