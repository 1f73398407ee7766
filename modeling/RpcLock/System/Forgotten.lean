import RpcLock.Rpcs.InTime
import RpcLock.System.Classification

/-!
# The lossy test of `call1`

With `lossytest_` set, `call1` keeps a request that was answered in `dup_req_` and
sends it once more when it has an answer to a request that acknowledged it: when
`xid_rep_done_`, the largest acknowledgement in an answered request, is above its
xid.  The server is to find that it has forgotten the request.

One client and one server instance, in runs where no check overtakes the sending
of a saved reply.  The server has been told, so that the copy finds the lower
bound above its xid, its reply purged and its handler done.  The verdict is
`FORGOTTEN`, or `INPROGRESS` where the seen set was not cut.

To the server the copy is one more retransmission of a request, so what holds of
the system without the lossy test holds here.

The two sides compare xids as `int`, which is the order of the xids as long as
there are fewer than 2^31 calls.
-/

namespace RpcLock

open Rpcc Rpcs

namespace Rpcc

/-- An `unsigned int` stored in an `int`. -/
def toInt (x : UInt32) : Int := if x.toNat < 2 ^ 31 then x.toNat else x.toNat - 2 ^ 32

/-- `rpcc::request`. -/
structure DupRequest where
  /-- The PDU, and nothing when `buf` is empty. -/
  buf : Option Request
  xid : Int
deriving DecidableEq, Repr

namespace DupRequest

/-- `request::clear`. -/
def clear : DupRequest := ⟨none, -1⟩

/-- `request::isvalid`. -/
def isvalid (d : DupRequest) : Bool := d.xid != -1

end DupRequest

end Rpcc

/-- The system with what `call1` keeps for the lossy test. -/
structure Lossy where
  sys : Sys Unit Unit
  /-- `dup_req_` -/
  dupReq : DupRequest
  /-- `xid_rep_done_` -/
  xidRepDone : Int
  /-- The activations of `call1` that are past their last look at `dup_req_`. -/
  recorded : Nat → Bool
  /-- `forgot` of the activations that are about to send it. -/
  forgot : Nat → Option Request
  /-- The requests that were sent once more. -/
  resent : List Request

inductive LossyAct where
  | sys (a : SysAct Unit Unit)
  /-- Activation `t` takes `dup_req_` into its `forgot`. -/
  | take (t : Nat)
  /-- It sends `forgot` on `c`. -/
  | resend (t : Nat) (c : ConnId)
  /-- The section of `call1` under `m_` after its end, for a call that is done. -/
  | record (t : Nat)

namespace Lossy

/-- `rpcc::rpcc`. -/
def init : Lossy where
  sys := .init
  dupReq := .clear
  xidRepDone := -1
  recorded _ := false
  forgot _ := none
  resent := []

def next (cfg : Config Unit Unit) (s : Lossy) : LossyAct → Option Lossy
  | .sys a => (s.sys.next cfg a).map fun sys => { s with sys }
  | .take t =>
      match (s.sys.clients ()).calls t with
      | none => none
      | some call =>
          if call.ret = none ∧ s.dupReq.isvalid ∧ s.dupReq.xid < s.xidRepDone then
            some { s with
              forgot := Function.update s.forgot t s.dupReq.buf
              dupReq := .clear }
          else none
  | .resend t c =>
      match s.forgot t with
      | none => none
      | some req =>
          some { s with
            sys := { s.sys with requests := (c, req) :: s.sys.requests }
            forgot := Function.update s.forgot t none
            resent := req :: s.resent }
  | .record t =>
      match (s.sys.clients ()).calls t with
      | none => none
      | some call =>
          if call.ret.isSome ∧ call.reply.isSome ∧ s.recorded t = false then
            some { s with
              dupReq := if s.dupReq.isvalid then s.dupReq else ⟨some call.req, toInt call.req.xid⟩
              xidRepDone := max s.xidRepDone (toInt call.req.xidRep)
              recorded := Function.update s.recorded t true }
          else none

/-- The client makes fewer than 2^31 calls. -/
def FewCalls (s : Lossy) : LossyAct → Prop
  | .sys (.call _ _ _ _) => (s.sys.clients ()).xid.toNat < 2 ^ 31
  | _ => True

instance (s : Lossy) : (a : LossyAct) → Decidable (s.FewCalls a)
  | .sys (.call _ _ _ _) => inferInstanceAs (Decidable ((s.sys.clients ()).xid.toNat < 2 ^ 31))
  | .sys (.transmit _ _ _) | .sys (.finish _ _) | .sys (.storeNonce _ _) | .sys (.gotPdu _ _ _)
  | .sys (.server _ _) | .take _ | .resend _ _ | .record _ => inferInstanceAs (Decidable True)

/-- No check overtakes an activation that holds a saved reply. -/
def NoOvertake (s : Lossy) : LossyAct → Prop
  | .sys b => s.sys.NoOvertake b
  | _ => True

end Lossy

/-- One client with `lossytest_` set and one server instance. -/
def lossySystem (cfg : Config Unit Unit) : Machine Lossy LossyAct where
  init := .init
  next := Lossy.next cfg

/-! ## What the client knows about its server -/

namespace Sys

variable {cfg : Config Unit Unit} {s s' : Sys Unit Unit} {a : SysAct Unit Unit}

/-- The client is bound to the instance, and what it has a reply for is settled. -/
structure Heard (cfg : Config Unit Unit) (s : Sys Unit Unit) : Prop where
  bound : (s.clients ()).srvNonce = 0 ∨ (s.clients ()).srvNonce = cfg.srvNonce ()
  addressed : ∀ t call, (s.clients ()).calls t = some call →
    call.req.srvNonce = 0 ∨ call.req.srvNonce = cfg.srvNonce ()
  inTime : ∀ t call, (s.clients ()).calls t = some call → call.reply ≠ none →
    (s.servers ()).tables.InTime (cfg.cltNonce ()) call.req.xid

theorem heard_init : Heard cfg Sys.init where
  bound := .inl rfl
  addressed := by simp [Sys.init, Client.init]
  inTime := by simp [Sys.init, Client.init]

/-- A reply the client took in is that of an execution of its call. -/
theorem Heard.replied (h : Heard cfg s) (hl : Linked cfg s) (hrem : Remembered cfg s) {t : Nat}
    {call : Call} {r : Reply} (ht : (s.clients ()).calls t = some call)
    (hr : call.reply = some r) :
    (s.servers ()).ResultOf (cfg.cltNonce ()) call.req.xid r := by
  obtain ⟨_, hans⟩ := hl.reply () t call r ht hr
  cases hans with
  | refused hj hn hx haddr _ =>
      exact absurd (hl.job_req ht hj hn hx ▸ h.addressed t call ht) haddr
  | forgotten _ _ _ _ hpdu => exact absurd (by rw [hpdu]) (hrem.reply () t call r ht hr)
  | result hres => exact hres

/-- A step of the client, by what holds of its calls then. -/
theorem heard_setClient {c : Client} (hbound : c.srvNonce = 0 ∨ c.srvNonce = cfg.srvNonce ())
    (hcalls : ∀ t call, c.calls t = some call →
      (call.req.srvNonce = 0 ∨ call.req.srvNonce = cfg.srvNonce ()) ∧
      (call.reply ≠ none → (s.servers ()).tables.InTime (cfg.cltNonce ()) call.req.xid)) :
    Heard cfg (s.setClient () c) := by
  refine ⟨by rw [setClient_clients_self]; exact hbound, fun t call ht => ?_, fun t call ht => ?_⟩
  all_goals rw [setClient_clients_self] at ht
  · exact (hcalls t call ht).1
  · exact (hcalls t call ht).2

theorem Heard.call (h : Heard cfg s) {t : Nat} {call : Call}
    (ht : (s.clients ()).calls t = some call) :
    (call.req.srvNonce = 0 ∨ call.req.srvNonce = cfg.srvNonce ()) ∧
      (call.reply ≠ none → (s.servers ()).tables.InTime (cfg.cltNonce ()) call.req.xid) :=
  ⟨h.addressed t call ht, h.inTime t call ht⟩

/-- A call of the client that only changes what is not asked for here. -/
theorem Heard.setCall (h : Heard cfg s) {c₁ : Client} {t : Nat} {call call' : Call}
    (hcalls : c₁.calls = (s.clients ()).calls) (ht : (s.clients ()).calls t = some call)
    (hreq : call'.req = call.req) (hreply : call'.reply = call.reply)
    (hbound : c₁.srvNonce = 0 ∨ c₁.srvNonce = cfg.srvNonce ()) :
    Heard cfg (s.setClient () (c₁.setCall t call')) := by
  refine heard_setClient hbound fun u call₁ hu => ?_
  rcases Client.setCall_calls_cases hu with ⟨rfl, rfl⟩ | ⟨-, hu⟩
  · rw [hreq, hreply]
    exact h.call ht
  · exact h.call (hcalls ▸ hu)

theorem heard_next (h : Heard cfg s) (hs : Regular cfg s) (hs' : Regular cfg s')
    (hn : s.next cfg a = some s') : Heard cfg s' := by
  have hl := linked_of_reachedVia hs
  cases step_of_next hn with
  | bindFailure => exact h
  | @call k t proc args ht _ =>
      refine heard_setClient h.bound fun u call hu => ?_
      rcases Client.setCall_calls_cases hu with ⟨rfl, rfl⟩ | ⟨-, hu⟩
      · exact ⟨h.bound, fun hr => absurd rfl hr⟩
      · exact h.call hu
  | transmit => exact ⟨h.bound, h.addressed, h.inTime⟩
  | finish ht _ => exact h.setCall rfl ht rfl rfl h.bound
  | @storeNonce k t call r nonce ht hproc hret hr hnonce =>
      -- the nonce `bind` stores is that of the one instance
      have hserves := fun i => Server.serves_of_reachable (reachable_server hs i)
      obtain ⟨_, hi⟩ := hl.nonce_of_bind (fun i => (Server.cache_of_reachable
        (reachable_server hs i)).1) hserves ⟨t, call, r, ht, hproc, hret, hr, hnonce⟩
      exact h.setCall rfl ht rfl rfl (.inr hi)
  | ignored => exact heard_setClient h.bound fun u call hu => h.call hu
  | @takenIn k i m t call hm _ hp ht hr =>
      refine heard_setClient h.bound fun u call' hu => ?_
      rcases Client.setCall_calls_cases hu with ⟨rfl, rfl⟩ | ⟨-, hu⟩
      · refine ⟨h.addressed u call ht, fun _ e _ _ hbelow => ?_⟩
        -- no acknowledgement has reached the xid of a waiting call
        obtain ⟨lb, hlb, hlt⟩ := hbelow
        obtain ⟨call', ht', hret, -⟩ := (hl.traffic.clients ()).ofPending _ _ hp
        rw [ht] at ht'
        cases ht'
        have hfront := (hl.traffic.clients ()).front_lt ht hret hr
        exact absurd (lt_trans hlt (lt_of_le_of_lt (hl.traffic.bounds () () lb hlb) hfront))
          (lt_irrefl _)
      · exact h.call hu
  | @server i b v hd hv =>
      refine ⟨h.bound, h.addressed, fun t call ht hr => ?_⟩
      obtain ⟨r, hr'⟩ := Option.ne_none_iff_exists'.mp hr
      obtain ⟨ho, hc⟩ := Server.cache_of_reachable (reachable_server hs ())
      rw [setServer_servers_self]
      exact Server.inTime_next ho hc (Server.told_of_reachable (reachable_server hs ()))
        (cfg.cltNonce_ne_zero ())
        (h.replied hl (remembered_of_reachedVia hs) ht hr').stored (h.inTime t call ht hr) hv

/-- A call keeps its request, its reply and its result. -/
theorem call_answered (hn : s.next cfg a = some s') {t : Nat} {call : Call}
    (ht : (s.clients ()).calls t = some call) :
    ∃ call', (s'.clients ()).calls t = some call' ∧ call'.req = call.req ∧
      (call.reply ≠ none → call'.reply ≠ none) ∧ (call.ret ≠ none → call'.ret ≠ none) := by
  have hset : ∀ {c₁ : Client} {u : Nat} {call₁ call₂ : Call},
      c₁.calls = (s.clients ()).calls → (s.clients ()).calls u = some call₁ →
      call₂.req = call₁.req → (call₁.reply ≠ none → call₂.reply ≠ none) →
      (call₁.ret ≠ none → call₂.ret ≠ none) →
      ∃ call', ((s.setClient () (c₁.setCall u call₂)).clients ()).calls t = some call' ∧
        call'.req = call.req ∧ (call.reply ≠ none → call'.reply ≠ none) ∧
        (call.ret ≠ none → call'.ret ≠ none) := by
    intro c₁ u call₁ call₂ hcalls hu hreq hreply hret
    rw [setClient_clients_self]
    exact (Client.evolves_setCall hcalls hu hreq hreply hret).fwd t call ht
  cases step_of_next hn with
  | bindFailure => exact ⟨call, ht, rfl, id, id⟩
  | @call k u proc args hu _ =>
      refine ⟨call, ?_, rfl, id, id⟩
      have htu : t ≠ u := by
        rintro rfl
        rw [hu] at ht
        cases ht
      rw [setClient_clients_self, Client.setCall_calls_ne _ _ htu]
      exact ht
  | transmit => exact ⟨call, ht, rfl, id, id⟩
  | finish hu _ => exact hset rfl hu rfl id (by simp)
  | storeNonce hu _ _ _ _ => exact hset rfl hu rfl id id
  | ignored =>
      rw [setClient_clients_self]
      exact ⟨call, ht, rfl, id, id⟩
  | takenIn _ _ _ hu _ => exact hset rfl hu rfl (by simp) id
  | server => exact ⟨call, ht, rfl, id, id⟩

theorem below_next (hn : s.next cfg a = some s') {n x : UInt32}
    (h : (s.servers ()).tables.Below n x) : (s'.servers ()).tables.Below n x := by
  cases step_of_next hn with
  | server _ hv =>
      obtain ⟨lb, hlb, hlt⟩ := h
      obtain ⟨lb', hlb', hle⟩ := Server.bound_mono hv hlb
      rw [setServer_servers_self]
      exact ⟨lb', hlb', lt_of_lt_of_le hlt hle⟩
  | bindFailure | call | transmit | finish | storeNonce | ignored | takenIn => exact h

theorem xid_next (hn : s.next cfg a = some s') :
    (s'.clients ()).xid = (s.clients ()).xid ∨
      (s'.clients ()).xid = (s.clients ()).xid + 1 ∧ ∃ k t proc args, a = .call k t proc args := by
  cases step_of_next hn with
  | call =>
      rw [setClient_clients_self]
      exact .inr ⟨rfl, _, _, _, _, rfl⟩
  | finish | storeNonce | ignored | takenIn =>
      rw [setClient_clients_self]
      exact .inl rfl
  | bindFailure | transmit | server => exact .inl rfl

end Sys

/-! ## The lossy test -/

theorem Rpcc.toInt_of_lt {x : UInt32} (h : x.toNat < 2 ^ 31) : toInt x = x.toNat := if_pos h

/-- The order of the `int`s is that of the xids, where the smaller one is no negative number. -/
theorem Rpcc.lt_of_toInt_lt {x y : UInt32} (hx : x.toNat < 2 ^ 31) (h : toInt x < toInt y) :
    x < y := by
  rw [toInt_of_lt hx] at h
  unfold toInt at h
  rw [UInt32.lt_iff_toNat_lt]
  have := y.toNat_lt
  split at h <;> omega

namespace Lossy

variable {cfg : Config Unit Unit} {s s' : Lossy} {a : LossyAct}

/-- The call of the request has returned with its reply, and the server has been
told so. -/
structure Past (cfg : Config Unit Unit) (s : Sys Unit Unit) (req : Request) : Prop where
  call : ∃ t call, (s.clients ()).calls t = some call ∧ call.req = req ∧ call.reply ≠ none ∧
    call.ret ≠ none
  below : (s.servers ()).tables.Below (cfg.cltNonce ()) req.xid

theorem Past.next {s s' : Sys Unit Unit} {a : SysAct Unit Unit} {req : Request}
    (h : Past cfg s req) (hn : s.next cfg a = some s') : Past cfg s' req := by
  obtain ⟨⟨t, call, ht, hreq, hreply, hret⟩, hbelow⟩ := h
  obtain ⟨call', ht', hreq', hreply', hret'⟩ := Sys.call_answered hn ht
  exact ⟨⟨t, call', ht', hreq'.trans hreq, hreply' hreply, hret' hret⟩, Sys.below_next hn hbelow⟩

/-- What the fields for the lossy test hold. -/
structure Keeps (cfg : Config Unit Unit) (s : Lossy) : Prop where
  done : s.xidRepDone = -1 ∨ ∃ t call, (s.sys.clients ()).calls t = some call ∧
    call.reply ≠ none ∧ s.xidRepDone = toInt call.req.xidRep
  dup : s.dupReq = .clear ∨ ∃ t call, (s.sys.clients ()).calls t = some call ∧
    call.reply ≠ none ∧ call.ret ≠ none ∧ s.dupReq = ⟨some call.req, toInt call.req.xid⟩
  past : ∀ req, req ∈ s.resent ∨ (∃ t, s.forgot t = some req) → Past cfg s.sys req
  xid : (s.sys.clients ()).xid ≠ 0 ∧ (s.sys.clients ()).xid.toNat ≤ 2 ^ 31

theorem keeps_init : Keeps cfg Lossy.init where
  done := .inl rfl
  dup := .inl rfl
  past req h := by
    rcases h with h | ⟨t, h⟩
    · cases h
    · cases h
  xid := ⟨by decide, by decide⟩

/-- The system takes the steps of a system with one client. -/
theorem freshXids_of_fewCalls (hx : (s.sys.clients ()).xid ≠ 0) {b : SysAct Unit Unit} :
    Sys.FreshXids s.sys b := by
  cases b with
  | call => exact hx
  | transmit | finish | storeNonce | gotPdu | server => trivial

theorem Keeps.sys (h : Keeps cfg s) {b : SysAct Unit Unit} {sys : Sys Unit Unit}
    (hg : s.FewCalls (.sys b)) (hn : s.sys.next cfg b = some sys) :
    Keeps cfg { s with sys } := by
  refine ⟨?_, ?_, fun req hreq => (h.past req hreq).next hn, ?_⟩
  · rcases h.done with h | ⟨t, call, ht, hreply, hd⟩
    · exact .inl h
    · obtain ⟨call', ht', hreq, hreply', -⟩ := Sys.call_answered hn ht
      exact .inr ⟨t, call', ht', hreply' hreply, hreq ▸ hd⟩
  · rcases h.dup with h | ⟨t, call, ht, hreply, hret, hd⟩
    · exact .inl h
    · obtain ⟨call', ht', hreq, hreply', hret'⟩ := Sys.call_answered hn ht
      exact .inr ⟨t, call', ht', hreply' hreply, hret' hret, hreq ▸ hd⟩
  · rcases Sys.xid_next hn with hx | ⟨hx, k, t, proc, args, rfl⟩
    · rw [hx]
      exact h.xid
    · have hlt : (s.sys.clients ()).xid.toNat < 2 ^ 31 := hg
      have hsucc : ((s.sys.clients ()).xid + 1).toNat = (s.sys.clients ()).xid.toNat + 1 := by
        rw [UInt32.toNat_add]
        exact Nat.mod_eq_of_lt (by simp only [UInt32.toNat_one]; omega)
      rw [hx]
      refine ⟨fun h0 => ?_, by omega⟩
      rw [h0] at hsucc
      simp at hsucc

/-- The request that is taken is past: the answered request that acknowledged it
told the server. -/
theorem Keeps.past_of_take (h : Keeps cfg s) (hs : Sys.Regular cfg s.sys)
    (hh : Sys.Heard cfg s.sys) (hvalid : s.dupReq.isvalid = true)
    (hlt : s.dupReq.xid < s.xidRepDone) {req : Request} (hreq : s.dupReq.buf = some req) :
    Past cfg s.sys req := by
  rcases h.dup with hclear | ⟨t, call, ht, hreply, hret, hd⟩
  · rw [hclear] at hvalid
    cases hvalid
  rw [hd] at hreq hlt
  cases hreq
  refine ⟨⟨t, call, ht, rfl, hreply, hret⟩, ?_⟩
  have hl := Sys.linked_of_reachedVia hs
  have hok := hl.traffic.clients ()
  have hx : call.req.xid.toNat < 2 ^ 31 := by
    have := UInt32.lt_iff_toNat_lt.mp (hok.lt t call ht h.xid.1)
    have := h.xid.2
    omega
  have hlt : toInt call.req.xid < s.xidRepDone := hlt
  rcases h.done with hd' | ⟨u, call', hu, hreply', hd'⟩
  · rw [hd', toInt_of_lt hx] at hlt
    omega
  rw [hd'] at hlt
  obtain ⟨r, hr⟩ := Option.ne_none_iff_exists'.mp hreply'
  obtain ⟨e, -, job, hj, hst, hereq, hen, hex, -, -⟩ :=
    hh.replied hl (Sys.remembered_of_reachedVia hs) hu hr
  have hjreq : job.req = call'.req := hl.job_req hu hj (by rw [hereq, hen]) (by rw [hereq, hex])
  have hnonce : job.req.cltNonce = cfg.cltNonce () := by rw [hereq, hen]
  obtain ⟨lb, hlb, hle⟩ := Server.told_of_reachable (Sys.reachable_server hs ()) e.job job hj
    (by simp [Job.stored_verdict hst]) (hnonce ▸ cfg.cltNonce_ne_zero ())
  refine ⟨lb, hnonce ▸ hlb, lt_of_lt_of_le (lt_of_toInt_lt hx hlt) (hjreq ▸ hle)⟩

theorem keeps_next (h : Keeps cfg s) (hs : Sys.Regular cfg s.sys) (hh : Sys.Heard cfg s.sys)
    (hg : s.FewCalls a) (hn : s.next cfg a = some s') : Keeps cfg s' := by
  cases a with
  | sys b =>
      obtain ⟨sys, hb, rfl⟩ := Option.map_eq_some_iff.mp hn
      exact h.sys hg hb
  | take t =>
      simp only [Lossy.next] at hn
      split at hn
      · cases hn
      split at hn
      · next hguard =>
          cases hn
          refine ⟨h.done, .inl rfl, fun req hreq => ?_, h.xid⟩
          rcases hreq with hreq | ⟨u, hu⟩
          · exact h.past req (.inl hreq)
          · by_cases hut : u = t
            · subst hut
              have hu : Function.update s.forgot u s.dupReq.buf u = some req := hu
              rw [Function.update_self] at hu
              exact h.past_of_take hs hh hguard.2.1 hguard.2.2 hu
            · have hu : Function.update s.forgot t s.dupReq.buf u = some req := hu
              rw [Function.update_of_ne hut] at hu
              exact h.past req (.inr ⟨u, hu⟩)
      · cases hn
  | resend t c =>
      simp only [Lossy.next] at hn
      split at hn
      · cases hn
      next req hforgot =>
        cases hn
        have hold : ∀ req, Past cfg s.sys req → Past cfg
            { s.sys with requests := (c, req) :: s.sys.requests } req := fun _ hp =>
          ⟨hp.call, hp.below⟩
        refine ⟨h.done, h.dup, fun req' hreq => ?_, h.xid⟩
        suffices hp : Past cfg s.sys req' from ⟨hp.call, hp.below⟩
        rcases hreq with hreq | ⟨u, hu⟩
        · rcases List.mem_cons.mp hreq with rfl | hreq
          · exact h.past _ (.inr ⟨t, hforgot⟩)
          · exact h.past req' (.inl hreq)
        · have hu : Function.update s.forgot t none u = some req' := hu
          by_cases hut : u = t
          · subst hut
            rw [Function.update_self] at hu
            cases hu
          · rw [Function.update_of_ne hut] at hu
            exact h.past req' (.inr ⟨u, hu⟩)
  | record t =>
      simp only [Lossy.next] at hn
      split at hn
      · cases hn
      next call ht =>
        split at hn
        · next hguard =>
            cases hn
            have hreply : call.reply ≠ none := Option.isSome_iff_ne_none.mp hguard.2.1
            have hret : call.ret ≠ none := Option.isSome_iff_ne_none.mp hguard.1
            refine ⟨?_, ?_, h.past, h.xid⟩
            · rcases le_total s.xidRepDone (toInt call.req.xidRep) with hle | hle
              · exact .inr ⟨t, call, ht, hreply, max_eq_right hle⟩
              · simp only [max_eq_left hle]
                exact h.done
            · simp only
              split
              · exact h.dup
              · exact .inr ⟨t, call, ht, hreply, hret, rfl⟩
        · cases hn

/-- What holds along the runs with few calls and without overtaking. -/
structure Inv (cfg : Config Unit Unit) (s : Lossy) : Prop where
  regular : Sys.Regular cfg s.sys
  heard : Sys.Heard cfg s.sys
  keeps : Keeps cfg s

theorem inv_init : Inv cfg Lossy.init where
  regular := .init
  heard := Sys.heard_init
  keeps := keeps_init

theorem Inv.next (h : Inv cfg s) (hg : s.FewCalls a ∧ s.NoOvertake a)
    (hn : s.next cfg a = some s') : Inv cfg s' := by
  have hkeeps := keeps_next h.keeps h.regular h.heard hg.1 hn
  cases a with
  | sys b =>
      obtain ⟨sys, hb, rfl⟩ := Option.map_eq_some_iff.mp hn
      have hreg := h.regular.step (freshXids_of_fewCalls h.keeps.xid.1) hg.2 hb
      exact ⟨hreg, Sys.heard_next h.heard h.regular hreg hb, hkeeps⟩
  | take t =>
      simp only [Lossy.next] at hn
      split at hn
      · cases hn
      split at hn
      · cases hn
        exact ⟨h.regular, h.heard, hkeeps⟩
      · cases hn
  | resend t c =>
      simp only [Lossy.next] at hn
      split at hn
      · cases hn
      next req hforgot =>
        cases hn
        -- the call that made the request transmits it once more
        obtain ⟨u, call, hu, rfl, -, -⟩ := (h.keeps.past req (.inr ⟨t, hforgot⟩)).call
        have hb : s.sys.next cfg (.transmit () u c) =
            some { s.sys with requests := (c, call.req) :: s.sys.requests } := by
          simp [Sys.next, hu]
        have hreg := h.regular.step (a := .transmit () u c) trivial trivial hb
        exact ⟨hreg, Sys.heard_next h.heard h.regular hreg hb, hkeeps⟩
  | record t =>
      simp only [Lossy.next] at hn
      split at hn
      · cases hn
      split at hn
      · cases hn
        exact ⟨h.regular, h.heard, hkeeps⟩
      · cases hn

theorem inv_of_reached
    (h : (lossySystem cfg).ReachedVia (fun s a => s.FewCalls a ∧ s.NoOvertake a) s) : Inv cfg s :=
  h.invariant (P := Inv cfg) inv_init fun _ _ _ hi hg hn => hi.next hg hn

/-- A request `call1` sends once more for the lossy test belongs to a call that has
returned with its reply, and its handler has run once.  No copy of it that comes
to the check from then on is executed or answered with the saved reply: it is
found in progress or forgotten. -/
theorem forgotten_not_served
    (h : (lossySystem cfg).ReachedVia (fun s a => s.FewCalls a ∧ s.NoOvertake a) s)
    {req : Request} (hreq : req ∈ s.resent) :
    (∃ t call, (s.sys.clients ()).calls t = some call ∧ call.req = req ∧ call.reply ≠ none ∧
      call.ret ≠ none) ∧
    ((s.sys.servers ()).runs (cfg.cltNonce ()) req.xid).length = 1 ∧
    ∀ j job, (s.sys.servers ()).jobs j = some job → job.phase = .connSaved →
      job.req.xid = req.xid →
      ∃ r, (s.sys.servers ()).checkResult job.req = some r ∧
        (r.verdict = .inprogress ∨ r.verdict = .forgotten) := by
  have hi := inv_of_reached h
  obtain ⟨⟨t, call, ht, rfl, hreply, hret⟩, hbelow⟩ := hi.keeps.past req (.inl hreq)
  obtain ⟨r, hr⟩ := Option.ne_none_iff_exists'.mp hreply
  have hl := Sys.linked_of_reachedVia hi.regular
  obtain ⟨ho, hc⟩ := Server.cache_of_reachable (Sys.reachable_server hi.regular ())
  refine ⟨⟨t, call, ht, rfl, hreply, hret⟩, ?_, fun j job hj hp hx => ?_⟩
  · obtain ⟨e, he, -, -, -, -, hen, hex, -⟩ :=
      hi.heard.replied hl (Sys.remembered_of_reachedVia hi.regular) ht hr
    have hmem : e ∈ (s.sys.servers ()).runs (cfg.cltNonce ()) call.req.xid :=
      Server.mem_runs.mpr ⟨he, hen, hex⟩
    have hle := ho.runs_length_le (cfg.cltNonce_ne_zero ()) call.req.xid
    have hpos := List.length_pos_of_mem hmem
    omega
  · have hnonce := hl.traffic.made_nonce ((hl.traffic.servers ()).jobs j job hj)
    have hready := (hc.jobs j job hj).ready (.inr (.inl hp))
    unfold Server.checkResult
    rw [hnonce, hx]
    rw [hnonce] at hready
    exact (hi.heard.inTime t call ht hreply).not_served hc.wf hready hbelow _

/-- The step is a quiet one of the server, with activations below `N`, or not one of
the server. -/
def Quiet (N : Nat) (s : Lossy) : LossyAct → Bool
  | .sys b => s.sys.Quiet N b
  | _ => true

/-- A computed run overtakes nobody. -/
theorem reachedVia_noOvertake {N : Nat}
    (h : (lossySystem cfg).ReachedVia (fun s a => s.FewCalls a ∧ s.Quiet N a = true) s) :
    (lossySystem cfg).ReachedVia (fun s a => s.FewCalls a ∧ s.NoOvertake a) s := by
  refine h.imp fun s a hs _ hg => ⟨hg.1, ?_⟩
  have hserver : (serverMachine (cfg.server ())).ReachedVia (fun v b => v.Quiet N b = true)
      (s.sys.servers ()) := by
    refine hs.map (N := serverMachine (cfg.server ())) (fun s => s.sys.servers ()) rfl
      fun s s' a hg hn => ?_
    cases a with
    | sys b =>
        obtain ⟨sys, hb, rfl⟩ := Option.map_eq_some_iff.mp hn
        cases Sys.step_of_next hb with
        | server _ hv => exact .inr ⟨_, hg.2, by rw [Sys.setServer_servers_self]; exact hv⟩
        | bindFailure | call | transmit | finish | storeNonce | ignored | takenIn => exact .inl rfl
    | take | resend | record =>
        simp only [lossySystem, Lossy.next] at hn
        split at hn <;> grind
  cases a with
  | sys b =>
      cases b with
      | server _ b => exact (Server.jobsBelow_of_reachedVia hserver).noOvertake hg.2
      | _ => trivial
  | _ => trivial

/-- The call `req` of activation `t` is answered through job `t`. -/
def answered (t : Nat) (req : Request) : List LossyAct :=
  ((SysAct.call () t req.proc req.args :: Sys.arrives () t 3 () t req t) ++ Sys.runs () t 0 [] ++
    Sys.returns () t () t ⟨3, req, ⟨req.xid, 0, []⟩⟩).map .sys ++ [.record t]

/-- After two calls the bind request is sent once more, by the third one, and comes
to the check. -/
def bindResent : List LossyAct :=
  (Sys.binds Sys.oneClient () 3 () 0 0).map .sys ++ [.record 0] ++
    answered 1 (Sys.appRequest 7 2 1) ++ answered 2 (Sys.appRequest 7 3 2) ++
    [.sys (.call () 3 5 [1]), .take 3, .resend 3 4,
      .sys (.server () (.receive 3 4 (Sys.bindRequest 7) 3)),
      .sys (.server () (.createWindow 3)), .sys (.server () (.saveConn 3))]

theorem forgotten_not_served_bindResent : ∃ s, (lossySystem Sys.oneClient).ReachedVia
      (fun s a => s.FewCalls a ∧ s.NoOvertake a) s ∧
    s.resent = [Sys.bindRequest 7] ∧ ((s.sys.servers ()).runs 7 1).length = 1 ∧
    ∃ r, (s.sys.servers ()).checkResult (Sys.bindRequest 7) = some r ∧
      (r.verdict = .inprogress ∨ r.verdict = .forgotten) := by
  obtain ⟨s, hs, hp⟩ := @Machine.exists_reachedVia_of_run _ _ (lossySystem Sys.oneClient)
    (fun s a => s.FewCalls a ∧ s.Quiet 4 a = true) _
    (fun s => decide (s.resent = [Sys.bindRequest 7] ∧
      (s.sys.servers ()).jobs 3 = some ⟨4, Sys.bindRequest 7, 3, none, .connSaved⟩))
    bindResent (by decide)
  obtain ⟨hresent, hj⟩ := of_decide_eq_true hp
  have hvia := reachedVia_noOvertake hs
  obtain ⟨-, hruns, hcheck⟩ := forgotten_not_served hvia (hresent ▸ List.mem_singleton_self _)
  exact ⟨s, hvia, hresent, hruns, hcheck 3 _ hj rfl rfl⟩

end Lossy

end RpcLock
