import RpcLock.Rpc.Message
import RpcLock.Rpcc.XidWindow
import Mathlib.Logic.Function.Basic

/-!
# The client end: `call1`, `got_pdu` and `bind`

Any number of threads run `call1` on one `rpcc`.  An activation has a number of
its own, because `calls_` is indexed by xid and xids wrap around.  The steps are
the critical sections under `m_`: the entry of `call1`, its end, `got_pdu`, and
the update of `srv_nonce_` in `bind`.

The wait of `call1` ends when the call is done or its time is up, so the end is
enabled at any moment and returns what it finds.  `cancel` is in `Outcome`.
-/

namespace RpcLock.Rpcc

/-- An activation of `call1`. -/
structure Call where
  /-- The header packed on entry and the marshalled arguments. -/
  req : Request
  /-- What `got_pdu` took in: `ca.intret` and the payload, once `ca.done`. -/
  reply : Option Reply
  /-- What `call1` returned. -/
  ret : Option Int
  /-- Whether `bind` has stored the nonce this call returned. -/
  bound : Bool
deriving DecidableEq, Repr

/-- An `rpcc`. -/
structure Client where
  /-- `xid_` -/
  xid : UInt32
  /-- `srv_nonce_` -/
  srvNonce : UInt32
  /-- `bind_done_` -/
  bindDone : Bool
  /-- `calls_` -/
  pending : UInt32 → Option Nat
  /-- `xid_rep_window_` -/
  window : List UInt32
  /-- The activations of `call1`. -/
  calls : Nat → Option Call

/-- `rpcc::rpcc`. -/
def Client.init : Client where
  xid := 1
  srvNonce := 0
  bindDone := false
  pending _ := none
  window := [0]
  calls _ := none

/-- What `call1` returns: `ca.done ? ca.intret : timeout_failure`. -/
def Call.result (call : Call) : Int :=
  match call.reply with
  | some r => r.ret
  | none => RpcConst.timeoutFailure

/-- Take in a reply, unless the call is done. -/
def Call.takeIn (call : Call) (r : Reply) : Call :=
  if call.reply.isNone then { call with reply := some r } else call

namespace Client

/-- Set the entry of an activation. -/
def setCall (s : Client) (t : Nat) (call : Call) : Client :=
  { s with calls := Function.update s.calls t (some call) }

/-- Whether `call1` returns `bind_failure` at once. -/
def bindFails (s : Client) (proc : UInt32) : Bool :=
  decide (proc ≠ RpcConst.bind) && !s.bindDone || decide (proc = RpcConst.bind) && s.bindDone

/-- The request `call1` packs. -/
def packRequest (s : Client) (cltNonce proc : UInt32) (args : List UInt8) : Request where
  xid := s.xid
  proc := proc
  cltNonce := cltNonce
  srvNonce := s.srvNonce
  xidRep := front s.window
  args := args

/-- The entry of `call1` on activation `t`. -/
def call (cltNonce : UInt32) (s : Client) (t : Nat) (proc : UInt32) (args : List UInt8) :
    Option Client :=
  if (s.calls t).isSome then none
  else if s.bindFails proc then some s
  else some ({ s with
    xid := s.xid + 1
    pending := Function.update s.pending s.xid (some t) }.setCall t
      ⟨s.packRequest cltNonce proc args, none, none, false⟩)

/-- The end of `call1`: the entry of `calls_` goes, the xid is reported, and the
result is returned. -/
def finish (s : Client) (t : Nat) : Option Client :=
  match s.calls t with
  | none => none
  | some call =>
      if call.ret.isSome then none
      else some ({ s with
        pending := Function.update s.pending call.req.xid none
        window := updateXidRep s.window call.req.xid }.setCall t
          { call with ret := some call.result })

/-- The end of `rpcc::bind` when `call` returned 0. -/
def storeNonce (s : Client) (t : Nat) : Option Client :=
  match s.calls t with
  | none => none
  | some call =>
      if call.req.proc = RpcConst.bind ∧ call.ret = some 0 ∧ call.bound = false then
        match call.reply.bind fun r => readNonce r.payload with
        -- `call_m` fails its VERIFY
        | none => none
        | some nonce => some ({ s with bindDone := true, srvNonce := nonce }.setCall t
            { call with bound := true })
      else none

/-- `rpcc::got_pdu`. -/
def gotPdu (s : Client) (r : Reply) : Client :=
  let reported := { s with window := updateXidRep s.window r.xid }
  match s.pending r.xid with
  | none => reported
  | some t =>
      match s.calls t with
      -- not reached: an entry of `calls_` is a running activation
      | none => reported
      | some call => reported.setCall t (call.takeIn r)

@[simp] theorem setCall_xid (s : Client) (t : Nat) (c : Call) : (s.setCall t c).xid = s.xid := rfl
@[simp] theorem setCall_srvNonce (s : Client) (t : Nat) (c : Call) :
    (s.setCall t c).srvNonce = s.srvNonce := rfl
@[simp] theorem setCall_bindDone (s : Client) (t : Nat) (c : Call) :
    (s.setCall t c).bindDone = s.bindDone := rfl
@[simp] theorem setCall_pending (s : Client) (t : Nat) (c : Call) :
    (s.setCall t c).pending = s.pending := rfl
@[simp] theorem setCall_window (s : Client) (t : Nat) (c : Call) :
    (s.setCall t c).window = s.window := rfl
@[simp] theorem setCall_calls_self (s : Client) (t : Nat) (c : Call) :
    (s.setCall t c).calls t = some c := by simp [setCall]
theorem setCall_calls_ne (s : Client) {t u : Nat} (c : Call) (h : u ≠ t) :
    (s.setCall t c).calls u = s.calls u := by simp [setCall, h]

/-- After setting the entry of `t`, an entry is the new one or an old one. -/
theorem setCall_calls_cases {s : Client} {t u : Nat} {c c' : Call}
    (h : (s.setCall t c).calls u = some c') :
    (u = t ∧ c' = c) ∨ (u ≠ t ∧ s.calls u = some c') := by
  by_cases hu : u = t
  · subst hu
    rw [setCall_calls_self] at h
    exact .inl ⟨rfl, (Option.some.inj h).symm⟩
  · rw [setCall_calls_ne s c hu] at h
    exact .inr ⟨hu, h⟩

/-! ## What the steps can do -/

variable {s s' : Client} {t : Nat} {n proc : UInt32} {args : List UInt8}

theorem call_inv (h : s.call n t proc args = some s') :
    s' = s ∨ (s.calls t = none ∧ s.bindFails proc = false ∧
      s' = ({ s with
        xid := s.xid + 1
        pending := Function.update s.pending s.xid (some t) } : Client).setCall t
          ⟨s.packRequest n proc args, none, none, false⟩) := by
  unfold Client.call at h
  split at h
  · cases h
  · next hc =>
      split at h
      · cases h
        exact .inl rfl
      · next hb =>
          cases h
          exact .inr ⟨by simpa using hc, by simpa using hb, rfl⟩

theorem finish_inv (h : s.finish t = some s') :
    ∃ call, s.calls t = some call ∧ call.ret = none ∧
      s' = ({ s with
        pending := Function.update s.pending call.req.xid none
        window := updateXidRep s.window call.req.xid } : Client).setCall t
          { call with ret := some call.result } := by
  unfold Client.finish at h
  cases hc : s.calls t with
  | none => simp [hc] at h
  | some call =>
      simp only [hc] at h
      split at h
      · cases h
      · next hr =>
          cases h
          exact ⟨call, rfl, by simpa using hr, rfl⟩

theorem storeNonce_inv (h : s.storeNonce t = some s') :
    ∃ call r nonce, s.calls t = some call ∧ call.req.proc = RpcConst.bind ∧ call.ret = some 0 ∧
      call.reply = some r ∧ readNonce r.payload = some nonce ∧
      s' = ({ s with bindDone := true, srvNonce := nonce } : Client).setCall t
        { call with bound := true } := by
  unfold Client.storeNonce at h
  cases hc : s.calls t with
  | none => simp [hc] at h
  | some call =>
      simp only [hc] at h
      split at h
      · next hg =>
          cases hr : call.reply with
          | none => simp [hr] at h
          | some r =>
              cases hnonce : readNonce r.payload with
              | none => simp [hr, hnonce] at h
              | some nonce =>
                  simp only [hr, Option.bind_some, hnonce, Option.some.injEq] at h
                  exact ⟨call, r, nonce, rfl, hg.1, hg.2.1, hr, hnonce, by rw [hr, h]⟩
      · cases h

/-- A reply changes the window, and the pending call of its xid if that call is
not done. -/
theorem gotPdu_cases (s : Client) (r : Reply) :
    (s.gotPdu r = { s with window := updateXidRep s.window r.xid } ∧
      ∀ t call, s.pending r.xid = some t → s.calls t = some call → call.reply ≠ none) ∨
    ∃ t call, s.pending r.xid = some t ∧ s.calls t = some call ∧ call.reply = none ∧
      s.gotPdu r = ({ s with window := updateXidRep s.window r.xid } : Client).setCall t
        { call with reply := some r } := by
  cases hp : s.pending r.xid with
  | none => exact .inl ⟨by simp only [Client.gotPdu, hp], by simp⟩
  | some t =>
      cases hc : s.calls t with
      | none =>
          refine .inl ⟨by simp only [Client.gotPdu, hp, hc], fun u call hu hcall => ?_⟩
          cases hu
          rw [hc] at hcall
          cases hcall
      | some call =>
          simp only [Client.gotPdu, hp, hc]
          cases hr : call.reply with
          | none => exact .inr ⟨t, call, rfl, hc, hr, by simp [Call.takeIn, hr]⟩
          | some r' =>
              have hsame : Function.update s.calls t (some call) = s.calls := by
                rw [← hc, Function.update_eq_self]
              refine .inl ⟨by simp [Call.takeIn, hr, setCall, hsame], fun u call' hu hcall => ?_⟩
              cases hu
              rw [hc] at hcall
              cases hcall
              simp [hr]

end Client

end RpcLock.Rpcc
