import RpcLock.Library.Linearizable
import RpcLock.System.EndToEnd
import RpcLock.System.Records

/-!
# Remote calls are linearizable

An instance whose handlers act on one object, each in one step, is that object
at a distance.  What the clients see of the calls to it (the entry of `call1`, and
its return with a result) is a linearizable history, and the linearization is the
order in which the handlers were executed.  A call that ends in a time-out has not
returned: its handler may have been executed, may be executed later, or never.

A result was computed by an execution of the call's own request, so it is in the
log when `call1` returns.  A handler is executed once for a call, after the call
was made.
-/

namespace RpcLock

open Rpcc Rpcs

/-- `clt_nonce` and `xid`. -/
abbrev CallId : Type := UInt32 × UInt32

/-- The procedure and the marshalled arguments. -/
abbrev CallArg : Type := UInt32 × List UInt8

/-- What `call1` returns, and the marshalled result. -/
abbrev CallVal : Type := Int × List UInt8

/-- An object that is called remotely. -/
abbrev RemoteObject (σ : Type) : Type := SeqObject σ CallArg CallVal

namespace Rpcs

/-- An execution of a handler as an operation. -/
def Exec.applied (e : Exec) : Applied CallId CallArg CallVal where
  id := (e.req.cltNonce, e.req.xid)
  arg := (e.req.proc, e.req.args)
  val := (e.ret, e.out)

/-- The executions of application handlers, in their order. -/
def appLog (execs : List Exec) : List (Applied CallId CallArg CallVal) :=
  (execs.filter fun e => decide (e.req.proc ≠ RpcConst.bind)).map Exec.applied

theorem mem_appLog {execs : List Exec} {x : Applied CallId CallArg CallVal} :
    x ∈ appLog execs ↔ ∃ e ∈ execs, e.req.proc ≠ RpcConst.bind ∧ e.applied = x := by
  simp only [appLog, List.mem_map, List.mem_filter, decide_eq_true_eq, and_assoc]

theorem appLog_snoc (execs : List Exec) (e : Exec) :
    appLog (execs ++ [e]) =
      appLog execs ++ if e.req.proc ≠ RpcConst.bind then [e.applied] else [] := by
  unfold appLog
  rw [List.filter_append, List.map_append]
  by_cases hb : e.req.proc = RpcConst.bind
  · simp [hb]
  · simp [hb]

end Rpcs

namespace Sys

section

variable {K I : Type}

/-- What a step shows of the application calls addressed to instance `i`. -/
def observe (cfg : Config K I) (i : I) (s : Sys K I) :
    SysAct K I → List (CallEvent CallId CallArg CallVal)
  | .call k _ proc args =>
      let c := s.clients k
      if proc ≠ RpcConst.bind ∧ c.bindFails proc = false ∧ c.srvNonce = cfg.srvNonce i then
        [.call (cfg.cltNonce k, c.xid) (proc, args)]
      else []
  | .finish k t =>
      match (s.clients k).calls t with
      | none => []
      | some call =>
          match call.reply with
          | none => []
          | some r =>
              if call.req.proc ≠ RpcConst.bind ∧ call.req.srvNonce = cfg.srvNonce i ∧
                  0 ≤ r.ret then
                [.ret (cfg.cltNonce k, call.req.xid) (r.ret, r.payload)]
              else []
  | _ => []

@[simp] theorem observe_server (cfg : Config K I) (i : I) (s : Sys K I) (l : I) (b : ServerAct) :
    observe cfg i s (.server l b) = [] := rfl

/-- A handler of instance `i` does what the object does in the state its
executions so far have left it in. -/
def ActsOn {σ : Type} (O : RemoteObject σ) (i : I) (s : Sys K I) : SysAct K I → Prop
  | .server l (.runHandler j ret out) => l = i → ∀ job ∈ (s.servers i).jobs j,
      job.req.proc ≠ RpcConst.bind →
        (O.apply (O.after (appLog (s.servers i).execs)) (job.req.proc, job.req.args)).2 =
          (ret, out)
  | _ => True

end

section

variable {K I : Type} {cfg : Config K I} {s s' : Sys K I} {a : SysAct K I} {i : I}
  {H : List (CallEvent CallId CallArg CallVal)} {σ : Type} {O : RemoteObject σ}

/-- The history of the calls to instance `i`, against the calls of the clients and
the executions of the instance. -/
structure History (cfg : Config K I) (O : RemoteObject σ) (i : I) (s : Sys K I)
    (H : List (CallEvent CallId CallArg CallVal)) : Prop where
  linearization : O.Linearization H (appLog (s.servers i).execs)
  wellFormed : WellFormedHistory H
  calls : ∀ k t call, (s.clients k).calls t = some call → call.req.proc ≠ RpcConst.bind →
    call.req.srvNonce = cfg.srvNonce i →
      .call (cfg.cltNonce k, call.req.xid) (call.req.proc, call.req.args) ∈ H
  called : ∀ id arg, .call id arg ∈ H → ∃ k t call, (s.clients k).calls t = some call ∧
    id = (cfg.cltNonce k, call.req.xid)
  returned : ∀ id val, .ret id val ∈ H → ∃ k t call, (s.clients k).calls t = some call ∧
    id = (cfg.cltNonce k, call.req.xid) ∧ call.ret ≠ none

theorem history_init : History cfg O i Sys.init [] where
  linearization := .empty O
  wellFormed := .empty
  calls := by simp [Sys.init, Client.init]
  called id arg h := by cases h
  returned id val h := by cases h

/-- An application call is addressed to an instance. -/
theorem Linked.addressed (h : Linked cfg s) (ho : ∀ i, (s.servers i).Once)
    (hs : ∀ i, (s.servers i).Serves (cfg.server i)) {k : K} {t : Nat} {call : Call}
    (ht : (s.clients k).calls t = some call) (hproc : call.req.proc ≠ RpcConst.bind) :
    ∃ i, call.req.srvNonce = cfg.srvNonce i := h.nonce_of_bind ho hs (h.app k t call ht hproc)

/-- The instance that executes an application call is the one it is addressed to. -/
theorem Linked.srvNonce_of_exec (h : Linked cfg s) (ho : ∀ i, (s.servers i).Once)
    (hs : ∀ i, (s.servers i).Serves (cfg.server i)) {k : K} {t : Nat} {call : Call} {e : Exec}
    (ht : (s.clients k).calls t = some call) (hproc : call.req.proc ≠ RpcConst.bind)
    (he : e ∈ (s.servers i).execs) (hreq : e.req = call.req) :
    call.req.srvNonce = cfg.srvNonce i := by
  rcases (hs i).execs e he with h0 | hi
  · obtain ⟨l, hl⟩ := h.addressed ho hs ht hproc
    rw [hreq, hl] at h0
    exact absurd h0 (cfg.srvNonce_ne_zero l)
  · rw [hreq] at hi
    exact hi

/-- An execution is for a call of the client named in its request. -/
theorem Linked.call_of_exec (h : Linked cfg s) (ho : (s.servers i).Once) {e : Exec}
    (he : e ∈ (s.servers i).execs) : ∃ k t call, (s.clients k).calls t = some call ∧
      call.req = e.req ∧ e.req.cltNonce = cfg.cltNonce k := by
  obtain ⟨job, hj, hreq, -, -⟩ := ho.exec_job e he
  have hmade := (h.traffic.servers i).jobs _ job hj
  obtain ⟨t, call, ht, hcall⟩ := hmade
  exact ⟨_, t, call, ht, hcall.trans hreq, hreq ▸ h.traffic.made_nonce ⟨t, call, ht, hcall⟩⟩

end

section Steps

variable {K I : Type} [DecidableEq K] [DecidableEq I] {cfg : Config K I} {s s' : Sys K I}
  {a : SysAct K I} {i : I} {H : List (CallEvent CallId CallArg CallVal)} {σ : Type}
  {O : RemoteObject σ}

/-- A step that makes no call keeps the history, with what the instance has
executed by then. -/
theorem History.keep (h : History cfg O i s H) (hn : s.next cfg a = some s')
    (hcall : ∀ k t proc args, a ≠ .call k t proc args)
    (hlin : O.Linearization H (appLog (s'.servers i).execs)) : History cfg O i s' H where
  linearization := hlin
  wellFormed := h.wellFormed
  calls k t call ht hproc hi := by
    rcases call_cases hn ht with ⟨call₀, ht₀, hreq⟩ | ⟨proc, args, ha, -⟩
    · rw [hreq] at hproc hi ⊢
      exact h.calls k t call₀ ht₀ hproc hi
    · exact absurd ha (hcall _ _ _ _)
  called id arg hm := by
    obtain ⟨k, t, call, ht, hid⟩ := h.called id arg hm
    obtain ⟨call', ht', hreq, -⟩ := call_of_next hn ht
    exact ⟨k, t, call', ht', by rw [hreq]; exact hid⟩
  returned id val hm := by
    obtain ⟨k, t, call, ht, hid, hret⟩ := h.returned id val hm
    obtain ⟨call', ht', hreq, hkeep⟩ := call_of_next hn ht
    obtain ⟨v, hv⟩ := Option.ne_none_iff_exists'.mp hret
    exact ⟨k, t, call', ht', by rw [hreq]; exact hid, by rw [hkeep v hv]; simp⟩

omit [DecidableEq K] [DecidableEq I] in
/-- No call has the xid of the next one. -/
theorem Linked.fresh_id (h : Linked cfg s) {k : K} (hx : (s.clients k).xid ≠ 0) {l : K} {u : Nat}
    {call : Call} (hu : (s.clients l).calls u = some call) :
    (cfg.cltNonce l, call.req.xid) ≠ (cfg.cltNonce k, (s.clients k).xid) := by
  intro he
  obtain ⟨hn, hxid⟩ := Prod.mk.inj he
  have hlk : l = k := cfg.cltNonce_injective hn
  subst hlk
  exact absurd hxid (ne_of_lt ((h.traffic.clients l).lt u call hu hx))

/-- A call that is there after the entry of `call1` was there before, or is the one
that was made. -/
theorem call_of_enter {k l : K} {t u : Nat} {proc : UInt32} {args : List UInt8} {call : Call}
    (hn : s.next cfg (.call k t proc args) = some s') (hu : (s'.clients l).calls u = some call) :
    (∃ call₀, (s.clients l).calls u = some call₀ ∧ call.req = call₀.req) ∨
      l = k ∧ u = t ∧ (s.clients k).bindFails proc = false ∧
        call.req = (s.clients k).packRequest (cfg.cltNonce k) proc args := by
  cases step_of_next hn with
  | bindFailure => exact .inl ⟨call, hu, rfl⟩
  | call ht hb =>
      by_cases hlu : l = k ∧ u = t
      · obtain ⟨rfl, rfl⟩ := hlu
        rw [setClient_clients_self, Client.setCall_calls_self] at hu
        cases hu
        exact .inr ⟨rfl, rfl, hb, rfl⟩
      · exact .inl ⟨call, (calls_setCall_ne s (by rfl) _ hlu).symm.trans hu, rfl⟩

/-- `call1` is entered. -/
theorem History.enter (h : History cfg O i s H) (hl : Linked cfg s)
    (ho : ∀ i, (s.servers i).Once) {k : K} {t : Nat} {proc : UInt32} {args : List UInt8}
    (hx : (s.clients k).xid ≠ 0) (hn : s.next cfg (.call k t proc args) = some s') :
    History cfg O i s' (H ++ observe cfg i s (.call k t proc args)) := by
  have hsrv : s'.servers = s.servers := servers_of_next hn (by simp)
  have hcalled : ∀ id arg, .call id arg ∈ H → ∃ k t call, (s'.clients k).calls t = some call ∧
      id = (cfg.cltNonce k, call.req.xid) := by
    intro id arg hm
    obtain ⟨l, u, call, hu, hid⟩ := h.called id arg hm
    obtain ⟨call', hu', hreq, -⟩ := call_of_next hn hu
    exact ⟨l, u, call', hu', by rw [hreq]; exact hid⟩
  have hreturned : ∀ id val, .ret id val ∈ H → ∃ k t call, (s'.clients k).calls t = some call ∧
      id = (cfg.cltNonce k, call.req.xid) ∧ call.ret ≠ none := by
    intro id val hm
    obtain ⟨l, u, call, hu, hid, hret⟩ := h.returned id val hm
    obtain ⟨call', hu', hreq, hkeep⟩ := call_of_next hn hu
    obtain ⟨v, hv⟩ := Option.ne_none_iff_exists'.mp hret
    exact ⟨l, u, call', hu', by rw [hreq]; exact hid, by rw [hkeep v hv]; simp⟩
  by_cases hc : proc ≠ RpcConst.bind ∧ (s.clients k).bindFails proc = false ∧
      (s.clients k).srvNonce = cfg.srvNonce i
  · have hobs : observe cfg i s (.call k t proc args) =
        [.call (cfg.cltNonce k, (s.clients k).xid) (proc, args)] := if_pos hc
    have hfresh : ∀ arg, .call (cfg.cltNonce k, (s.clients k).xid) arg ∉ H := by
      intro arg hm
      obtain ⟨l, u, call, hu, hid⟩ := h.called _ _ hm
      exact hl.fresh_id hx hu hid.symm
    have hlog : ∀ e ∈ appLog (s.servers i).execs,
        e.id ≠ (cfg.cltNonce k, (s.clients k).xid) := by
      intro e he
      obtain ⟨x, hmem, -, rfl⟩ := mem_appLog.mp he
      obtain ⟨l, u, call, hu, hreq, hnonce⟩ := hl.call_of_exec (ho i) hmem
      rw [Exec.applied, hnonce, ← hreq]
      exact hl.fresh_id hx hu
    rw [hobs]
    refine ⟨hsrv ▸ h.linearization.call _ hlog, h.wellFormed.call _ hfresh,
      fun l u call hu hp hi => ?_, fun id arg hm => ?_, fun id val hm => ?_⟩
    · rcases call_of_enter hn hu with ⟨call₀, hu₀, hreq⟩ | ⟨rfl, rfl, -, hreq⟩
      · rw [hreq] at hp hi ⊢
        exact List.mem_append_left _ (h.calls l u call₀ hu₀ hp hi)
      · rw [hreq]
        exact List.mem_append_right _ List.mem_cons_self
    · rcases List.mem_append.mp hm with hm | hm
      · exact hcalled id arg hm
      · rw [List.mem_singleton] at hm
        cases hm
        obtain ⟨hnone, call, hcall, -⟩ := call_made hn hc.2.1
        refine ⟨k, t, call, hcall, ?_⟩
        rcases call_of_enter hn hcall with ⟨call₀, hu₀, -⟩ | ⟨-, -, -, hreq⟩
        · rw [hnone] at hu₀
          cases hu₀
        · rw [hreq]
          rfl
    · rcases List.mem_append.mp hm with hm | hm
      · exact hreturned id val hm
      · rw [List.mem_singleton] at hm
        cases hm
  · have hobs : observe cfg i s (.call k t proc args) = [] := if_neg hc
    rw [hobs, List.append_nil]
    refine ⟨hsrv ▸ h.linearization, h.wellFormed, fun l u call hu hp hi => ?_, hcalled, hreturned⟩
    rcases call_of_enter hn hu with ⟨call₀, hu₀, hreq⟩ | ⟨rfl, rfl, hb, hreq⟩
    · rw [hreq] at hp hi ⊢
      exact h.calls l u call₀ hu₀ hp hi
    · rw [hreq] at hp hi
      exact absurd ⟨hp, hb, hi⟩ hc

/-- `call1` returns. -/
theorem History.finish (h : History cfg O i s H) (hl : Linked cfg s)
    (ho : ∀ i, (s.servers i).Once) (hs : ∀ i, (s.servers i).Serves (cfg.server i)) {k : K}
    {t : Nat} (hn : s.next cfg (.finish k t) = some s') :
    History cfg O i s' (H ++ observe cfg i s (.finish k t)) := by
  have hsrv : s'.servers = s.servers := servers_of_next hn (by simp)
  have hkeep : History cfg O i s' H := h.keep hn (by simp) (hsrv ▸ h.linearization)
  obtain ⟨call, ht, hnone, ht'⟩ := call_finished hn
  simp only [observe, ht]
  cases hr : call.reply with
  | none => simpa using hkeep
  | some r =>
      simp only
      split
      case isFalse => simpa using hkeep
      case isTrue hc =>
        obtain ⟨hproc, hi, h0⟩ := hc
        obtain ⟨l, hans⟩ := hl.reply k t call r ht hr
        obtain ⟨e, he, -, -, -, -, hen, hex, -, hpdu⟩ := hans.of_nonneg h0
        have hreq : e.req = call.req := hl.exec_req (ho l) ht he hen hex
        have hli : l = i := cfg.srvNonce_injective
          ((hl.srvNonce_of_exec ho hs ht hproc he hreq).symm.trans hi)
        subst hli
        have hmem : e.applied ∈ appLog (s'.servers l).execs :=
          mem_appLog.mpr ⟨e, hsrv ▸ he, hreq ▸ hproc, rfl⟩
        have hev : (.ret (cfg.cltNonce k, call.req.xid) (r.ret, r.payload) :
            CallEvent CallId CallArg CallVal) = .ret e.applied.id e.applied.val := by
          simp only [Exec.applied, hen, hex, hpdu]
        rw [hev]
        refine ⟨hkeep.linearization.ret hmem, hkeep.wellFormed.ret _ ?_ ?_, ?_, ?_, ?_⟩
        · exact ⟨_, hkeep.linearization.called _ hmem⟩
        · intro b hm
          obtain ⟨k', t', call', hu, hid, hret⟩ := h.returned _ _ hm
          obtain ⟨hk, hx⟩ := Prod.mk.inj hid
          have hkk : k = k' := cfg.cltNonce_injective (hen.symm.trans hk)
          subst hkk
          have htt : t = t' := (hl.traffic.clients k).xid_inj t t' call call' ht hu
            (hex.symm.trans hx)
          subst htt
          rw [ht] at hu
          cases hu
          exact hret hnone
        · intro l' u call' hu hp hi'
          exact List.mem_append_left _ (hkeep.calls l' u call' hu hp hi')
        · intro id arg hm
          rcases List.mem_append.mp hm with hm | hm
          · exact hkeep.called id arg hm
          · rw [List.mem_singleton] at hm
            cases hm
        · intro id val hm
          rcases List.mem_append.mp hm with hm | hm
          · exact hkeep.returned id val hm
          · rw [List.mem_singleton] at hm
            cases hm
            exact ⟨k, t, _, ht', by simp only [Exec.applied, hen, hex], by simp⟩

/-- A handler is executed. -/
theorem History.execute (h : History cfg O i s H) (hl : Linked cfg s')
    (ho : ∀ i, (s'.servers i).Once) (hs : ∀ i, (s'.servers i).Serves (cfg.server i)) {j : Nat}
    {ret : Int} {out : List UInt8} (hacts : s.ActsOn O i (.server i (.runHandler j ret out)))
    (hn : s.next cfg (.server i (.runHandler j ret out)) = some s') : History cfg O i s' H := by
  obtain ⟨job, hj, hex⟩ := execs_of_runHandler hn
  refine h.keep hn (by simp) ?_
  rw [hex, appLog_snoc]
  by_cases hproc : job.req.proc = RpcConst.bind
  · rw [if_neg (not_not.mpr hproc), List.append_nil]
    exact h.linearization
  · rw [if_pos hproc]
    have hmem : ⟨j, job.req, ret, out⟩ ∈ (s'.servers i).execs := by
      rw [hex]
      exact List.mem_append_right _ List.mem_cons_self
    obtain ⟨k, t, call, ht, hreq, hnonce⟩ := hl.call_of_exec (ho i) hmem
    have hcall : .call (job.req.cltNonce, job.req.xid) (job.req.proc, job.req.args) ∈ H := by
      rcases call_cases hn ht with ⟨call₀, ht₀, hreq₀⟩ | ⟨proc, args, he, -⟩
      · have hi := hl.srvNonce_of_exec ho hs ht (hreq ▸ hproc) hmem hreq.symm
        have hm := h.calls k t call₀ ht₀ (by rw [← hreq₀, hreq]; exact hproc)
          (by rw [← hreq₀]; exact hi)
        rw [← hreq₀, hreq] at hm
        rw [hnonce]
        exact hm
      · cases he
    refine h.linearization.apply (hacts rfl job hj hproc) hcall fun f hf hid => ?_
    obtain ⟨x, hx, -, rfl⟩ := mem_appLog.mp hf
    obtain ⟨n, hxn⟩ := List.getElem?_of_mem hx
    have hlt : n < (s.servers i).execs.length := (List.getElem?_eq_some_iff.mp hxn).1
    have hn' : (s'.servers i).execs[n]? = some x := by
      rw [hex, List.getElem?_append_left hlt, hxn]
    have hlast : (s'.servers i).execs[(s.servers i).execs.length]? =
        some ⟨j, job.req, ret, out⟩ := by
      rw [hex, List.getElem?_concat_length]
    obtain ⟨hc, hxid⟩ := Prod.mk.inj hid
    have hne : x.req.cltNonce ≠ 0 := by
      rw [hc, hnonce]
      exact cfg.cltNonce_ne_zero k
    exact absurd ((ho i).exec_index_unique hn' hlast hne hc hxid) (Nat.ne_of_lt hlt)

/-- Every step keeps the history. -/
theorem History.next (h : History cfg O i s H) (hl : Linked cfg s) (hl' : Linked cfg s')
    (ho : ∀ i, (s.servers i).Once) (ho' : ∀ i, (s'.servers i).Once)
    (hs : ∀ i, (s.servers i).Serves (cfg.server i))
    (hs' : ∀ i, (s'.servers i).Serves (cfg.server i)) (hfresh : s.FreshXids a)
    (hacts : s.ActsOn O i a) (hn : s.next cfg a = some s') :
    History cfg O i s' (H ++ observe cfg i s a) := by
  have hsame : ∀ a, s.next cfg a = some s' → (∀ l b, a ≠ .server l b) →
      (∀ k t proc args, a ≠ .call k t proc args) → History cfg O i s' (H ++ []) := by
    intro a hn hsrv hcall
    rw [List.append_nil]
    exact h.keep hn hcall (servers_of_next hn hsrv ▸ h.linearization)
  cases a with
  | call k t proc args => exact h.enter hl ho hfresh hn
  | finish k t => exact h.finish hl ho hs hn
  | transmit k t c => exact hsame _ hn (by simp) (by simp)
  | storeNonce k t => exact hsame _ hn (by simp) (by simp)
  | gotPdu k l m => exact hsame _ hn (by simp) (by simp)
  | server l b =>
      have hother : (s'.servers i).execs = (s.servers i).execs →
          History cfg O i s' (H ++ observe cfg i s (.server l b)) := by
        intro hex
        rw [observe_server, List.append_nil]
        exact h.keep hn (by simp) (hex ▸ h.linearization)
      by_cases hli : l = i
      · subst hli
        cases b with
        | runHandler j ret out =>
            rw [observe_server, List.append_nil]
            exact h.execute hl' ho' hs' hacts hn
        | _ => exact hother (execs_of_server (by simp) hn)
      · refine hother ?_
        cases step_of_next hn with
        | server => rw [setServer_servers_ne _ _ (Ne.symm hli)]

/-- The instance is the object at a distance: in every run in which no client
reuses an xid, no check overtakes the sending of a saved reply and the handlers of
instance `i` act on the object `O`, the history of the calls to the instance is
linearizable, in the order in which the handlers were executed. -/
theorem calls_linearizable (O : RemoteObject σ) (i : I)
    {p : Sys K I × List (CallEvent CallId CallArg CallVal)}
    (h : ((system cfg).recording (observe cfg i)).ReachedVia
      (fun p a => FreshXids p.1 a ∧ NoOvertake p.1 a ∧ ActsOn O i p.1 a) p) :
    WellFormedHistory p.2 ∧ O.Linearization p.2 (appLog (p.1.servers i).execs) := by
  suffices hh : History cfg O i p.1 p.2 from ⟨hh.wellFormed, hh.linearization⟩
  have hfacts : ∀ {p : Sys K I × List (CallEvent CallId CallArg CallVal)},
      ((system cfg).recording (observe cfg i)).ReachedVia
        (fun p a => FreshXids p.1 a ∧ NoOvertake p.1 a ∧ ActsOn O i p.1 a) p →
      Linked cfg p.1 ∧ (∀ i, (p.1.servers i).Once) ∧
        ∀ i, (p.1.servers i).Serves (cfg.server i) := by
    intro p hp
    have hr : (system cfg).ReachedVia
        (fun s a => FreshXids s a ∧ NoOvertake s a ∧ ActsOn O i s a) p.1 := hp.of_recording
    have hvia := hr.mono (H := fun s a => FreshXids s a ∧ NoOvertake s a)
      fun _ _ hg => ⟨hg.1, hg.2.1⟩
    exact ⟨linked_of_reachedVia hvia,
      fun l => (sound_server (hvia.mono fun _ _ hg => hg.2) l).once,
      fun l => Server.serves_of_reachable (reachable_server hvia l)⟩
  induction h with
  | init => exact history_init
  | @step p p' a hp hg hn ih =>
      obtain ⟨hl, ho, hs⟩ := hfacts hp
      obtain ⟨hl', ho', hs'⟩ := hfacts (hp.step hg hn)
      obtain ⟨s', hs'', rfl⟩ := Option.map_eq_some_iff.mp hn
      exact ih.next hl hl' ho ho' hs hs' hg.1 hg.2.2 hs''

/-- A run with observations in which no check frees anything overtakes nobody. -/
theorem recording_noOvertake {β : Type} {obs : Sys K I → SysAct K I → List β}
    {G : Sys K I → SysAct K I → Prop} {p : Sys K I × List β}
    (h : ((system cfg).recording obs).ReachedVia
      (fun p a => G p.1 a ∧ p.1.FreesNothing a = true) p) :
    ((system cfg).recording obs).ReachedVia (fun p a => G p.1 a ∧ p.1.NoOvertake a) p := by
  refine h.imp fun p a _ hs hg => ⟨hg.1, ?_⟩
  have hs : (system cfg).ReachedVia (fun s a => G s a ∧ s.NoOvertake a) p.1 := hs.of_recording
  exact noOvertake_of_freesNothing (hs.mono fun _ _ hg => hg.2) hg.2

end Steps

/-! ## A register -/

instance {K I : Type} [DecidableEq I] {σ : Type} (O : RemoteObject σ) (i : I) (s : Sys K I)
    (a : SysAct K I) : Decidable (s.ActsOn O i a) :=
  match a with
  | .server l b =>
      match b with
      | .runHandler j ret out =>
          inferInstanceAs (Decidable (l = i → ∀ job ∈ (s.servers i).jobs j,
            job.req.proc ≠ RpcConst.bind →
              (O.apply (O.after (appLog (s.servers i).execs)) (job.req.proc, job.req.args)).2 =
                (ret, out)))
      | .receive _ _ _ _ | .createWindow _ | .saveConn _ | .check _ | .packReplyHeader _
      | .addReply _ | .pickConn _ _
      | .send _ => .isTrue trivial
  | .call _ _ _ _ | .transmit _ _ _ | .finish _ _ | .storeNonce _ _ | .gotPdu _ _ _ =>
      .isTrue trivial

/-- A register whose only operation stores its argument and returns the old value. -/
def swapRegister : RemoteObject (List UInt8) where
  init := []
  apply v op := (op.2, (0, v))

/-- Both clients swap.  The call of client `true` is made second and executed
first. -/
def bothSwap : List (SysAct Bool Unit) :=
  binds twoClients false 3 () 0 0 ++ binds twoClients true 4 () 1 1 ++
  [.call false 1 5 [1], .call true 1 5 [2]] ++
  arrives true 1 4 () 2 ⟨2, 5, 8, 9, 1, [2]⟩ 2 ++ runs () 2 0 [] ++
  returns true 1 () 2 ⟨4, ⟨2, 5, 8, 9, 1, [2]⟩, ⟨2, 0, []⟩⟩ ++
  arrives false 1 3 () 3 ⟨2, 5, 7, 9, 1, [1]⟩ 3 ++ runs () 3 0 [2] ++
  returns false 1 () 3 ⟨3, ⟨2, 5, 7, 9, 1, [1]⟩, ⟨2, 0, [2]⟩⟩

/-- The history of `bothSwap`. -/
def bothSwapHistory : List (CallEvent CallId CallArg CallVal) :=
  [.call (7, 2) (5, [1]), .call (8, 2) (5, [2]), .ret (8, 2) (0, []), .ret (7, 2) (0, [2])]

theorem calls_linearizable_bothSwap : WellFormedHistory bothSwapHistory ∧
    ∃ L, swapRegister.Linearization bothSwapHistory L ∧
      L = [⟨(8, 2), (5, [2]), (0, [])⟩, ⟨(7, 2), (5, [1]), (0, [2])⟩] := by
  obtain ⟨p, hp, he⟩ := @Machine.exists_reachedVia_of_run _ _
    ((system twoClients).recording (observe twoClients ()))
    (fun p a => (FreshXids p.1 a ∧ ActsOn swapRegister () p.1 a) ∧ p.1.FreesNothing a = true) _
    (fun p => decide (p.2 = bothSwapHistory ∧ appLog (p.1.servers ()).execs =
      [⟨(8, 2), (5, [2]), (0, [])⟩, ⟨(7, 2), (5, [1]), (0, [2])⟩])) bothSwap (by decide)
  obtain ⟨hH, hL⟩ := of_decide_eq_true he
  have hvia : ((system twoClients).recording (observe twoClients ())).ReachedVia
      (fun p a => FreshXids p.1 a ∧ NoOvertake p.1 a ∧ ActsOn swapRegister () p.1 a) p :=
    (recording_noOvertake (G := fun s a => FreshXids s a ∧ ActsOn swapRegister () s a) hp).mono
      fun _ _ hg => ⟨hg.1.1, hg.2, hg.1.2⟩
  obtain ⟨hwf, hlin⟩ := calls_linearizable swapRegister () hvia
  rw [hH] at hwf hlin
  exact ⟨hwf, _, hlin, hL⟩

end Sys

end RpcLock
