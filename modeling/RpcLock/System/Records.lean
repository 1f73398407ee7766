import RpcLock.System.Network

/-!
# Calls and executions, step by step

What a step of the system does to the calls of the clients and to the executions
of the instances, as far as it does not depend on the messages: calls are made by
the entry of `call1`, they return in its end, and executions are added by
handlers.
-/

namespace RpcLock

open Rpcc Rpcs

namespace Rpcs.Server

variable {cfg : ServerConfig} {s s' : Server}

/-- A handler adds its execution. -/
theorem execs_of_runHandler {j : Nat} {ret : Int} {out : List UInt8}
    (h : s.next cfg (.runHandler j ret out) = some s') :
    ∃ job, s.jobs j = some job ∧ s'.execs = s.execs ++ [⟨j, job.req, ret, out⟩] := by
  obtain ⟨-, job, hj, h⟩ := withJob_inv h
  refine ⟨job, hj, ?_⟩
  split at h
  · split at h
    · cases h
    · split at h
      · cases h
        rfl
      · cases h
        rfl
  · cases h

/-- No other step adds one. -/
theorem execs_of_ne {a : ServerAct} (ha : ∀ j ret out, a ≠ .runHandler j ret out)
    (h : s.next cfg a = some s') : s'.execs = s.execs := by
  cases step_of_next h with
  | runHandler => exact absurd rfl (ha _ _ _)
  | handlerAbort => exact absurd rfl (ha _ _ _)
  | _ => rfl

theorem execs_prefix_of_next {a : ServerAct} (h : s.next cfg a = some s') :
    s.execs <+: s'.execs := by
  cases step_of_next h with
  | runHandler | handlerAbort => exact List.prefix_append _ _
  | _ => exact List.prefix_rfl

end Rpcs.Server

namespace Sys

variable {K I : Type} [DecidableEq K] {s s' : Sys K I} {k l : K} {t u : Nat}

theorem calls_setClient (s : Sys K I) {c : Client} (hc : c.calls = (s.clients k).calls) (l : K) :
    ((s.setClient k c).clients l).calls = (s.clients l).calls := by
  by_cases hl : l = k
  · subst hl
    rw [setClient_clients_self, hc]
  · rw [setClient_clients_ne _ _ hl]

/-- Another call is left alone when call `t` of client `k` changes. -/
theorem calls_setCall_ne (s : Sys K I) {c : Client} (hc : c.calls = (s.clients k).calls)
    (call : Call) (h : ¬ (l = k ∧ u = t)) :
    ((s.setClient k (c.setCall t call)).clients l).calls u = (s.clients l).calls u := by
  by_cases hl : l = k
  · subst hl
    rw [setClient_clients_self, Client.setCall_calls_ne _ _ fun hu => h ⟨rfl, hu⟩, hc]
  · rw [setClient_clients_ne _ _ hl]

variable [DecidableEq I] {cfg : Config K I} {a : SysAct K I}

omit [DecidableEq I] in
/-- A call that is replaced by its next state. -/
theorem call_kept {c : Client} (hc : c.calls = (s.clients k).calls) {call call₀ call' : Call}
    (ht : (s.clients k).calls t = some call) (hreq : call'.req = call.req)
    (hret : ∀ v, call.ret = some v → call'.ret = some v)
    (hu : (s.clients l).calls u = some call₀) :
    ∃ call₁, ((s.setClient k (c.setCall t call')).clients l).calls u = some call₁ ∧
      call₁.req = call₀.req ∧ ∀ v, call₀.ret = some v → call₁.ret = some v := by
  by_cases hlu : l = k ∧ u = t
  · obtain ⟨rfl, rfl⟩ := hlu
    rw [ht] at hu
    cases hu
    exact ⟨call', by rw [setClient_clients_self, Client.setCall_calls_self], hreq, hret⟩
  · exact ⟨call₀, by rw [calls_setCall_ne s hc call' hlu]; exact hu, rfl, fun _ hv => hv⟩

/-- A step keeps every call and what it returned. -/
theorem call_of_next (h : s.next cfg a = some s') {call : Call}
    (hu : (s.clients l).calls u = some call) :
    ∃ call', (s'.clients l).calls u = some call' ∧ call'.req = call.req ∧
      ∀ v, call.ret = some v → call'.ret = some v := by
  cases step_of_next h with
  | bindFailure => exact ⟨call, hu, rfl, fun _ hv => hv⟩
  | @call k t proc args ht hb =>
      refine ⟨call, ?_, rfl, fun _ hv => hv⟩
      have hlu : ¬ (l = k ∧ u = t) := by
        rintro ⟨rfl, rfl⟩
        rw [ht] at hu
        cases hu
      exact (calls_setCall_ne s (by rfl) _ hlu).trans hu
  | transmit => exact ⟨call, hu, rfl, fun _ hv => hv⟩
  | finish ht hnone => exact call_kept (by rfl) ht rfl (by simp [hnone]) hu
  | storeNonce ht _ _ _ _ => exact call_kept (by rfl) ht rfl (fun _ hv => hv) hu
  | ignored =>
      exact ⟨call, (congrFun (calls_setClient s (by rfl) l) u).trans hu, rfl, fun _ hv => hv⟩
  | takenIn _ _ _ ht _ => exact call_kept (by rfl) ht rfl (fun _ hv => hv) hu
  | server => exact ⟨call, hu, rfl, fun _ hv => hv⟩

omit [DecidableEq I] in
/-- The same from the state after the step. -/
theorem call_before {c : Client} (hc : c.calls = (s.clients k).calls) {call call' call₁ : Call}
    (ht : (s.clients k).calls t = some call) (hreq : call'.req = call.req)
    (hu : ((s.setClient k (c.setCall t call')).clients l).calls u = some call₁) :
    ∃ call₀, (s.clients l).calls u = some call₀ ∧ call₁.req = call₀.req := by
  by_cases hlu : l = k ∧ u = t
  · obtain ⟨rfl, rfl⟩ := hlu
    rw [setClient_clients_self, Client.setCall_calls_self] at hu
    cases hu
    exact ⟨call, ht, hreq⟩
  · rw [calls_setCall_ne s hc call' hlu] at hu
    exact ⟨call₁, hu, rfl⟩

/-- A call was there before the step, or the step made it. -/
theorem call_cases (h : s.next cfg a = some s') {call : Call}
    (hu : (s'.clients l).calls u = some call) :
    (∃ call₀, (s.clients l).calls u = some call₀ ∧ call.req = call₀.req) ∨
    ∃ proc args, a = .call l u proc args ∧ call.req.proc = proc ∧ call.req.args = args := by
  cases step_of_next h with
  | bindFailure => exact .inl ⟨call, hu, rfl⟩
  | @call k t proc args ht hb =>
      by_cases hlu : l = k ∧ u = t
      · obtain ⟨rfl, rfl⟩ := hlu
        rw [setClient_clients_self, Client.setCall_calls_self] at hu
        cases hu
        exact .inr ⟨proc, args, rfl, rfl, rfl⟩
      · exact .inl ⟨call, (calls_setCall_ne s (by rfl) _ hlu).symm.trans hu, rfl⟩
  | transmit => exact .inl ⟨call, hu, rfl⟩
  | finish ht _ => exact .inl (call_before (by rfl) ht (by rfl) hu)
  | storeNonce ht _ _ _ _ => exact .inl (call_before (by rfl) ht (by rfl) hu)
  | ignored =>
      exact .inl ⟨call, (congrFun (calls_setClient s (by rfl) l) u).symm.trans hu, rfl⟩
  | takenIn _ _ _ ht _ => exact .inl (call_before (by rfl) ht (by rfl) hu)
  | server => exact .inl ⟨call, hu, rfl⟩

/-- The entry of `call1` makes a call. -/
theorem call_made {proc : UInt32} {args : List UInt8}
    (h : s.next cfg (.call k t proc args) = some s') (hb : (s.clients k).bindFails proc = false) :
    (s.clients k).calls t = none ∧ ∃ call, (s'.clients k).calls t = some call ∧
      call.req.proc = proc ∧ call.req.args = args := by
  cases h' : (s.clients k).calls t with
  | some call => simp [Sys.next, Client.call, h'] at h
  | none =>
      simp only [Sys.next, Client.call, h', hb] at h
      cases h
      exact ⟨rfl, _, by rw [setClient_clients_self, Client.setCall_calls_self], rfl, rfl⟩

/-- The end of `call1` returns the result. -/
theorem call_finished (h : s.next cfg (.finish k t) = some s') :
    ∃ call, (s.clients k).calls t = some call ∧ call.ret = none ∧
      (s'.clients k).calls t = some { call with ret := some call.result } := by
  cases step_of_next h with
  | @finish _ _ call ht hnone =>
      exact ⟨call, ht, hnone, by rw [setClient_clients_self, Client.setCall_calls_self]⟩

/-- Only steps of the instances change them. -/
theorem servers_of_next (h : s.next cfg a = some s') (ha : ∀ i b, a ≠ .server i b) :
    s'.servers = s.servers := by
  cases step_of_next h with
  | server => exact absurd rfl (ha _ _)
  | _ => rfl

/-- A handler adds its execution to those of its instance. -/
theorem execs_of_runHandler {i : I} {j : Nat} {ret : Int} {out : List UInt8}
    (h : s.next cfg (.server i (.runHandler j ret out)) = some s') :
    ∃ job, (s.servers i).jobs j = some job ∧
      (s'.servers i).execs = (s.servers i).execs ++ [⟨j, job.req, ret, out⟩] := by
  cases step_of_next h with
  | server _ hv =>
      rw [setServer_servers_self]
      exact Server.execs_of_runHandler hv

theorem execs_of_server {i : I} {b : ServerAct} (hb : ∀ j ret out, b ≠ .runHandler j ret out)
    (h : s.next cfg (.server i b) = some s') : (s'.servers i).execs = (s.servers i).execs := by
  cases step_of_next h with
  | server _ hv =>
      rw [setServer_servers_self]
      exact Server.execs_of_ne hb hv

/-- An execution keeps its place. -/
theorem execs_getElem_of_next (h : s.next cfg a = some s') {i : I} {n : Nat} {e : Exec}
    (he : (s.servers i).execs[n]? = some e) : (s'.servers i).execs[n]? = some e := by
  cases step_of_next h with
  | @server l b v _ hv =>
      by_cases hil : i = l
      · subst hil
        rw [setServer_servers_self]
        obtain ⟨rest, hr⟩ := Server.execs_prefix_of_next hv
        rw [← hr, List.getElem?_append_left (List.getElem?_eq_some_iff.mp he).1]
        exact he
      · rw [setServer_servers_ne _ _ hil]
        exact he
  | _ => exact he

/-- An execution was there before the step, or a handler has added it. -/
theorem execs_getElem_cases (h : s.next cfg a = some s') {i : I} {n : Nat} {e : Exec}
    (he : (s'.servers i).execs[n]? = some e) :
    (s.servers i).execs[n]? = some e ∨
    ∃ j ret out job, a = .server i (.runHandler j ret out) ∧ (s.servers i).jobs j = some job ∧
      n = (s.servers i).execs.length ∧ e = ⟨j, job.req, ret, out⟩ := by
  by_cases ha : ∃ j ret out, a = .server i (.runHandler j ret out)
  · obtain ⟨j, ret, out, rfl⟩ := ha
    obtain ⟨job, hj, hex⟩ := execs_of_runHandler h
    rw [hex] at he
    by_cases hn : n < (s.servers i).execs.length
    · exact .inl ((List.getElem?_append_left hn).symm.trans he)
    · rw [List.getElem?_append_right (not_lt.mp hn), List.getElem?_singleton] at he
      split at he
      · next h0 => exact .inr ⟨j, ret, out, job, rfl, hj, by omega, (Option.some.inj he).symm⟩
      · cases he
  · refine .inl ?_
    cases step_of_next h with
    | @server l b v _ hv =>
        by_cases hil : i = l
        · subst hil
          rw [setServer_servers_self, Server.execs_of_ne (fun j ret out hb => ha ⟨j, ret, out, by
            rw [hb]⟩) hv] at he
          exact he
        · rw [setServer_servers_ne _ _ hil] at he
          exact he
    | _ => exact he

end Sys

end RpcLock
