import RpcLock.Rpcs.Methods
import RpcLock.Rpcs.Stops
import RpcLock.System.EndToEnd
import RpcLock.System.Records

/-!
# Typed calls

The system with the stubs at both ends.  A thread of a client enters `rpcc::call`
with values for arguments and a result variable; the stub marshals the arguments
and goes on with `call1`, and when that returns, `call_m` unmarshals the result
into the variable.  At an instance the stub that `reg` installed unmarshals the
arguments, calls the method, and marshals its result.  What the stubs produce are
the bytes of the system below, so every run here is a run there.

If all calls agree with the types of the methods, no assertion about types fails,
on either side, and a call is a call: a method is called only with the arguments
some caller passed, at most once for an application call, and what `rpcc::call`
returns and leaves in the result variable is what the method returned and left.
-/

namespace RpcLock

open Rpcc Rpcs

/-- What was passed to `rpcc::call`. -/
structure Ask where
  proc : UInt32
  args : List Value
  /-- The result variable, with what it holds. -/
  target : Value

/-- A call of a method. -/
structure Invocation (I : Type) where
  inst : I
  /-- Its place among the handler executions of the instance. -/
  index : Nat
  proc : UInt32
  args : List Value
  ret : Int
  result : Value

/-- The system with what is typed. -/
structure TypedSys (K I : Type) where
  sys : Sys K I
  /-- The activations of `rpcc::call` that got past the test for bind. -/
  asks : K × Nat → Option Ask
  /-- What `rpcc::call` returned and left in the result variable, or `none` when the
  assertion of `call_m` failed. -/
  outcomes : K × Nat → Option (Option (Int × Value))
  /-- The calls of methods so far. -/
  invoked : List (Invocation I)

inductive TypedAct (K I : Type) where
  /-- A thread enters `rpcc::call`.  `junk` is what its fresh `marshall` holds. -/
  | call (k : K) (t : Nat) (ask : Ask) (junk : Nat → UInt8)
  /-- The stub for job `j` runs with the header bytes `c`, and its method, if it calls
  it, returns `ret` and leaves `result`. -/
  | method (i : I) (j : Nat) (ret : Int) (result : Value) (junk : Nat → UInt8) (c : List UInt8)
  /-- `call1` returns to `call_m`.  `c` are the header bytes of the reply. -/
  | ret (k : K) (t : Nat) (c : List UInt8)
  /-- A step in which no stub takes part. -/
  | other (a : SysAct K I)

/-- Whether the step is left to the stubs. -/
def SysAct.ofStub {K I : Type} : SysAct K I → Bool
  | .call _ _ _ _ | .finish _ _ | .server _ (.runHandler _ _ _) => true
  | _ => false

/-- `call_m` from where `call1` returned: what is returned and left in the variable. -/
def Ask.callM (ask : Ask) (call : Call) (c : List UInt8) : Option (Int × Value) :=
  (RpcLock.callM ask.target.1 call.result (replyResult c call.reply) ask.target.2).map
    fun p => (p.1, ⟨ask.target.1, p.2⟩)

namespace TypedSys

variable {K I : Type}

def init : TypedSys K I where
  sys := .init
  asks _ := none
  outcomes _ := none
  invoked := []

/-- The stub of job `j`: the calls of the method, and what the handler returns. -/
def stub (svc : Service) (s : TypedSys K I) (i : I) (j : Nat) (ret : Int) (result : Value)
    (junk : Nat → UInt8) (c : List UInt8) :
    Option (UInt32 × List (List Value) × Option (Int × Marshall)) :=
  match (s.sys.servers i).jobs j with
  | none => none
  | some job =>
      match svc.method job.req.proc with
      | none => none
      | some m =>
          if result.1 = m.result ∧ c.length = rpcHeaderSz then
            some (job.req.proc, m.sig.fn result.1 (fun _ => (ret, result.2))
              (requestArgs c job.req.args) (.init junk))
          else none

/-- The step of the system below, with the bytes the stub produces. -/
def lowered (svc : Service) (s : TypedSys K I) : TypedAct K I → Option (SysAct K I)
  | .call k t ask junk =>
      ((Marshall.init junk).putAll ask.args).map fun m =>
        .call k t ask.proc (m.content.drop rpcHeaderSz)
  | .method i j ret result junk c =>
      (s.stub svc i j ret result junk c).bind fun p =>
        p.2.2.map fun q => .server i (.runHandler j q.1 (q.2.content.drop rpcHeaderSz))
  | .ret k t c => if c.length = rpcHeaderSz then some (.finish k t) else none
  | .other a => if a.ofStub then none else some a

/-- The calls of methods in a step. -/
def invocations (svc : Service) (s : TypedSys K I) : TypedAct K I → List (Invocation I)
  | .method i j ret result junk c =>
      (s.stub svc i j ret result junk c).elim [] fun p =>
        p.2.1.map fun vs => ⟨i, (s.sys.servers i).execs.length, p.1, vs, ret, result⟩
  | _ => []

variable [DecidableEq K]

/-- The activations of `rpcc::call` after a step. -/
def asksAfter (s : TypedSys K I) : TypedAct K I → K × Nat → Option Ask
  | .call k t ask _ =>
      if (s.sys.clients k).bindFails ask.proc then s.asks
      else Function.update s.asks (k, t) (some ask)
  | _ => s.asks

/-- What has been returned after a step. -/
def outcomesAfter (s : TypedSys K I) : TypedAct K I → K × Nat → Option (Option (Int × Value))
  | .ret k t c =>
      match s.asks (k, t), (s.sys.clients k).calls t with
      | some ask, some call => Function.update s.outcomes (k, t) (some (ask.callM call c))
      | _, _ => s.outcomes
  | _ => s.outcomes

variable [DecidableEq I]

/-- One step. -/
def next (cfg : Config K I) (svc : Service) (s : TypedSys K I) (a : TypedAct K I) :
    Option (TypedSys K I) :=
  (s.lowered svc a).bind fun b => (s.sys.next cfg b).map fun s' =>
    { sys := s'
      asks := s.asksAfter a
      outcomes := s.outcomesAfter a
      invoked := s.invoked ++ s.invocations svc a }

end TypedSys

/-! ## Types that agree -/

/-- The call agrees with the types of method `m`, and its result variable is not a
vector that holds something. -/
structure Ask.WellTyped (svc : Service) (ask : Ask) (m : Method) : Prop where
  method : svc.method ask.proc = some m
  args : ask.args.map Sigma.fst = m.sig.args
  fits : Fits (payload ask.args)
  target : ask.target.1 = m.result
  fresh : ask.target.1.isVector = true → ask.target.2 = ask.target.1.fresh

/-- Calls agree with the methods, and methods return what `dispatch` and `marshall`
can take. -/
def WellTyped {K I : Type} (svc : Service) : TypedAct K I → Prop
  | .call _ _ ask _ => ∃ m, ask.WellTyped svc m
  | .method _ _ ret result _ _ => 0 ≤ ret ∧ Fits (enc result.1 result.2)
  | .ret _ _ _ | .other _ => True

namespace TypedSys

section

variable {K I : Type}

/-- A condition on the step of the system below. -/
def Below (svc : Service) (G : Sys K I → SysAct K I → Prop) (s : TypedSys K I)
    (a : TypedAct K I) : Prop := ∀ b, s.lowered svc a = some b → G s.sys b

/-- The call of a method is for activation `t` of client `k`. -/
def For (s : TypedSys K I) (k : K) (t : Nat) (inv : Invocation I) : Prop :=
  ∃ e call, (s.sys.servers inv.inst).execs[inv.index]? = some e ∧
    (s.sys.clients k).calls t = some call ∧ e.req = call.req

/-- What `rpcc::call` returned is a failure, or comes from a call of the method. -/
def Returned (s : TypedSys K I) (k : K) (t : Nat) (o : Option (Int × Value)) : Prop :=
  ∃ ask v r, s.asks (k, t) = some ask ∧ o = some (v, r) ∧
    (v < 0 ∧ r = ask.target ∨
      0 ≤ v ∧ ∃ inv ∈ s.invoked, s.For k t inv ∧ inv.ret = v ∧ inv.result = r)

/-- A call of a method, against the execution it was part of and the call it was for. -/
structure Ran (svc : Service) (s : TypedSys K I) (inv : Invocation I) (k : K) (t : Nat) (e : Exec)
    (call : Call) (ask : Ask) : Prop where
  executed : (s.sys.servers inv.inst).execs[inv.index]? = some e
  called : (s.sys.clients k).calls t = some call
  req : e.req = call.req
  asked : s.asks (k, t) = some ask
  proc : inv.proc = ask.proc
  args : inv.args = ask.args
  result : inv.result.1 = ask.target.1
  fits : Fits (enc inv.result.1 inv.result.2)
  ret : e.ret = inv.ret
  out : e.out = enc inv.result.1 inv.result.2

/-- What ties the values at the stubs to the bytes below. -/
structure Tied (svc : Service) (s : TypedSys K I) : Prop where
  asks : ∀ k t call, (s.sys.clients k).calls t = some call → ∃ ask m, s.asks (k, t) = some ask ∧
    ask.WellTyped svc m ∧ call.req.proc = ask.proc ∧ call.req.args = payload ask.args
  execs : ∀ (i : I) (n : Nat) (e : Exec), (s.sys.servers i).execs[n]? = some e →
    ∃ inv ∈ s.invoked, inv.inst = i ∧ inv.index = n
  invoked : ∀ inv ∈ s.invoked, ∃ k t e call ask, s.Ran svc inv k t e call ask
  distinct : (s.invoked.map fun inv => (inv.inst, inv.index)).Nodup

/-- What has been returned. -/
def Settled (s : TypedSys K I) : Prop :=
  ∀ k t o, s.outcomes (k, t) = some o →
    (∃ call, (s.sys.clients k).calls t = some call) ∧ s.Returned k t o

variable {svc : Service}

theorem tied_init : Tied svc (init : TypedSys K I) where
  asks := by simp [init, Sys.init, Client.init]
  execs := by simp [init, Sys.init, Server.init]
  invoked := by simp [init]
  distinct := List.nodup_nil

/-- What a step keeps. -/
structure Extends (s s' : TypedSys K I) : Prop where
  calls : ∀ k t call, (s.sys.clients k).calls t = some call →
    ∃ call', (s'.sys.clients k).calls t = some call' ∧ call'.req = call.req
  execs : ∀ (i : I) (n : Nat) (e : Exec), (s.sys.servers i).execs[n]? = some e →
    (s'.sys.servers i).execs[n]? = some e
  asks : ∀ k t call, (s.sys.clients k).calls t = some call → s'.asks (k, t) = s.asks (k, t)
  invoked : ∀ inv ∈ s.invoked, inv ∈ s'.invoked

variable {s s' : TypedSys K I} {inv : Invocation I} {k : K} {t : Nat}

theorem For.mono (h : s.For k t inv) (hx : s.Extends s') : s'.For k t inv := by
  obtain ⟨e, call, he, ht, hreq⟩ := h
  obtain ⟨call', ht', hreq'⟩ := hx.calls k t call ht
  exact ⟨e, call', hx.execs _ _ _ he, ht', by rw [hreq, hreq']⟩

theorem Ran.mono {e : Exec} {call : Call} {ask : Ask} (h : s.Ran svc inv k t e call ask)
    (hx : s.Extends s') : ∃ call', s'.Ran svc inv k t e call' ask := by
  obtain ⟨call', ht', hreq'⟩ := hx.calls k t call h.called
  exact ⟨call', hx.execs _ _ _ h.executed, ht', by rw [h.req, hreq'],
    by rw [hx.asks k t call h.called, h.asked], h.proc, h.args, h.result, h.fits, h.ret, h.out⟩

theorem Returned.mono {o : Option (Int × Value)} {call : Call}
    (ht : (s.sys.clients k).calls t = some call) (h : s.Returned k t o) (hx : s.Extends s') :
    s'.Returned k t o := by
  obtain ⟨ask, v, r, hask, ho, hor⟩ := h
  refine ⟨ask, v, r, by rw [hx.asks k t call ht, hask], ho, ?_⟩
  rcases hor with hneg | ⟨h0, inv, hinv, hfor, hret, hres⟩
  · exact .inl hneg
  · exact .inr ⟨h0, inv, hx.invoked inv hinv, hfor.mono hx, hret, hres⟩

end

section Steps

variable {K I : Type} [DecidableEq K] [DecidableEq I] {cfg : Config K I} {svc : Service}
  {s s₁ : TypedSys K I} {s' : Sys K I} {a : TypedAct K I} {b : SysAct K I}

theorem next_inv (h : s.next cfg svc a = some s₁) :
    ∃ b s', s.lowered svc a = some b ∧ s.sys.next cfg b = some s' ∧
      s₁ = ⟨s', s.asksAfter a, s.outcomesAfter a, s.invoked ++ s.invocations svc a⟩ := by
  obtain ⟨b, hb, h⟩ := Option.bind_eq_some_iff.mp h
  obtain ⟨s', hs', rfl⟩ := Option.map_eq_some_iff.mp h
  exact ⟨b, s', hb, hs', rfl⟩

/-- The entry of `call1` without a bind does nothing. -/
theorem next_of_bindFails {k : K} {t : Nat} {proc : UInt32} {args : List UInt8} {x y : Sys K I}
    (hb : (x.clients k).bindFails proc = true) (h : x.next cfg (.call k t proc args) = some y) :
    y = x := by
  cases Sys.step_of_next h with
  | bindFailure => rfl
  | call _ hb' =>
      rw [hb] at hb'
      cases hb'

omit [DecidableEq K] [DecidableEq I] in
theorem lowered_call {k : K} {t : Nat} {ask : Ask} {junk : Nat → UInt8}
    (h : s.lowered svc (.call k t ask junk) = some b) (hfit : Fits (payload ask.args)) :
    b = .call k t ask.proc (payload ask.args) := by
  obtain ⟨m, hm, hdrop⟩ := putAll_fresh hfit junk
  simp only [lowered, hm, Option.map_some, hdrop, Option.some.injEq] at h
  exact h.symm

omit [DecidableEq K] [DecidableEq I] in
/-- Only the stub of the caller enters `call1`. -/
theorem lowered_eq_call {k : K} {t : Nat} {proc : UInt32} {args : List UInt8}
    (h : s.lowered svc a = some (.call k t proc args)) :
    ∃ ask junk, a = .call k t ask junk := by
  cases a with
  | call l u ask junk =>
      obtain ⟨m, -, he⟩ := Option.map_eq_some_iff.mp h
      cases he
      exact ⟨ask, junk, rfl⟩
  | method i j ret result junk c =>
      obtain ⟨p, -, hp⟩ := Option.bind_eq_some_iff.mp h
      obtain ⟨q, -, he⟩ := Option.map_eq_some_iff.mp hp
      cases he
  | ret l u c =>
      simp only [lowered] at h
      split at h
      · cases h
      · cases h
  | other b =>
      simp only [lowered] at h
      split at h
      · cases h
      · next hst =>
          cases h
          simp [SysAct.ofStub] at hst

/-- A step keeps what there is. -/
theorem extends_of_next (h : s.next cfg svc a = some s₁) : s.Extends s₁ := by
  obtain ⟨b, s', hb, hs', rfl⟩ := next_inv h
  refine ⟨fun k t call ht => ?_, fun i n e he => Sys.execs_getElem_of_next hs' he,
    fun k t call ht => ?_, fun inv hinv => List.mem_append_left _ hinv⟩
  · obtain ⟨call', ht', hreq, -⟩ := Sys.call_of_next hs' ht
    exact ⟨call', ht', hreq⟩
  · cases a with
    | call l u ask junk =>
        simp only [asksAfter]
        split
        · rfl
        · next hbind =>
            obtain ⟨m, -, rfl⟩ := Option.map_eq_some_iff.mp hb
            obtain ⟨hnone, -⟩ := Sys.call_made hs' (by simpa using hbind)
            refine Function.update_of_ne (fun he => ?_) _ _
            cases he
            rw [hnone] at ht
            cases ht
    | method | ret | other => rfl

omit [DecidableEq K] [DecidableEq I] in
/-- The stub of a job calls the method with what the caller passed, and marshals the
result. -/
theorem method_spec (htr : Sys.Traffic cfg s.sys) (ht : s.Tied svc) {i : I} {j : Nat} {ret : Int}
    {result : Value} {junk : Nat → UInt8} {c : List UInt8} (hfit : Fits (enc result.1 result.2))
    (h : s.lowered svc (.method i j ret result junk c) = some b) :
    ∃ job k t call ask, (s.sys.servers i).jobs j = some job ∧
      (s.sys.clients k).calls t = some call ∧ call.req = job.req ∧ s.asks (k, t) = some ask ∧
      result.1 = ask.target.1 ∧
      b = .server i (.runHandler j ret (enc result.1 result.2)) ∧
      s.invocations svc (.method i j ret result junk c) =
        [⟨i, (s.sys.servers i).execs.length, ask.proc, ask.args, ret, result⟩] := by
  obtain ⟨p, hp, h⟩ := Option.bind_eq_some_iff.mp h
  have hstub := hp
  unfold stub at hp
  cases hj : (s.sys.servers i).jobs j with
  | none => simp [hj] at hp
  | some job =>
      obtain ⟨t, call, hcall, hreq⟩ := (htr.servers i).jobs j job hj
      obtain ⟨ask, m, hask, hwt, hproc, hargs⟩ := ht.asks _ t call hcall
      rw [hreq] at hproc hargs
      simp only [hj, hproc, hwt.method] at hp
      split at hp
      · next hc =>
          cases hp
          obtain ⟨rep, hput, hdrop⟩ := put_fresh hfit junk
          have hfn := fn_payload result.1 (fun _ => (ret, result.2)) hwt.args hwt.fits hc.2
            (.init junk)
          simp only [hput, Option.map_some] at hfn
          simp only [hargs, hfn, Option.map_some, hdrop, Option.some.injEq] at h
          refine ⟨job, _, t, call, ask, rfl, hcall, hreq, hask, hc.1.trans hwt.target.symm, h.symm,
            ?_⟩
          simp only [invocations, hstub, Option.elim_some, hargs, hfn, List.map_cons, List.map_nil]
      · cases hp

omit [DecidableEq K] [DecidableEq I] in
/-- Other steps run no handler. -/
theorem lowered_ne_runHandler (ha : ∀ i j ret result junk c, a ≠ .method i j ret result junk c)
    (h : s.lowered svc a = some b) (i : I) (j : Nat) (ret : Int) (out : List UInt8) :
    b ≠ .server i (.runHandler j ret out) := by
  rintro rfl
  cases a with
  | call =>
      obtain ⟨m, -, he⟩ := Option.map_eq_some_iff.mp h
      cases he
  | method => exact absurd rfl (ha _ _ _ _ _ _)
  | ret k t c =>
      simp only [lowered] at h
      split at h
      · cases h
      · cases h
  | other b =>
      simp only [lowered] at h
      split at h
      · cases h
      · next hst =>
          cases h
          simp [SysAct.ofStub] at hst

/-- Every call is one that was asked for, with the types of its method. -/
theorem asks_next (ht : s.Tied svc) (hw : WellTyped svc a) (h : s.next cfg svc a = some s₁)
    {k : K} {t : Nat} {call : Call} (hcall : (s₁.sys.clients k).calls t = some call) :
    ∃ ask m, s₁.asks (k, t) = some ask ∧ ask.WellTyped svc m ∧ call.req.proc = ask.proc ∧
      call.req.args = payload ask.args := by
  have hx := extends_of_next h
  obtain ⟨b, s', hb, hs', rfl⟩ := next_inv h
  rcases Sys.call_cases hs' hcall with ⟨call₀, hcall₀, hreq⟩ | ⟨proc, args, rfl, hproc, hargs⟩
  · rw [hreq, hx.asks k t call₀ hcall₀]
    exact ht.asks k t call₀ hcall₀
  · obtain ⟨ask, junk, rfl⟩ := lowered_eq_call hb
    obtain ⟨m, hm⟩ := hw
    cases lowered_call hb hm.fits
    cases hbind : (s.sys.clients k).bindFails ask.proc with
    | true =>
        cases next_of_bindFails hbind hs'
        rw [hx.asks k t call hcall]
        exact ht.asks k t call hcall
    | false => exact ⟨ask, m, by simp [asksAfter, hbind], hm, hproc, hargs⟩

/-- A step without a method. -/
theorem tied_of_quiet (ht : s.Tied svc) (hw : WellTyped svc a)
    (ha : ∀ i j ret result junk c, a ≠ .method i j ret result junk c)
    (h : s.next cfg svc a = some s₁) : s₁.Tied svc := by
  have hx := extends_of_next h
  have hasks (k : K) (t : Nat) (call : Call) (hcall : (s₁.sys.clients k).calls t = some call) :=
    asks_next ht hw h hcall
  obtain ⟨b, s', hb, hs', rfl⟩ := next_inv h
  have hinv : s.invocations svc a = [] := by
    cases a with
    | method => exact absurd rfl (ha _ _ _ _ _ _)
    | call | ret | other => rfl
  refine ⟨hasks, fun i n e he => ?_, fun inv hi => ?_, ?_⟩
  · rcases Sys.execs_getElem_cases hs' he with hold | ⟨j, ret, out, job, rfl, -⟩
    · obtain ⟨inv, hi, hat⟩ := ht.execs i n e hold
      exact ⟨inv, hx.invoked inv hi, hat⟩
    · exact absurd rfl (lowered_ne_runHandler ha hb i j ret out)
  · simp only [hinv, List.append_nil] at hi
    obtain ⟨k, t, e, call, ask, hran⟩ := ht.invoked inv hi
    obtain ⟨call', hran'⟩ := hran.mono hx
    exact ⟨k, t, e, call', ask, hran'⟩
  · simp only [hinv, List.append_nil]
    exact ht.distinct

/-- A step of a method adds its call, with the next place among the executions. -/
theorem tied_of_method (htr : Sys.Traffic cfg s.sys) (ht : s.Tied svc) {i : I} {j : Nat} {ret : Int}
    {result : Value} {junk : Nat → UInt8} {c : List UInt8}
    (hw : WellTyped svc (.method i j ret result junk c : TypedAct K I))
    (h : s.next cfg svc (.method i j ret result junk c) = some s₁) : s₁.Tied svc := by
  have hx := extends_of_next h
  have hasks (k : K) (t : Nat) (call : Call) (hcall : (s₁.sys.clients k).calls t = some call) :=
    asks_next ht hw h hcall
  obtain ⟨b, s', hb, hs', rfl⟩ := next_inv h
  obtain ⟨job, k, t, call, ask, hj, hcall, hreq, hask, hres, rfl, hinv⟩ :=
    method_spec htr ht hw.2 hb
  obtain ⟨job', hj', hexecs⟩ := Sys.execs_of_runHandler hs'
  cases hj.symm.trans hj'
  have hat : (s'.servers i).execs[(s.sys.servers i).execs.length]? =
      some ⟨j, job.req, ret, enc result.1 result.2⟩ := by
    rw [hexecs, List.getElem?_append_right le_rfl, Nat.sub_self]
    rfl
  refine ⟨hasks, fun l n e he => ?_, fun inv hi => ?_, ?_⟩
  · rcases Sys.execs_getElem_cases hs' he with hold | ⟨j', ret', out', job', ha, -, rfl, -⟩
    · obtain ⟨inv, hi, hat⟩ := ht.execs l n e hold
      exact ⟨inv, hx.invoked inv hi, hat⟩
    · cases ha
      refine ⟨⟨i, (s.sys.servers i).execs.length, ask.proc, ask.args, ret, result⟩, ?_, rfl, rfl⟩
      simp [hinv]
  · rcases List.mem_append.mp hi with hi | hi
    · obtain ⟨l, u, e, call₀, ask₀, hran⟩ := ht.invoked inv hi
      obtain ⟨call', hran'⟩ := hran.mono hx
      exact ⟨l, u, e, call', ask₀, hran'⟩
    · rw [hinv, List.mem_singleton] at hi
      subst hi
      obtain ⟨call', hcall', hreq'⟩ := hx.calls k t call hcall
      exact ⟨k, t, _, call', ask, hat, hcall', by rw [hreq', hreq], hask, rfl, rfl, hres, hw.2, rfl,
        rfl⟩
  · simp only [hinv, List.map_append, List.map_cons, List.map_nil]
    refine List.nodup_append.mpr ⟨ht.distinct, by simp, fun p hp q hq => ?_⟩
    obtain ⟨inv, hi, rfl⟩ := List.mem_map.mp hp
    rw [List.mem_singleton.mp hq]
    intro he
    obtain ⟨l, u, e, call₀, ask₀, hran⟩ := ht.invoked inv hi
    obtain ⟨hi', hn⟩ := Prod.mk.inj he
    have hlt := (List.getElem?_eq_some_iff.mp hran.executed).1
    rw [hi', hn] at hlt
    exact absurd hlt (lt_irrefl _)

theorem tied_next (htr : Sys.Traffic cfg s.sys) (ht : s.Tied svc) (hw : WellTyped svc a)
    (h : s.next cfg svc a = some s₁) : s₁.Tied svc := by
  by_cases ha : ∃ i j ret result junk c, a = .method i j ret result junk c
  · obtain ⟨i, j, ret, result, junk, c, rfl⟩ := ha
    exact tied_of_method htr ht hw h
  · refine tied_of_quiet ht hw (fun i j ret result junk c he => ha ?_) h
    exact ⟨i, j, ret, result, junk, c, he⟩

end Steps

/-! ## What is returned -/

section

variable {K I : Type} {cfg : Config K I} {svc : Service} {s : TypedSys K I} {c : List UInt8}

/-- `call_m` leaves the variable alone when the call failed. -/
theorem callM_of_neg {ask : Ask} {call : Call} (h : call.result < 0) :
    ask.callM call c = some (call.result, ask.target) := by
  simp only [Ask.callM, RpcLock.callM, if_pos h, Option.map_some]

/-- Otherwise it leaves there what the reply carries. -/
theorem callM_of_payload {ask : Ask} {call : Call} {r : Reply} {result : Value}
    (hr : call.reply = some r) (h0 : 0 ≤ call.result) (hc : c.length = rpcHeaderSz)
    (hp : r.payload = enc result.1 result.2) (hfit : Fits (enc result.1 result.2))
    (ht : result.1 = ask.target.1)
    (hv : ask.target.1.isVector = true → ask.target.2 = ask.target.1.fresh) :
    ask.callM call c = some (call.result, result) := by
  obtain ⟨proc, args, R, target⟩ := ask
  obtain ⟨R', x⟩ := result
  cases ht
  simp only [Ask.callM, hr, callM_enc hfit hc hp h0 hv, Option.map_some]

/-- The call of a method is for one activation only. -/
theorem Ran.unique {inv : Invocation I} {k l : K} {t u : Nat} {e : Exec} {call call₀ : Call}
    {ask ask₀ : Ask} (hl : Sys.Linked cfg s.sys) (h : s.Ran svc inv l u e call₀ ask₀)
    (hcall : (s.sys.clients k).calls t = some call) (hask : s.asks (k, t) = some ask)
    (hreq : e.req = call.req) : ask₀ = ask := by
  have hsame : call₀.req = call.req := h.req.symm.trans hreq
  have hlk : l = k := by
    refine cfg.cltNonce_injective ?_
    rw [← (hl.traffic.clients l).nonce u call₀ h.called,
      ← (hl.traffic.clients k).nonce t call hcall, hsame]
  subst hlk
  have hut : u = t := (hl.traffic.clients l).xid_inj u t call₀ call h.called hcall (by rw [hsame])
  subst hut
  exact Option.some.inj (h.asked.symm.trans hask)

/-- What `call_m` returns when `call1` has returned. -/
theorem returned_of_finished (hl : Sys.Linked cfg s.sys) (ho : ∀ i, (s.sys.servers i).Once)
    (ht : s.Tied svc) {k : K} {t : Nat} {call : Call} {ask : Ask}
    (hcall : (s.sys.clients k).calls t = some call) (hret : call.ret = some call.result)
    (hask : s.asks (k, t) = some ask) (hc : c.length = rpcHeaderSz) :
    s.Returned k t (ask.callM call c) := by
  by_cases h0 : 0 ≤ call.result
  · obtain ⟨i, e, r, he, hreq, her, hr, hout⟩ := hl.executed ho hcall hret h0
    obtain ⟨n, hn⟩ := List.getElem?_of_mem he
    obtain ⟨inv, hi, rfl, rfl⟩ := ht.execs i n e hn
    obtain ⟨l, u, e', call₀, ask₀, hran⟩ := ht.invoked inv hi
    cases hn.symm.trans hran.executed
    cases hran.unique hl hcall hask hreq
    obtain ⟨ask', m, hask', hwt, -⟩ := ht.asks k t call hcall
    cases hask.symm.trans hask'
    refine ⟨ask, call.result, inv.result, hask, callM_of_payload hr h0 hc (hout.trans hran.out)
      hran.fits hran.result hwt.fresh, .inr ⟨h0, inv, hi, ⟨e, call, hn, hcall, hreq⟩, ?_, rfl⟩⟩
    rw [← hran.ret, her]
  · have hneg := not_le.mp h0
    exact ⟨ask, call.result, ask.target, hask, callM_of_neg hneg, .inl ⟨hneg, rfl⟩⟩

end

section

variable {K I : Type} [DecidableEq K] [DecidableEq I] {cfg : Config K I} {svc : Service}
  {s s₁ : TypedSys K I} {a : TypedAct K I}

theorem settled_next (hl : Sys.Linked cfg s₁.sys) (ho : ∀ i, (s₁.sys.servers i).Once)
    (ht : s₁.Tied svc) (hs : s.Settled) (h : s.next cfg svc a = some s₁) : s₁.Settled := by
  have hx := extends_of_next h
  have hold : ∀ k t o, s.outcomes (k, t) = some o →
      (∃ call, (s₁.sys.clients k).calls t = some call) ∧ s₁.Returned k t o := by
    intro k t o ho
    obtain ⟨⟨call, hcall⟩, hret⟩ := hs k t o ho
    obtain ⟨call', hcall', -⟩ := hx.calls k t call hcall
    exact ⟨⟨call', hcall'⟩, hret.mono hcall hx⟩
  obtain ⟨b, s', hb, hs', rfl⟩ := next_inv h
  intro l u o hlu
  cases a with
  | call | method | other => exact hold l u o hlu
  | ret k t c =>
      simp only [lowered] at hb
      split at hb
      · next hc =>
          cases hb
          obtain ⟨call, hcall, -, hcall'⟩ := Sys.call_finished hs'
          simp only [outcomesAfter, hcall] at hlu
          cases hask : s.asks (k, t) with
          | none =>
              simp only [hask] at hlu
              exact hold l u o hlu
          | some ask =>
              simp only [hask] at hlu
              by_cases he : (l, u) = (k, t)
              · cases he
                rw [Function.update_self] at hlu
                cases hlu
                refine ⟨⟨_, hcall'⟩, ?_⟩
                have hreturned := returned_of_finished hl ho ht hcall' rfl hask hc
                exact hreturned
              · rw [Function.update_of_ne he] at hlu
                exact hold l u o hlu
      · cases hb

end

end TypedSys

/-! ## The guarantee -/

/-- The instances have handlers for the methods. -/
def Implements {K I : Type} (cfg : Config K I) (svc : Service) : Prop :=
  ∀ i proc m, svc.method proc = some m → proc ≠ RpcConst.bind → cfg.registered i proc = true

/-- What typed calls come to. -/
structure Faithful {K I : Type} (s : TypedSys K I) : Prop where
  /-- No process was stopped, by a type or anything else. -/
  running : ∀ i, (s.sys.servers i).aborted = false
  /-- A method is called with what some caller passed for it. -/
  called : ∀ inv ∈ s.invoked, ∃ k t ask, s.asks (k, t) = some ask ∧ s.For k t inv ∧
    inv.proc = ask.proc ∧ inv.args = ask.args
  /-- It is called once for an application call. -/
  once : s.invoked.Pairwise fun inv inv' =>
    ∀ k t, s.For k t inv → s.For k t inv' → inv.proc = RpcConst.bind
  /-- The caller gets what the method returned and left. -/
  returned : ∀ k t o, s.outcomes (k, t) = some o → s.Returned k t o

section

variable {K I : Type} [DecidableEq K] [DecidableEq I] {cfg : Config K I} {svc : Service}
  {s s₁ : TypedSys K I} {a : TypedAct K I}

/-- The whole system with the stubs. -/
def typedSystem (cfg : Config K I) (svc : Service) : Machine (TypedSys K I) (TypedAct K I) where
  init := .init
  next := TypedSys.next cfg svc

/-- The conditions under which calls are correct end to end, on the bytes below. -/
def Lawful (svc : Service) (s : TypedSys K I) (a : TypedAct K I) : Prop :=
  WellTyped svc a ∧ s.Below svc (fun s b => Sys.FreshXids s b ∧ Sys.NoOvertake s b) a

namespace TypedSys

/-- A run with the stubs is a run of the system below. -/
theorem sys_of_reachedVia (h : (typedSystem cfg svc).ReachedVia (Lawful svc) s) :
    (system cfg).ReachedVia (fun s b => Sys.FreshXids s b ∧ Sys.NoOvertake s b) s.sys :=
  h.map TypedSys.sys rfl fun s s₁ a hg hn => by
    obtain ⟨b, s', hb, hs', rfl⟩ := next_inv hn
    exact .inr ⟨b, hg.2 b hb, hs'⟩

/-- A typed step stops no process. -/
theorem running_next (hl : Sys.Linked cfg s.sys)
    (hr : ∀ i, (serverMachine (cfg.server i)).Reachable (s.sys.servers i))
    (himpl : Implements cfg svc) (ht : s.Tied svc) (hw : WellTyped svc a)
    (h : s.next cfg svc a = some s₁) (hrun : ∀ i, (s.sys.servers i).aborted = false) (i : I) :
    (s₁.sys.servers i).aborted = false := by
  obtain ⟨b, s', hb, hs', rfl⟩ := next_inv h
  have htr := hl.traffic
  cases Sys.step_of_next hs' with
  | @server l d v hd hv =>
      by_cases hil : i = l
      · subst hil
        simp only [Sys.setServer_servers_self]
        refine Bool.eq_false_iff.mpr fun habort => ?_
        have hstops := (Server.aborted_next_iff (hr i) hv).mp habort
        cases d with
        | receive j c req p =>
            have hreq : (c, req) ∈ s.sys.requests := by simpa [Sys.deliverable] using hd
            obtain ⟨t, call, hcall, rfl⟩ := htr.requests c req hreq
            obtain ⟨ask, m, -, hwt, hproc, -⟩ := ht.asks _ t call hcall
            have hreg := himpl i call.req.proc m (hproc ▸ hwt.method) hstops.2.1
            exact absurd hstops.2.2 (by simpa [Config.server] using hreg)
        | runHandler j ret out =>
            -- only the stub of a method runs a handler, and the method returned `ret`
            have hmethod : ∃ i j ret result junk c, a = .method i j ret result junk c := by
              by_contra hno
              exact lowered_ne_runHandler (fun i j ret result junk c he =>
                hno ⟨i, j, ret, result, junk, c, he⟩) hb i j ret out rfl
            obtain ⟨i', j', ret', result, junk, c, rfl⟩ := hmethod
            obtain ⟨job, k, t, call, ask, -, -, -, -, -, he, -⟩ := method_spec htr ht hw.2 hb
            cases he
            exact absurd hstops (not_lt.mpr hw.1)
        | pickConn j dead =>
            obtain ⟨-, job, hj, h0⟩ := hstops
            have hmade := (htr.servers i).jobs j job hj
            exact cfg.cltNonce_ne_zero _ ((htr.made_nonce hmade).symm.trans h0)
        | createWindow | saveConn | check | packReplyHeader | addReply | send => exact hstops
      · simp only [Sys.setServer_servers_ne _ _ hil]
        exact hrun i
  | _ => exact hrun i

/-- What holds along the runs of typed calls. -/
theorem inv_of_reachedVia (himpl : Implements cfg svc)
    (h : (typedSystem cfg svc).ReachedVia (Lawful svc) s) :
    s.Tied svc ∧ s.Settled ∧ ∀ i, (s.sys.servers i).aborted = false := by
  induction h with
  | init => exact ⟨tied_init, by simp [Settled, typedSystem, init], fun _ => rfl⟩
  | @step s s₁ a hs hg hn ih =>
      obtain ⟨ht, hset, hrun⟩ := ih
      have hvia := sys_of_reachedVia hs
      have hvia₁ := sys_of_reachedVia (.step hs hg hn)
      have hl := Sys.linked_of_reachedVia hvia
      have hl₁ := Sys.linked_of_reachedVia hvia₁
      have ho₁ : ∀ i, (s₁.sys.servers i).Once := fun i =>
        (Sys.sound_server (hvia₁.mono fun _ _ hg => hg.2) i).once
      have ht₁ := tied_next hl.traffic ht hg.1 hn
      exact ⟨ht₁, settled_next hl₁ ho₁ ht₁ hset hn,
        running_next hl (Sys.reachable_server hvia) himpl ht hg.1 hn hrun⟩

omit [DecidableEq K] [DecidableEq I] in
/-- Two calls of methods for one application call are the same. -/
theorem once_of_tied (ht : s.Tied svc) (hl : Sys.Linked cfg s.sys)
    (honce : ∀ k t call, (s.sys.clients k).calls t = some call → call.req.proc ≠ RpcConst.bind →
      Sys.EndToEnd cfg s.sys k call) :
    s.invoked.Pairwise fun inv inv' =>
      ∀ k t, s.For k t inv → s.For k t inv' → inv.proc = RpcConst.bind := by
  refine (List.pairwise_map.mp ht.distinct).imp_of_mem ?_
  rintro inv inv' hi - hne k t ⟨e, call, he, hcall, hreq⟩ ⟨e', call', he', hcall', hreq'⟩
  cases hcall.symm.trans hcall'
  by_contra hproc
  obtain ⟨l, u, f, call₀, ask, hran⟩ := ht.invoked inv hi
  cases he.symm.trans hran.executed
  obtain ⟨ask', m, hask', -, hp, -⟩ := ht.asks l u call₀ hran.called
  cases hran.asked.symm.trans hask'
  have happ : call.req.proc ≠ RpcConst.bind := by
    rw [← hreq, hran.req, hp, ← hran.proc]
    exact hproc
  have hexec : ∀ {x : Invocation I} {f : Exec}, (s.sys.servers x.inst).execs[x.index]? = some f →
      f.req = call.req → Sys.Executed cfg s.sys k call.req.xid (x.inst, x.index) f := by
    intro x f hf hfr
    exact ⟨hf, by rw [hfr]; exact (hl.traffic.clients k).nonce t call hcall, by rw [hfr]⟩
  exact hne ((honce k t call hcall happ).atMostOnce _ _ _ _ (hexec he hreq) (hexec he' hreq'))

end TypedSys

open TypedSys in
/-- If all calls agree with the types of the methods, then under the conditions of the
calls below no process stops, every call of a method is for a call of `rpcc::call`
with its arguments, at most one for each application call, and `rpcc::call` returns
a failure or what the method returned and left. -/
theorem typed_calls (himpl : Implements cfg svc)
    (h : (typedSystem cfg svc).ReachedVia (Lawful svc) s) : Faithful s := by
  obtain ⟨ht, hset, hrun⟩ := inv_of_reachedVia himpl h
  have hvia := sys_of_reachedVia h
  refine ⟨hrun, fun inv hi => ?_,
    once_of_tied ht (Sys.linked_of_reachedVia hvia) (Sys.end_to_end hvia).1,
    fun k t o ho => (hset k t o ho).2⟩
  obtain ⟨k, t, e, call, ask, hran⟩ := ht.invoked inv hi
  exact ⟨k, t, ask, hran.asked, ⟨e, call, hran.executed, hran.called, hran.req⟩, hran.proc,
    hran.args⟩

/-! ## A typed call -/

/-- The step agrees with the methods, as far as a computation tells. -/
def checked (svc : Service) : TypedAct K I → Bool
  | .call _ _ ask _ =>
      match svc.method ask.proc with
      | none => false
      | some m => decide (ask.args.map Sigma.fst = m.sig.args ∧ Fits (payload ask.args) ∧
          ask.target.1 = m.result ∧ ask.target.1.isVector = false)
  | .method _ _ ret result _ _ => decide (0 ≤ ret ∧ Fits (enc result.1 result.2))
  | .ret _ _ _ | .other _ => true

omit [DecidableEq K] [DecidableEq I] in
theorem wellTyped_of_checked (h : checked svc a = true) : WellTyped svc a := by
  cases a with
  | call k t ask junk =>
      simp only [checked] at h
      split at h
      · cases h
      · next m hm =>
          obtain ⟨hargs, hfit, ht, hv⟩ := of_decide_eq_true h
          exact ⟨m, hm, hargs, hfit, ht, fun hvec => absurd hvec (by simp [hv])⟩
  | method =>
      simp only [checked, decide_eq_true_eq] at h
      exact h
  | ret | other => trivial

open TypedSys in
/-- A computed run that reuses no xid and in which no check frees anything. -/
theorem lawful_of_freesNothing
    (h : (typedSystem cfg svc).ReachedVia (fun s a => checked svc a = true ∧
      (s.lowered svc a).all
        (fun b => decide (Sys.FreshXids s.sys b) && s.sys.FreesNothing b) = true) s) :
    (typedSystem cfg svc).ReachedVia (Lawful svc) s := by
  refine h.imp fun s a _ hs hg => ⟨wellTyped_of_checked hg.1, fun b hb => ?_⟩
  have hall := hg.2
  simp only [hb, Option.all_some, Bool.and_eq_true, decide_eq_true_eq] at hall
  exact ⟨hall.1,
    Sys.noOvertake_of_freesNothing ((sys_of_reachedVia hs).mono fun _ _ hg => hg.2) hall.2⟩

end

/-- A server program with one method of a string. -/
def oneMethod : Service where
  method n := if n = 1 then some rpcbind else if n = 5 then
    some ⟨⟨[.string], by decide, by decide, by decide⟩, .string⟩ else none
  bind := rfl

/-- A request and its job, from the call to the check. -/
def typedArrives (t : Nat) (req : Request) (p : Ptr) : List (TypedAct Unit Unit) :=
  [.other (.transmit () t 3), .other (.server () (.receive t 3 req p)),
    .other (.server () (.createWindow t)), .other (.server () (.saveConn t)),
    .other (.server () (.check t))]

/-- The reply of a job, up to the return of `rpcc::call`. -/
def typedReturns (t : Nat) (m : Sent) : List (TypedAct Unit Unit) :=
  [.other (.server () (.packReplyHeader t)), .other (.server () (.addReply t)),
    .other (.server () (.pickConn t false)), .other (.server () (.send t)),
    .other (.gotPdu () () m), .ret () t (List.replicate 24 0)]

/-- The client binds, and calls procedure 5 with "ab". -/
def typedCall : List (TypedAct Unit Unit) :=
  [.call () 0 ⟨1, [⟨.int, (0 : Int32)⟩], ⟨.int, (3 : Int32)⟩⟩ fun _ => 0] ++
  typedArrives 0 (Sys.bindRequest 7) 0 ++
  [.method () 0 0 ⟨.int, (9 : Int32)⟩ (fun _ => 0) (List.replicate 24 0)] ++
  typedReturns 0 ⟨3, Sys.bindRequest 7, ⟨1, 0, bindPayload 9⟩⟩ ++
  [.other (.storeNonce () 0),
    .call () 1 ⟨5, [⟨.string, ([97, 98] : StdString)⟩], ⟨.string, ([] : StdString)⟩⟩ fun _ => 0] ++
  typedArrives 1 ⟨2, 5, 7, 9, 1, [0, 0, 0, 2, 97, 98]⟩ 1 ++
  [.method () 1 4 ⟨.string, ([98] : StdString)⟩ (fun _ => 0) (List.replicate 24 0)] ++
  typedReturns 1 ⟨3, ⟨2, 5, 7, 9, 1, [0, 0, 0, 2, 97, 98]⟩, ⟨2, 4, [0, 0, 0, 1, 98]⟩⟩

theorem oneMethod_implements : Implements Sys.oneClient oneMethod := fun _ _ _ _ _ => rfl

/-- The method returns 4 and leaves "b", and that is what the caller gets. -/
theorem typed_calls_typedCall : ∃ s, (typedSystem Sys.oneClient oneMethod).ReachedVia
      (Lawful oneMethod) s ∧
    s.outcomes ((), 1) = some (some (4, ⟨.string, ([98] : StdString)⟩)) ∧ Faithful s := by
  obtain ⟨s, hs, hp⟩ := @Machine.exists_reachedVia_of_run _ _
    (typedSystem Sys.oneClient oneMethod) (fun s a => checked oneMethod a = true ∧
      (s.lowered oneMethod a).all
        (fun b => decide (Sys.FreshXids s.sys b) && s.sys.FreesNothing b) = true) _
    (fun s => decide (s.outcomes ((), 1) = some (some (4, ⟨.string, ([98] : StdString)⟩))))
    typedCall (by decide +kernel)
  have hvia := lawful_of_freesNothing hs
  exact ⟨s, hvia, of_decide_eq_true hp, typed_calls oneMethod_implements hvia⟩

end RpcLock
